import GitLfsDelta.Core.Text
import Mathlib.Data.List.Sort

/-!
# JSON values and their texts

`Json` is a JSON value with integers for numbers; an object keeps its fields in the order of the
text. `compact` writes a value without white space, `read` reads one, and a typed reader takes a
value apart with `record`, `asNat` and `asStr`.

* `read_compact`: what was written is read back, with any strings and any integers in it.
* `Keeps.record`: a store that keeps integers and strings, and fields up to order, keeps every
  record.
-/
namespace GitLfsDelta

inductive Json
  | null
  | bool (b : Bool)
  | num (n : Int)
  | str (s : Text)
  | arr (items : List Json)
  | obj (fields : List (Text × Json))

namespace Json

/-! ## Writing -/

def numberText : Int → Text
  | .ofNat n => Nat.toDigits 10 n
  | .negSucc n => '-' :: Nat.toDigits 10 (n + 1)

/-- One character of a string: quotes, backslashes and control characters are escaped. -/
def escapeChar (c : Char) : Text :=
  if c = '"' then "\\\"".toList
  else if c = '\\' then "\\\\".toList
  else if c = '\x08' then "\\b".toList
  else if c = '\t' then "\\t".toList
  else if c = '\n' then "\\n".toList
  else if c = '\x0c' then "\\f".toList
  else if c = '\r' then "\\r".toList
  else if c.toNat < 0x20 then
    "\\u00".toList ++ [Nat.digitChar (c.toNat / 16), Nat.digitChar (c.toNat % 16)]
  else [c]

def quoted (s : Text) : Text := '"' :: (s.flatMap escapeChar ++ ['"'])

mutual

/-- A value without white space. -/
def compact : Json → Text
  | .null => "null".toList
  | .bool true => "true".toList
  | .bool false => "false".toList
  | .num n => numberText n
  | .str s => quoted s
  | .arr [] => "[]".toList
  | .arr (v :: rest) => '[' :: (compact v ++ compactItems rest)
  | .obj [] => ['\x7b', '\x7d']
  | .obj ((name, v) :: rest) => '\x7b' :: (quoted name ++ ':' :: (compact v ++ compactFields rest))

/-- The items that follow a first one, and the closing bracket. -/
def compactItems : List Json → Text
  | [] => [']']
  | v :: rest => ',' :: (compact v ++ compactItems rest)

def compactFields : List (Text × Json) → Text
  | [] => ['\x7d']
  | (name, v) :: rest => ',' :: (quoted name ++ ':' :: (compact v ++ compactFields rest))

end

/-! ## Reading -/

def blank (c : Char) : Bool := c = ' ' ∨ c = '\t' ∨ c = '\n' ∨ c = '\r'

def skip (t : Text) : Text := t.dropWhile blank

/-- The value of a hexadecimal digit of either case. -/
def hexOf (c : Char) : Option Nat := (List.range 16).find? fun n => Nat.digitChar n = c.toLower

def codeUnit (a b c d : Char) : Option Nat := do
  return ((← hexOf a) * 16 + (← hexOf b)) * 256 + ((← hexOf c) * 16 + (← hexOf d))

/-- The character a two-character escape stands for. -/
def unescape : Char → Option Char
  | '"' => some '"'
  | '\\' => some '\\'
  | '/' => some '/'
  | 'b' => some '\x08'
  | 't' => some '\t'
  | 'n' => some '\n'
  | 'f' => some '\x0c'
  | 'r' => some '\r'
  | _ => none

/-- The rest of a string after its opening quote, and what follows the closing one. A character
beyond the basic plane may be written as two surrogates; one surrogate alone is refused. -/
def readString : Text → Option (Text × Text)
  | [] => none
  | '"' :: rest => some ([], rest)
  | '\\' :: 'u' :: a :: b :: c :: d :: rest =>
    match codeUnit a b c d with
    | none => none
    | some high =>
      if high < 0xd800 ∨ 0xe000 ≤ high then
        (readString rest).map fun p => (Char.ofNat high :: p.1, p.2)
      else match rest with
        | '\\' :: 'u' :: a' :: b' :: c' :: d' :: rest' =>
          match codeUnit a' b' c' d' with
          | none => none
          | some low =>
            if high < 0xdc00 ∧ 0xdc00 ≤ low ∧ low < 0xe000 then
              (readString rest').map fun p =>
                (Char.ofNat (0x10000 + (high - 0xd800) * 0x400 + (low - 0xdc00)) :: p.1, p.2)
            else none
        | _ => none
  | '\\' :: c :: rest =>
    match unescape c with
    | none => none
    | some plain => (readString rest).map fun p => (plain :: p.1, p.2)
  | c :: rest =>
    if c.toNat < 0x20 ∨ c = '\\' then none else (readString rest).map fun p => (c :: p.1, p.2)

/-- An integer without a sign and without leading zeros, and what follows it. -/
def readNat (t : Text) : Option (Nat × Text) :=
  match t.takeWhile Char.isDigit with
  | [] => none
  | '0' :: _ :: _ => none
  | digits => some (Nat.ofDigitChars 10 digits 0, t.dropWhile Char.isDigit)

def readNumber : Text → Option (Int × Text)
  | '-' :: t => match readNat t with
    | some (n + 1, rest) => some (.negSucc n, rest)
    | _ => none
  | t => (readNat t).map fun p => (.ofNat p.1, p.2)

mutual

/-- One value at the beginning of a text, and what follows it. -/
def readValue : Nat → Text → Option (Json × Text)
  | 0, _ => none
  | fuel + 1, t => match skip t with
    | 'n' :: 'u' :: 'l' :: 'l' :: rest => some (.null, rest)
    | 't' :: 'r' :: 'u' :: 'e' :: rest => some (.bool true, rest)
    | 'f' :: 'a' :: 'l' :: 's' :: 'e' :: rest => some (.bool false, rest)
    | '"' :: rest => (readString rest).map fun p => (.str p.1, p.2)
    | '[' :: rest => match skip rest with
      | ']' :: rest => some (.arr [], rest)
      | rest => do
        let (v, rest) ← readValue fuel rest
        let (items, rest) ← readItems fuel rest
        return (.arr (v :: items), rest)
    | '\x7b' :: rest => match skip rest with
      | '\x7d' :: rest => some (.obj [], rest)
      | rest => do
        let (field, rest) ← readField fuel rest
        let (fields, rest) ← readFields fuel rest
        return (.obj (field :: fields), rest)
    | rest => (readNumber rest).map fun p => (.num p.1, p.2)

/-- The items that follow a first one, up to the closing bracket. -/
def readItems : Nat → Text → Option (List Json × Text)
  | 0, _ => none
  | fuel + 1, t => match skip t with
    | ']' :: rest => some ([], rest)
    | ',' :: rest => do
      let (v, rest) ← readValue fuel rest
      let (items, rest) ← readItems fuel rest
      return (v :: items, rest)
    | _ => none

def readField : Nat → Text → Option ((Text × Json) × Text)
  | 0, _ => none
  | fuel + 1, t => match skip t with
    | '"' :: rest => do
      let (name, rest) ← readString rest
      match skip rest with
      | ':' :: rest => (readValue fuel rest).map fun p => ((name, p.1), p.2)
      | _ => none
    | _ => none

def readFields : Nat → Text → Option (List (Text × Json) × Text)
  | 0, _ => none
  | fuel + 1, t => match skip t with
    | '\x7d' :: rest => some ([], rest)
    | ',' :: rest => do
      let (field, rest) ← readField fuel rest
      let (fields, rest) ← readFields fuel rest
      return (field :: fields, rest)
    | _ => none

end

/-- A text that is one value and nothing else. -/
def read (t : Text) : Option Json :=
  match readValue (t.length + 1) t with
  | some (v, rest) => if skip rest = [] then some v else none
  | none => none

/-! ## Round trip -/

theorem codeUnit_control : ∀ n < 32,
    codeUnit '0' '0' (Nat.digitChar (n / 16)) (Nat.digitChar (n % 16)) = some n := by decide

theorem readString_escapeChar (c : Char) (t : Text) :
    readString (escapeChar c ++ t) = (readString t).map fun p => (c :: p.1, p.2) := by
  unfold escapeChar
  split
  · rename_i h
    subst h
    rfl
  split
  · rename_i h
    subst h
    rfl
  split
  · rename_i h
    subst h
    rfl
  split
  · rename_i h
    subst h
    rfl
  split
  · rename_i h
    subst h
    rfl
  split
  · rename_i h
    subst h
    rfl
  split
  · rename_i h
    subst h
    rfl
  split
  · rename_i h
    have hunit := codeUnit_control c.toNat h
    have hlow : c.toNat < 0xd800 := by omega
    rw [show "\\u00".toList = ['\\', 'u', '0', '0'] by decide]
    simp only [List.cons_append, List.nil_append]
    rw [readString]
    simp only [hunit, hlow, true_or, if_true, Char.ofNat_toNat]
  · rename_i hquote hslash _ _ _ _ _ hplain
    rw [List.singleton_append, readString.eq_5 _ _ hquote]
    · rw [if_neg (by simp [hslash, hplain])]
    · intro a b c' d rest h
      exact absurd h hslash
    · intro c' rest h
      exact absurd h hslash

theorem readString_escaped (s t : Text) :
    readString (s.flatMap escapeChar ++ '"' :: t) = some (s, t) := by
  induction s with
  | nil => rfl
  | cons c s ih =>
    rw [List.flatMap_cons, List.append_assoc, readString_escapeChar, ih]
    rfl

/-! ### Numbers -/

/-- What can stand behind a number. -/
def Ends (t : Text) : Prop := ∀ c, t.head? = some c → c.isDigit = false

theorem head_toDigits {n : Nat} (h : (Nat.toDigits 10 n).head? = some '0') : n = 0 := by
  induction n using Nat.strongRecOn with
  | ind n ih =>
    rw [Nat.toDigits_eq_if (by decide)] at h
    split at h
    · rename_i hlt
      have hone : ∀ m < 10, [Nat.digitChar m].head? = some '0' → m = 0 := by decide
      exact hone n hlt h
    · rename_i hge
      rw [List.head?_append_of_ne_nil _ Nat.toDigits_ne_nil] at h
      have := ih (n / 10) (by omega) h
      omega

theorem readNat_toDigits (n : Nat) {t : Text} (ht : Ends t) :
    readNat (Nat.toDigits 10 n ++ t) = some (n, t) := by
  have hdigits : ∀ c ∈ Nat.toDigits 10 n, c.isDigit = true :=
    fun c hc => Nat.isDigit_of_mem_toDigits (by decide) (by decide) hc
  have hstop : t.takeWhile Char.isDigit = [] ∧ t.dropWhile Char.isDigit = t := by
    cases t with
    | nil => exact ⟨rfl, rfl⟩
    | cons c t => simp [ht c rfl]
  have htake : (Nat.toDigits 10 n ++ t).takeWhile Char.isDigit = Nat.toDigits 10 n := by
    rw [List.takeWhile_append_of_pos hdigits, hstop.1, List.append_nil]
  have hdrop : (Nat.toDigits 10 n ++ t).dropWhile Char.isDigit = t := by
    rw [List.dropWhile_append_of_pos hdigits, hstop.2]
  unfold readNat
  rw [htake, hdrop]
  split
  · rename_i h
    exact absurd h Nat.toDigits_ne_nil
  · rename_i h
    have hzero := head_toDigits (by rw [h]; rfl : (Nat.toDigits 10 n).head? = some '0')
    rw [hzero] at h
    cases h
  · rw [Nat.ofDigitChars_ten_toDigits]

theorem toDigits_cons (n : Nat) : ∃ c cs, Nat.toDigits 10 n = c :: cs ∧ c.isDigit = true := by
  cases h : Nat.toDigits 10 n with
  | nil => exact absurd h Nat.toDigits_ne_nil
  | cons c cs =>
    have hmem : c ∈ Nat.toDigits 10 n := by
      rw [h]
      exact List.mem_cons_self
    exact ⟨c, cs, rfl, Nat.isDigit_of_mem_toDigits (by decide) (by decide) hmem⟩

theorem readNumber_numberText (n : Int) {t : Text} (ht : Ends t) :
    readNumber (numberText n ++ t) = some (n, t) := by
  cases n with
  | ofNat n =>
    rw [numberText, readNumber, readNat_toDigits n ht]
    · rfl
    · intro t' h
      obtain ⟨c, cs, hcs, hc⟩ := toDigits_cons n
      rw [hcs] at h
      cases h
      cases hc
  | negSucc n =>
    simp only [numberText, List.cons_append, readNumber, readNat_toDigits _ ht]

theorem numberText_cons (n : Int) :
    ∃ c cs, numberText n = c :: cs ∧ (c.isDigit = true ∨ c = '-') := by
  cases n with
  | ofNat n =>
    obtain ⟨c, cs, hcs, hc⟩ := toDigits_cons n
    exact ⟨c, cs, hcs, .inl hc⟩
  | negSucc n => exact ⟨'-', _, rfl, .inr rfl⟩

/-! ### Values -/

/-- The first character of a value. -/
structure Opens (c : Char) : Prop where
  solid : blank c = false
  bracket : c ≠ ']'
  brace : c ≠ '\x7d'

theorem Opens.number {c : Char} (h : c.isDigit = true ∨ c = '-') : Opens c := by
  rcases h with h | rfl
  · refine ⟨?_, ?_, ?_⟩
    · unfold blank
      by_contra hb
      simp only [Bool.not_eq_false, decide_eq_true_eq] at hb
      rcases hb with rfl | rfl | rfl | rfl <;> cases h
    · rintro rfl
      cases h
    · rintro rfl
      cases h
  · exact ⟨by decide, by decide, by decide⟩

theorem compact_cons (v : Json) : ∃ c cs, compact v = c :: cs ∧ Opens c := by
  cases v with
  | null => exact ⟨'n', _, rfl, by decide, by decide, by decide⟩
  | bool b =>
    cases b with
    | true => exact ⟨'t', _, rfl, by decide, by decide, by decide⟩
    | false => exact ⟨'f', _, rfl, by decide, by decide, by decide⟩
  | num n =>
    obtain ⟨c, cs, hcs, hc⟩ := numberText_cons n
    exact ⟨c, cs, by rw [compact, hcs], .number hc⟩
  | str s => exact ⟨'"', _, by rw [compact, quoted], by decide, by decide, by decide⟩
  | arr items =>
    cases items with
    | nil => exact ⟨'[', _, by rw [compact]; rfl, by decide, by decide, by decide⟩
    | cons v rest => exact ⟨'[', _, by rw [compact], by decide, by decide, by decide⟩
  | obj fields =>
    cases fields with
    | nil => exact ⟨'\x7b', _, by rw [compact], by decide, by decide, by decide⟩
    | cons f rest =>
      obtain ⟨name, v⟩ := f
      exact ⟨'\x7b', _, by rw [compact], by decide, by decide, by decide⟩

theorem skip_cons {c : Char} (h : blank c = false) (t : Text) : skip (c :: t) = c :: t := by
  simp [skip, h]

theorem skip_compact (v : Json) (t : Text) : skip (compact v ++ t) = compact v ++ t := by
  obtain ⟨c, cs, hcs, hc⟩ := compact_cons v
  rw [hcs, List.cons_append, skip_cons hc.solid]

theorem readValue_number {c : Char} (h : c.isDigit = true ∨ c = '-') (fuel : Nat) (t : Text) :
    readValue (fuel + 1) (c :: t) = (readNumber (c :: t)).map fun p => (.num p.1, p.2) := by
  have hother : ∀ d : Char, d.isDigit = false → d ≠ '-' → c ≠ d := by
    rintro d hd hne rfl
    rcases h with h | h
    · rw [hd] at h
      cases h
    · exact hne h
  rw [readValue, skip_cons (Opens.number h).solid]
  split <;> rename_i heq
  · exact absurd (List.cons.inj heq).1 (hother _ rfl (by decide))
  · exact absurd (List.cons.inj heq).1 (hother _ rfl (by decide))
  · exact absurd (List.cons.inj heq).1 (hother _ rfl (by decide))
  · exact absurd (List.cons.inj heq).1 (hother _ rfl (by decide))
  · exact absurd (List.cons.inj heq).1 (hother _ rfl (by decide))
  · exact absurd (List.cons.inj heq).1 (hother _ rfl (by decide))
  · rfl

/-- A list, once its first item has been read. -/
theorem readValue_arr {fuel : Nat} {t t' : Text} {v : Json}
    (hfirst : readValue fuel (compact v ++ t) = some (v, t')) :
    readValue (fuel + 1) ('[' :: (compact v ++ t)) =
      (readItems fuel t').map fun p => (.arr (v :: p.1), p.2) := by
  obtain ⟨c, cs, hcs, hc⟩ := compact_cons v
  rw [readValue, skip_cons (by decide)]
  simp only [skip_compact]
  rw [hcs, List.cons_append] at hfirst ⊢
  split
  · rename_i heq
    exact absurd (List.cons.inj heq).1 hc.bracket
  · simp only [hfirst, Option.bind_eq_bind, Option.bind_some]
    cases readItems fuel t' <;> rfl

theorem readItems_next {fuel : Nat} {t t' : Text} {v : Json} (h : readValue fuel t = some (v, t')) :
    readItems (fuel + 1) (',' :: t) = (readItems fuel t').map fun p => (v :: p.1, p.2) := by
  rw [readItems, skip_cons (by decide)]
  simp only [h, Option.bind_eq_bind, Option.bind_some]
  cases readItems fuel t' <;> rfl

theorem readField_quoted {fuel : Nat} {t t' : Text} {v : Json} (name : Text)
    (h : readValue fuel t = some (v, t')) :
    readField (fuel + 1) (quoted name ++ ':' :: t) = some ((name, v), t') := by
  have htext : quoted name ++ ':' :: t = '"' :: (name.flatMap escapeChar ++ '"' :: ':' :: t) := by
    simp [quoted]
  rw [htext, readField, skip_cons (by decide)]
  simp only [readString_escaped, Option.bind_eq_bind, Option.bind_some]
  rw [skip_cons (by decide)]
  simp only [h, Option.map_some]

theorem readValue_obj {fuel : Nat} {t t' : Text} {name : Text} {v : Json}
    (hfirst : readField fuel (quoted name ++ t) = some ((name, v), t')) :
    readValue (fuel + 1) ('\x7b' :: (quoted name ++ t)) =
      (readFields fuel t').map fun p => (.obj ((name, v) :: p.1), p.2) := by
  rw [readValue, skip_cons (by decide)]
  rw [quoted, List.cons_append] at hfirst ⊢
  simp only [skip_cons (show blank '"' = false by decide)]
  split
  · rename_i heq
    exact absurd (List.cons.inj heq).1 (by decide)
  · simp only [hfirst, Option.bind_eq_bind, Option.bind_some]
    cases readFields fuel t' <;> rfl

theorem readFields_next {fuel : Nat} {t t' : Text} {field : Text × Json}
    (h : readField fuel t = some (field, t')) :
    readFields (fuel + 1) (',' :: t) = (readFields fuel t').map fun p => (field :: p.1, p.2) := by
  rw [readFields, skip_cons (by decide)]
  simp only [h, Option.bind_eq_bind, Option.bind_some]
  cases readFields fuel t' <;> rfl

theorem compactItems_ends (items : List Json) (t : Text) : Ends (compactItems items ++ t) := by
  intro c hc
  cases items with
  | nil =>
    cases hc
    rfl
  | cons v rest =>
    cases hc
    rfl

theorem compactFields_ends (fields : List (Text × Json)) (t : Text) :
    Ends (compactFields fields ++ t) := by
  intro c hc
  cases fields with
  | nil =>
    cases hc
    rfl
  | cons f rest =>
    cases hc
    rfl

theorem two_le_quoted (s : Text) : 2 ≤ (quoted s).length := by
  simp [quoted]

mutual

theorem readValue_compact : ∀ (v : Json) (fuel : Nat) (t : Text), (compact v).length < fuel → Ends t →
    readValue fuel (compact v ++ t) = some (v, t)
  | _, 0, _, hfuel, _ => absurd hfuel (Nat.not_lt_zero _)
  | .null, fuel + 1, t, _, _ => by
    rw [show compact .null ++ t = 'n' :: 'u' :: 'l' :: 'l' :: t from rfl, readValue, skip_cons (by decide)]
    rfl
  | .bool true, fuel + 1, t, _, _ => by
    rw [show compact (.bool true) ++ t = 't' :: 'r' :: 'u' :: 'e' :: t from rfl, readValue,
      skip_cons (by decide)]
    rfl
  | .bool false, fuel + 1, t, _, _ => by
    rw [show compact (.bool false) ++ t = 'f' :: 'a' :: 'l' :: 's' :: 'e' :: t from rfl, readValue,
      skip_cons (by decide)]
    rfl
  | .num n, fuel + 1, t, _, ht => by
    have hread := readNumber_numberText n ht
    obtain ⟨c, cs, hcs, hc⟩ := numberText_cons n
    rw [hcs] at hread
    rw [compact, hcs, List.cons_append, readValue_number hc, ← List.cons_append, hread]
    rfl
  | .str s, fuel + 1, t, _, _ => by
    have htext : compact (.str s) ++ t = '"' :: (s.flatMap escapeChar ++ '"' :: t) := by
      simp [compact, quoted]
    rw [htext, readValue, skip_cons (by decide)]
    simp only [readString_escaped, Option.map_some]
  | .arr [], fuel + 1, t, _, _ => by
    rw [show compact (.arr []) ++ t = '[' :: ']' :: t from rfl, readValue, skip_cons (by decide)]
    simp only [skip_cons (show blank ']' = false by decide)]
  | .arr (v :: rest), fuel + 1, t, hfuel, _ => by
    simp only [compact, List.length_cons, List.length_append] at hfuel
    have hfirst := readValue_compact v fuel (compactItems rest ++ t) (by omega) (compactItems_ends rest t)
    rw [compact, List.cons_append, List.append_assoc, readValue_arr hfirst,
      readItems_compact rest fuel t (by omega)]
    rfl
  | .obj [], fuel + 1, t, _, _ => by
    rw [show compact (.obj []) ++ t = '\x7b' :: '\x7d' :: t from rfl, readValue, skip_cons (by decide)]
    simp only [skip_cons (show blank '\x7d' = false by decide)]
  | .obj ((name, v) :: rest), fuel + 1, t, hfuel, _ => by
    simp only [compact, List.length_cons, List.length_append] at hfuel
    have hname := two_le_quoted name
    have hvalue := readValue_compact v (fuel - 1) (compactFields rest ++ t) (by omega)
      (compactFields_ends rest t)
    have hfirst := readField_quoted name hvalue
    rw [show fuel - 1 + 1 = fuel by omega] at hfirst
    rw [compact, List.cons_append, List.append_assoc, List.cons_append, List.append_assoc,
      readValue_obj hfirst, readFields_compact rest fuel t (by omega)]
    rfl

theorem readItems_compact : ∀ (items : List Json) (fuel : Nat) (t : Text),
    (compactItems items).length < fuel → readItems fuel (compactItems items ++ t) = some (items, t)
  | _, 0, _, hfuel => absurd hfuel (Nat.not_lt_zero _)
  | [], fuel + 1, t, _ => by
    rw [show compactItems [] ++ t = ']' :: t from rfl, readItems, skip_cons (by decide)]
    rfl
  | v :: rest, fuel + 1, t, hfuel => by
    simp only [compactItems, List.length_cons, List.length_append] at hfuel
    have hfirst := readValue_compact v fuel (compactItems rest ++ t) (by omega) (compactItems_ends rest t)
    rw [compactItems, List.cons_append, List.append_assoc, readItems_next hfirst,
      readItems_compact rest fuel t (by omega)]
    rfl

theorem readFields_compact : ∀ (fields : List (Text × Json)) (fuel : Nat) (t : Text),
    (compactFields fields).length < fuel → readFields fuel (compactFields fields ++ t) = some (fields, t)
  | _, 0, _, hfuel => absurd hfuel (Nat.not_lt_zero _)
  | [], fuel + 1, t, _ => by
    rw [show compactFields [] ++ t = '\x7d' :: t from rfl, readFields, skip_cons (by decide)]
    rfl
  | (name, v) :: rest, fuel + 1, t, hfuel => by
    simp only [compactFields, List.length_cons, List.length_append] at hfuel
    have hname := two_le_quoted name
    have hvalue := readValue_compact v (fuel - 1) (compactFields rest ++ t) (by omega)
      (compactFields_ends rest t)
    have hfirst := readField_quoted name hvalue
    rw [show fuel - 1 + 1 = fuel by omega] at hfirst
    rw [compactFields, List.cons_append, List.append_assoc, List.cons_append, List.append_assoc,
      readFields_next hfirst, readFields_compact rest fuel t (by omega)]
    rfl

end

/-- **What was written is read back.** -/
theorem read_compact (v : Json) : read v.compact = some v := by
  have hends : Ends [] := by
    intro c hc
    cases hc
  have hvalue := readValue_compact v _ [] (Nat.lt_succ_self _) hends
  rw [List.append_nil] at hvalue
  simp only [read, hvalue]
  rfl

/-! ## Other readers -/

/-- Integers of 64 bits in at most `depth` nested lists and objects. -/
def Readable : Nat → Json → Prop
  | _, .num n => -0x8000000000000000 ≤ n ∧ n < 0x10000000000000000
  | 0, .arr _ | 0, .obj _ => False
  | depth + 1, .arr items => ∀ v ∈ items, Readable depth v
  | depth + 1, .obj fields => ∀ f ∈ fields, Readable depth f.2
  | _, _ => True

/-- A reader that has bounds on its integers and on the nesting, and within them reads what was
written. -/
def Reads (reader : Text → Option Json) : Prop :=
  ∀ v, Readable 127 v → reader v.compact = some v

theorem reads_read : Reads read := fun v _ => read_compact v

/-! ## Typed readers -/

/-- The value of a field that is there exactly once. -/
def field (fields : List (Text × Json)) (name : Text) : Option Json :=
  match fields.filter fun f => f.1 = name with
  | [f] => some f.2
  | _ => none

/-- The values of a record's fields in their declared order: an object has each of them once and
may have others, a list has exactly these values. -/
def record (names : List Text) : Json → Option (List Json)
  | .obj fields => names.mapM (field fields)
  | .arr items => if items.length = names.length then some items else none
  | _ => none

/-- An unsigned integer below a bound. -/
def asNat (bound : Nat) : Json → Option Nat
  | .num (.ofNat n) => if n < bound then some n else none
  | _ => none

def asStr : Json → Option Text
  | .str s => some s
  | _ => none

/-- A variant without contents: its name, or an object of its name and `null`. -/
def isVariant (name : Text) : Json → Bool
  | .str s => s = name
  | .obj [(s, .null)] => s = name
  | _ => false

theorem field_perm {fields fields' : List (Text × Json)} (h : fields.Perm fields') :
    field fields = field fields' := by
  funext name
  have hfilter := h.filter fun f => f.1 = name
  unfold field
  split
  · rename_i f hf
    rw [hf] at hfilter
    rw [← List.singleton_perm.1 hfilter]
  · rename_i hnot
    split
    · rename_i f hf
      rw [hf] at hfilter
      exact absurd (List.perm_singleton.1 hfilter) (hnot f)
    · rfl

theorem field_map (g : Json → Json) (fields : List (Text × Json)) (name : Text) :
    field (fields.map fun f => (f.1, g f.2)) name = (field fields name).map g := by
  have hfilter : (fields.map fun f => (f.1, g f.2)).filter (fun f => f.1 = name) =
      (fields.filter fun f => f.1 = name).map fun f => (f.1, g f.2) := by
    rw [List.filter_map]
    rfl
  unfold field
  rw [hfilter]
  cases hf : fields.filter fun f => f.1 = name with
  | nil => rfl
  | cons f rest => cases rest <;> rfl

theorem mapM_field_map (g : Json → Json) (fields : List (Text × Json)) (names : List Text) :
    names.mapM (field (fields.map fun f => (f.1, g f.2))) =
      (names.mapM (field fields)).map (List.map g) := by
  induction names with
  | nil => rfl
  | cons name names ih =>
    rw [List.mapM_cons, List.mapM_cons, ih, field_map]
    cases field fields name with
    | none => rfl
    | some v => cases names.mapM (field fields) <;> rfl

/-! ## Stores -/

/-- What a database column makes of a value. It keeps integers of 64 bits and the strings
without a zero character, and it may order the fields of an object anew. -/
structure Keeps (store : Json → Json) : Prop where
  num : ∀ n : Int, -0x8000000000000000 ≤ n → n < 0x10000000000000000 → store (.num n) = .num n
  str : ∀ s, '\x00' ∉ s → store (.str s) = .str s
  arr : ∀ items, store (.arr items) = .arr (items.map store)
  obj : ∀ fields, (fields.map Prod.fst).Nodup → (∀ name ∈ fields.map Prod.fst, '\x00' ∉ name) →
    ∃ fields', store (.obj fields) = .obj fields' ∧
      fields'.Perm (fields.map fun f => (f.1, store f.2))

/-- A stored object has the fields of the object, stored. -/
theorem Keeps.record {store : Json → Json} (h : Keeps store) {fields : List (Text × Json)}
    (hnames : (fields.map Prod.fst).Nodup)
    (hzero : ∀ name ∈ fields.map Prod.fst, '\x00' ∉ name) (names : List Text) :
    (store (.obj fields)).record names = ((Json.obj fields).record names).map (List.map store) := by
  obtain ⟨fields', hstore, hperm⟩ := h.obj fields hnames hzero
  rw [hstore, Json.record, Json.record, field_perm hperm, mapM_field_map]

theorem keeps_id : Keeps id where
  num _ _ _ := rfl
  str _ _ := rfl
  arr items := by rw [List.map_id]; rfl
  obj fields _ _ := ⟨fields, rfl, by simp⟩

/-- Names in the order of their characters. -/
def nameLe : Text → Text → Bool
  | [], _ => true
  | _ :: _, [] => false
  | a :: s, b :: t => a.toNat < b.toNat || (a = b && nameLe s t)

mutual

/-- The fields of every object in the order of their names. -/
def sorted : Json → Json
  | .arr items => .arr (sortedItems items)
  | .obj fields => .obj ((sortedFields fields).insertionSort fun f g => nameLe f.1 g.1 = true)
  | v => v

def sortedItems : List Json → List Json
  | [] => []
  | v :: rest => sorted v :: sortedItems rest

def sortedFields : List (Text × Json) → List (Text × Json)
  | [] => []
  | (name, v) :: rest => (name, sorted v) :: sortedFields rest

end

theorem sortedItems_eq (items : List Json) : sortedItems items = items.map sorted := by
  induction items with
  | nil => rfl
  | cons v rest ih => rw [sortedItems, ih, List.map_cons]

theorem sortedFields_eq (fields : List (Text × Json)) :
    sortedFields fields = fields.map fun f => (f.1, sorted f.2) := by
  induction fields with
  | nil => rfl
  | cons f rest ih =>
    obtain ⟨name, v⟩ := f
    rw [sortedFields, ih, List.map_cons]

/-- Sorting the fields is such a store. -/
theorem keeps_sorted : Keeps sorted where
  num _ _ _ := by rw [sorted]; all_goals simp
  str _ _ := by rw [sorted]; all_goals simp
  arr items := by rw [sorted, sortedItems_eq]
  obj fields _ _ := by
    refine ⟨_, by rw [sorted], ?_⟩
    rw [sortedFields_eq]
    exact List.perm_insertionSort _ _

end Json

end GitLfsDelta
