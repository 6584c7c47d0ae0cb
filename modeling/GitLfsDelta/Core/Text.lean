import Mathlib.Data.List.Basic
import Mathlib.Data.List.Infix

/-!
# Text as a program reads it line by line

The string functions of a standard library, on lists of characters: splitting into lines
(at `\n` or `\r\n`), into words (at Unicode white space) and into pieces (at a character), and
removing a fixed beginning.
`lines_unlines` and `second_word` read back what was printed.
-/
namespace GitLfsDelta

abbrev Text := List Char

/-- `char::is_whitespace`: the Unicode property `White_Space`. -/
def isWhitespace (c : Char) : Bool :=
  let n := c.toNat
  (9 ≤ n ∧ n ≤ 13) ∨ n = 0x20 ∨ n = 0x85 ∨ n = 0xa0 ∨ n = 0x1680 ∨ (0x2000 ≤ n ∧ n ≤ 0x200a) ∨
    n = 0x2028 ∨ n = 0x2029 ∨ n = 0x202f ∨ n = 0x205f ∨ n = 0x3000

/-! ## Lines -/

def stripCr (line : Text) : Text := if line.getLast? = some '\r' then line.dropLast else line

/-- The lines of what follows, `current` being the begun line. -/
def linesFrom : Text → Text → List Text
  | [], current => if current = [] then [] else [current]
  | c :: cs, current =>
    if c = '\n' then stripCr current :: linesFrom cs [] else linesFrom cs (current ++ [c])

/-- `str::lines`. -/
def lines (t : Text) : List Text := linesFrom t []

theorem linesFrom_append {a : Text} (ha : '\n' ∉ a) (rest current : Text) :
    linesFrom (a ++ '\n' :: rest) current = stripCr (current ++ a) :: linesFrom rest [] := by
  induction a generalizing current with
  | nil => simp [linesFrom]
  | cons c a ih =>
    rw [List.mem_cons, not_or] at ha
    simp only [List.cons_append, linesFrom, if_neg (Ne.symm ha.1), ih ha.2]
    simp

/-- Lines that were printed with a newline each are read back. -/
theorem lines_unlines {ls : List Text} (h : ∀ l ∈ ls, '\n' ∉ l ∧ l.getLast? ≠ some '\r') :
    lines (ls.flatMap (· ++ ['\n'])) = ls := by
  unfold lines
  induction ls with
  | nil => rfl
  | cons l ls ih =>
    obtain ⟨hl, hcr⟩ := h l List.mem_cons_self
    rw [List.flatMap_cons, List.append_assoc, List.singleton_append, linesFrom_append hl,
      ih fun x hx => h x (List.mem_cons_of_mem _ hx)]
    simp [stripCr, hcr]

theorem stripCr_isPrefix (line : Text) : stripCr line <+: line := by
  unfold stripCr
  split
  · exact List.dropLast_prefix line
  · exact List.prefix_rfl

theorem linesFrom_head {t current l : Text} {ls : List Text} (h : linesFrom t current = l :: ls) :
    l <+: current ++ t := by
  induction t generalizing current with
  | nil =>
    simp only [linesFrom] at h
    split at h
    · cases h
    · cases h; simp
  | cons c cs ih =>
    simp only [linesFrom] at h
    split at h
    · cases h
      exact (stripCr_isPrefix current).trans (List.prefix_append _ _)
    · simpa using ih h

/-- The first line is the beginning of the text. -/
theorem lines_head {t l : Text} {ls : List Text} (h : lines t = l :: ls) : l <+: t := by
  simpa using linesFrom_head h

/-! ## Words -/

/-- The words of what follows, `current` being the begun word. -/
def wordsFrom : Text → Text → List Text
  | [], current => if current = [] then [] else [current]
  | c :: cs, current =>
    if isWhitespace c then
      if current = [] then wordsFrom cs [] else current :: wordsFrom cs []
    else wordsFrom cs (current ++ [c])

/-- `str::split_whitespace`. -/
def splitWhitespace (t : Text) : List Text := wordsFrom t []

theorem wordsFrom_append {a : Text} (ha : ∀ c ∈ a, isWhitespace c = false) (rest current : Text) :
    wordsFrom (a ++ rest) current = wordsFrom rest (current ++ a) := by
  induction a generalizing current with
  | nil => simp
  | cons c a ih =>
    have hc := ha c List.mem_cons_self
    simp only [List.cons_append, wordsFrom, hc, Bool.false_eq_true, if_false]
    rw [ih fun x hx => ha x (List.mem_cons_of_mem _ hx)]
    simp

theorem wordsFrom_head {t current : Text} (hc : current ≠ []) :
    (wordsFrom t current).head? = some (current ++ t.takeWhile (!isWhitespace ·)) := by
  induction t generalizing current with
  | nil => simp [wordsFrom, hc]
  | cons c cs ih =>
    by_cases hw : isWhitespace c = true
    · simp [wordsFrom, hw, hc]
    · simp only [wordsFrom, hw, Bool.false_eq_true, if_false]
      rw [ih (by simp)]
      simp [hw]

/-- The second of two words, up to white space of its own. -/
theorem second_word {a b : Text} (ha : ∀ c ∈ a, isWhitespace c = false) (hne : a ≠ []) {c : Char}
    (hc : isWhitespace c = false) :
    (splitWhitespace (a ++ ' ' :: c :: b))[1]? = some ((c :: b).takeWhile (!isWhitespace ·)) := by
  have hspace : isWhitespace ' ' = true := by decide
  unfold splitWhitespace
  rw [wordsFrom_append ha]
  simp only [List.nil_append, wordsFrom, hspace, if_true, hne, if_false, hc, Bool.false_eq_true,
    List.getElem?_cons_succ, ← List.head?_eq_getElem?]
  rw [wordsFrom_head (by simp)]
  simp [hc]

/-! ## Pieces -/

/-- The pieces of what follows, `current` being the begun piece. -/
def piecesFrom (separator : Char) : Text → Text → List Text
  | [], current => [current]
  | c :: cs, current =>
    if c = separator then current :: piecesFrom separator cs []
    else piecesFrom separator cs (current ++ [c])

/-- `str::split` at a character. -/
def splitAt (separator : Char) (t : Text) : List Text := piecesFrom separator t []

/-! ## UTF-8 -/

/-- `str::as_bytes`. -/
def utf8 (t : Text) : List UInt8 := t.flatMap String.utf8EncodeChar

/-- `String::from_utf8`. -/
def fromUtf8 (b : List UInt8) : Option Text := b.toByteArray.utf8Decode?.map Array.toList

theorem utf8_append (a b : Text) : utf8 (a ++ b) = utf8 a ++ utf8 b := by
  simp [utf8]

theorem fromUtf8_utf8 (t : Text) : fromUtf8 (utf8 t) = some t := by
  have h : (utf8 t).toByteArray.utf8Decode? = some t.toArray :=
    List.utf8Decode?_utf8Encode (l := t)
  unfold fromUtf8
  rw [h]
  rfl

theorem utf8_injective {a b : Text} (h : utf8 a = utf8 b) : a = b := by
  have ha := fromUtf8_utf8 a
  rw [h, fromUtf8_utf8 b] at ha
  exact (Option.some.inj ha).symm

/-! ## Beginnings -/

/-- `str::strip_prefix`. -/
def dropBeginning (beginning t : Text) : Option Text :=
  if beginning <+: t then some (t.drop beginning.length) else none

theorem dropBeginning_some {b t rest : Text} : dropBeginning b t = some rest ↔ t = b ++ rest := by
  unfold dropBeginning
  split
  · rename_i h
    obtain ⟨r, rfl⟩ := h
    simp [eq_comm]
  · rename_i h
    simp only [reduceCtorEq, false_iff]
    rintro rfl
    exact h (List.prefix_append _ _)

end GitLfsDelta
