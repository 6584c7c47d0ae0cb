import GitLfsDelta.Core.Text

/-!
# Percent-encoding

A URL writes a byte that may not stand in it as a percent sign and two hexadecimal digits. Which
characters of a path segment are escaped differs between URL libraries: an `EscapeSet` is a choice
that leaves letters, digits and `-._~` alone and escapes what cannot stand in a segment.

* `percentDecode_encode`: with any such choice the decoder reads back what was encoded.
* `slash_encode`, `encode_dots`: an encoded segment is one segment, and a dot segment only if it was
  one before.
-/
namespace GitLfsDelta

/-! ## Decoding -/

def hexValue (c : Char) : Option Nat :=
  if '0' ≤ c ∧ c ≤ '9' then some (c.toNat - '0'.toNat)
  else if 'a' ≤ c ∧ c ≤ 'f' then some (c.toNat - 'a'.toNat + 10)
  else if 'A' ≤ c ∧ c ≤ 'F' then some (c.toNat - 'A'.toNat + 10)
  else none

/-- `percent_decode`: an escape that is none stays. -/
def unescapeBytes : List UInt8 → List UInt8
  | 0x25 :: a :: b :: rest =>
    match hexValue (Char.ofNat a.toNat), hexValue (Char.ofNat b.toNat) with
    | some m, some n => UInt8.ofNat (16 * m + n) :: unescapeBytes rest
    | _, _ => 0x25 :: unescapeBytes (a :: b :: rest)
  | c :: rest => c :: unescapeBytes rest
  | [] => []

/-- A segment percent-decoded, where that is UTF-8. -/
def percentDecode (s : Text) : Option Text := fromUtf8 (unescapeBytes (utf8 s))

/-! ## Encoding -/

/-- `.` and `..`. -/
def DotSegment (s : Text) : Prop := s = ['.'] ∨ s = ['.', '.']

instance (s : Text) : Decidable (DotSegment s) := by unfold DotSegment; infer_instance

/-- What cannot stand in a path segment, or not as itself. -/
def Reserved (c : Char) : Prop :=
  c.toNat ≤ 0x20 ∨ 0x7e < c.toNat ∨
    c ∈ ['"', '#', '%', '/', '<', '>', '?', '\\', '\x60', '\x7b', '\x7d']

def Unreserved (c : Char) : Prop := c.isAlphanum = true ∨ c ∈ ['-', '.', '_', '~']

instance (c : Char) : Decidable (Reserved c) := by unfold Reserved; infer_instance

instance (c : Char) : Decidable (Unreserved c) := by unfold Unreserved; infer_instance

/-- The characters that a URL library escapes in a path segment. -/
structure EscapeSet where
  escapes : Char → Bool
  reserved : ∀ c, Reserved c → escapes c = true
  unreserved : ∀ c, Unreserved c → escapes c = false

def upperHex (n : Nat) : Char := if n < 10 then Char.ofNat (48 + n) else Char.ofNat (55 + n)

def escapeByte (b : UInt8) : Text := ['%', upperHex (b.toNat / 16), upperHex (b.toNat % 16)]

namespace EscapeSet

variable (set : EscapeSet)

def encodeChar (c : Char) : Text := if set.escapes c then (utf8 [c]).flatMap escapeByte else [c]

/-- A text percent-encoded. -/
def encode (s : Text) : Text := s.flatMap set.encodeChar

@[simp] theorem encode_nil : set.encode [] = [] := rfl

@[simp] theorem encode_cons (c : Char) (s : Text) :
    set.encode (c :: s) = set.encodeChar c ++ set.encode s := by simp [encode]

theorem encodeChar_unreserved {c : Char} (h : Unreserved c) : set.encodeChar c = [c] := by
  unfold encodeChar
  rw [set.unreserved c h, if_neg (by decide)]

theorem encode_unreserved {s : Text} (h : ∀ c ∈ s, Unreserved c) : set.encode s = s := by
  induction s with
  | nil => rfl
  | cons c s ih =>
    obtain ⟨hc, hs⟩ := List.forall_mem_cons.1 h
    rw [encode_cons, set.encodeChar_unreserved hc, ih hs]
    rfl

theorem encode_word {s : Text} (h : s.all (fun c => decide (Unreserved c)) = true) : set.encode s = s :=
  set.encode_unreserved fun c hc => of_decide_eq_true (List.all_eq_true.1 h c hc)

end EscapeSet

/-! ## Written and read back -/

theorem hexValue_upperHex : ∀ n < 16, hexValue (upperHex n) = some n := by decide

theorem upperHex_byte : ∀ n < 16, Char.ofNat (UInt8.ofNat (upperHex n).toNat).toNat = upperHex n := by decide

theorem upperHex_utf8 : ∀ n < 16, utf8 [upperHex n] = [UInt8.ofNat (upperHex n).toNat] := by decide

theorem utf8_ascii : ∀ n < 0x7f, utf8 [Char.ofNat n] = [UInt8.ofNat n] := by decide

/-- An escaped byte is read back. -/
theorem unescapeBytes_escaped (b : UInt8) (rest : List UInt8) :
    unescapeBytes (utf8 (escapeByte b) ++ rest) = b :: unescapeBytes rest := by
  have hlt := b.toNat_lt
  have hhigh : b.toNat / 16 < 16 := by omega
  have hlow : b.toNat % 16 < 16 := Nat.mod_lt _ (by decide)
  have hbytes : utf8 (escapeByte b) =
      0x25 :: UInt8.ofNat (upperHex (b.toNat / 16)).toNat :: [UInt8.ofNat (upperHex (b.toNat % 16)).toNat] := by
    rw [show escapeByte b = ['%'] ++ ([upperHex (b.toNat / 16)] ++ [upperHex (b.toNat % 16)]) from rfl,
      utf8_append, utf8_append, upperHex_utf8 _ hhigh, upperHex_utf8 _ hlow]
    rfl
  rw [hbytes]
  simp only [List.cons_append, List.nil_append, unescapeBytes, upperHex_byte _ hhigh, upperHex_byte _ hlow,
    hexValue_upperHex _ hhigh, hexValue_upperHex _ hlow]
  rw [show 16 * (b.toNat / 16) + b.toNat % 16 = b.toNat by omega, UInt8.ofNat_toNat]

theorem unescapeBytes_bytes (bytes rest : List UInt8) :
    unescapeBytes (utf8 (bytes.flatMap escapeByte) ++ rest) = bytes ++ unescapeBytes rest := by
  induction bytes with
  | nil => rfl
  | cons b bytes ih =>
    rw [List.flatMap_cons, utf8_append, List.append_assoc, unescapeBytes_escaped, ih]
    rfl

theorem unescapeBytes_cons {b : UInt8} (h : b ≠ 0x25) (rest : List UInt8) :
    unescapeBytes (b :: rest) = b :: unescapeBytes rest := by
  rw [unescapeBytes]
  intro _ _ _ hb
  exact absurd hb h

/-- A character that stays is a byte of its own, and no percent sign. -/
theorem unescapeBytes_plain {c : Char} (h : ¬ Reserved c) (rest : List UInt8) :
    unescapeBytes (utf8 [c] ++ rest) = utf8 [c] ++ unescapeBytes rest := by
  have hrange : 0x20 < c.toNat ∧ c.toNat ≤ 0x7e ∧ c ≠ '%' := by
    unfold Reserved at h
    simp only [not_or] at h
    refine ⟨by omega, by omega, ?_⟩
    rintro rfl
    simp at h
  have hbyte := utf8_ascii c.toNat (by omega)
  rw [Char.ofNat_toNat] at hbyte
  rw [hbyte]
  apply unescapeBytes_cons
  intro e
  have hnat := congrArg UInt8.toNat e
  rw [UInt8.toNat_ofNat', Nat.mod_eq_of_lt (by omega)] at hnat
  exact hrange.2.2 (Char.toNat_inj.1 hnat)

namespace EscapeSet

variable (set : EscapeSet)

theorem not_reserved {c : Char} (h : set.escapes c = false) : ¬ Reserved c := by
  intro hc
  rw [set.reserved c hc] at h
  cases h

theorem unescapeBytes_encode (s : Text) : unescapeBytes (utf8 (set.encode s)) = utf8 s := by
  induction s with
  | nil => rfl
  | cons c s ih =>
    rw [encode_cons, utf8_append, show utf8 (c :: s) = utf8 [c] ++ utf8 s from utf8_append [c] s]
    unfold encodeChar
    by_cases hc : set.escapes c = true
    · rw [if_pos hc, unescapeBytes_bytes, ih]
    · rw [if_neg hc, unescapeBytes_plain (set.not_reserved (by simpa using hc)), ih]

/-- **What was encoded is read back.** -/
theorem percentDecode_encode (s : Text) : percentDecode (set.encode s) = some s := by
  unfold percentDecode
  rw [unescapeBytes_encode, fromUtf8_utf8]

theorem encode_injective {s t : Text} (h : set.encode s = set.encode t) : s = t := by
  have hs := set.percentDecode_encode s
  rw [h, set.percentDecode_encode t] at hs
  exact (Option.some.inj hs).symm

theorem encode_eq_nil {s : Text} : set.encode s = [] ↔ s = [] := by
  constructor
  · exact fun h => set.encode_injective (h.trans set.encode_nil.symm)
  · rintro rfl
    exact set.encode_nil

/-- An encoded segment is one segment. -/
theorem slash_encode (s : Text) : '/' ∉ set.encode s := by
  have hhex : ∀ n < 16, upperHex n ≠ '/' := by decide
  intro h
  obtain ⟨c, -, hc⟩ := List.mem_flatMap.1 h
  unfold encodeChar at hc
  split at hc
  · obtain ⟨b, -, hb⟩ := List.mem_flatMap.1 hc
    have hlt := b.toNat_lt
    simp only [escapeByte, List.mem_cons, List.not_mem_nil, or_false] at hb
    rcases hb with hb | hb | hb
    · exact absurd hb (by decide)
    · exact hhex _ (by omega) hb.symm
    · exact hhex _ (Nat.mod_lt _ (by decide)) hb.symm
  · rename_i hplain
    rw [List.mem_singleton] at hc
    subst hc
    exact set.not_reserved (by simpa using hplain) (by decide)

/-- A text is a dot segment encoded iff it is one as it is. -/
theorem encode_dots {s : Text} : DotSegment (set.encode s) ↔ DotSegment s := by
  have hdots : ∀ t : Text, DotSegment t → set.encode t = t := by
    rintro t (rfl | rfl)
    · exact set.encode_word (by decide)
    · exact set.encode_word (by decide)
  constructor
  · intro h
    have heq := hdots _ h
    rwa [set.encode_injective heq] at h
  · intro h
    rwa [hdots s h]

end EscapeSet
end GitLfsDelta
