import GitLfsDelta.L2Storage.Provider
import GitLfsDelta.L3Server.Pointers

/-!
# Texts of digests (`git-lfs-delta-core/src/digest.rs`)

`ChunkId` and `ObjectOid` come from one macro: 32 bytes, written as 64 lower-case hexadecimal
digits and parsed from digits of either case.

* `digest_text`: what the parser accepts, that the text of what it read is the lower-case text,
  and that it reads every digest back.
-/
namespace GitLfsDelta

/-- `ChunkId::from_str`, of the same macro as `ObjectOid::from_str`.
mirrors crates/git-lfs-delta-core/src/digest.rs:40-51 -/
def parseChunkId (t : Text) : Option ChunkId := (parseOid t).map fun oid => ⟨oid.digest⟩

/-- `ObjectOid::fmt`.
mirrors crates/git-lfs-delta-core/src/digest.rs:34-38 -/
def ObjectOid.toText (oid : ObjectOid) : Text := (hexEncode oid.digest).toList

def ChunkId.toText (c : ChunkId) : Text := (hexEncode c.digest).toList

/-! ## Digits -/

theorem hexDigits_succ (width n : Nat) :
    hexDigits (width + 1) n = hexDigits width (n / 16) ++ [hexDigit (n % 16)] := by
  unfold hexDigits
  rw [List.range_succ, List.map_append]
  congr 1
  · apply List.map_congr_left
    intro i hi
    have hlt := List.mem_range.1 hi
    rw [show width + 1 - 1 - i = (width - 1 - i) + 1 by omega, Nat.pow_succ', ← Nat.div_div_eq_div_mul]
  · simp

theorem hexDigit_hexDigit : ∀ n < 16, HexDigit (hexDigit n) := by
  unfold HexDigit
  decide

theorem hexValue_hexDigit : ∀ n < 16, hexValue (hexDigit n) = some n := by decide

theorem hexValue_some {c : Char} {n : Nat} (h : hexValue c = some n) :
    n < 16 ∧ hexDigit n = c.toLower := by
  have hall : ∀ k < 128, ∀ n ∈ hexValue (Char.ofNat k), n < 16 ∧ hexDigit n = (Char.ofNat k).toLower := by
    decide +kernel
  have hhex : HexDigit c := hexValue_isSome.1 (by rw [h]; rfl)
  have hsize := hhex.oneByte
  rw [String.length_utf8EncodeChar, Char.utf8Size_eq_one_iff] at hsize
  have hlt : c.toNat < 128 := Nat.lt_succ_of_le (UInt32.le_iff_toNat_le.1 hsize)
  have := hall c.toNat hlt n
  rw [Char.ofNat_toNat] at this
  exact this h

theorem hexDigit_mem_hexDigits {width n : Nat} : ∀ c ∈ hexDigits width n, HexDigit c := by
  intro c hc
  obtain ⟨i, -, rfl⟩ := List.mem_map.1 hc
  exact hexDigit_hexDigit _ (Nat.mod_lt _ (by decide))

/-- The number that digits are the digits of. -/
def ofHexDigits (digits : List Nat) : Nat := digits.foldl (fun n d => 16 * n + d) 0

theorem ofHexDigits_concat (digits : List Nat) (d : Nat) :
    ofHexDigits (digits ++ [d]) = 16 * ofHexDigits digits + d := by
  simp [ofHexDigits]

/-- Digits that were written are read back. -/
theorem mapM_hexDigits (width n : Nat) :
    ((hexDigits width n).mapM hexValue).map ofHexDigits = some (n % 16 ^ width) := by
  induction width generalizing n with
  | zero =>
    rw [Nat.pow_zero, Nat.mod_one]
    rfl
  | succ width ih =>
    have hrest := ih (n / 16)
    obtain ⟨digits, hdigits, hvalue⟩ := Option.map_eq_some_iff.1 hrest
    rw [hexDigits_succ, List.mapM_append, hdigits]
    simp only [List.mapM_cons, hexValue_hexDigit _ (Nat.mod_lt n (by decide : 0 < 16))]
    change some (ofHexDigits (digits ++ [n % 16])) = _
    rw [ofHexDigits_concat, hvalue, Nat.pow_succ', Nat.mod_mul]
    congr 1
    omega

/-- Digits that were read are written in lower case. -/
theorem hexDigits_ofHexDigits {t : Text} {digits : List Nat} (h : t.mapM hexValue = some digits) :
    ofHexDigits digits < 16 ^ t.length ∧ hexDigits t.length (ofHexDigits digits) = t.map Char.toLower := by
  induction t using List.reverseRecOn generalizing digits with
  | nil =>
    cases h
    exact ⟨Nat.one_pos, rfl⟩
  | append_singleton t c ih =>
    rw [List.mapM_append] at h
    obtain ⟨init, hinit, h⟩ := Option.bind_eq_some_iff.1 h
    obtain ⟨last, hlast, h⟩ := Option.bind_eq_some_iff.1 h
    cases h
    obtain ⟨d, hd, rfl⟩ : ∃ d, hexValue c = some d ∧ last = [d] := by
      rw [List.mapM_cons] at hlast
      obtain ⟨d, hd, hlast⟩ := Option.bind_eq_some_iff.1 hlast
      cases hlast
      exact ⟨d, hd, rfl⟩
    obtain ⟨hlt, hdigit⟩ := hexValue_some hd
    obtain ⟨hbound, htext⟩ := ih hinit
    rw [ofHexDigits_concat, List.length_append, List.length_singleton, hexDigits_succ, List.map_append,
      show (16 * ofHexDigits init + d) / 16 = ofHexDigits init by omega,
      show (16 * ofHexDigits init + d) % 16 = d by omega, htext, hdigit]
    refine ⟨?_, rfl⟩
    rw [Nat.pow_succ]
    omega

/-! ## Digests -/

variable {t : Text}

theorem ObjectOid.toText_eq (oid : ObjectOid) : oid.toText = hexDigits 64 oid.digest.toNat := by
  rw [ObjectOid.toText, hexEncode_eq, String.toList_ofList]

theorem parseOid_some {oid : ObjectOid} : parseOid t = some oid ↔
    (encode t).length = 64 ∧
      ∃ digits, t.mapM hexValue = some digits ∧ oid = ⟨BitVec.ofNat 256 (ofHexDigits digits)⟩ := by
  unfold parseOid
  split
  · rename_i h
    simp [h]
  · rename_i h
    rw [Option.map_eq_some_iff]
    simp only [not_not.1 h, true_and, eq_comm (a := oid)]
    rfl

theorem parseOid_toText (oid : ObjectOid) : parseOid oid.toText = some oid := by
  rw [parseOid_some, ObjectOid.toText_eq]
  have hlength : (encode (hexDigits 64 oid.digest.toNat)).length = 64 := by
    rw [encode_hex_length hexDigit_mem_hexDigits, length_hexDigits]
  obtain ⟨digits, hdigits, hvalue⟩ := Option.map_eq_some_iff.1 (mapM_hexDigits 64 oid.digest.toNat)
  refine ⟨hlength, digits, hdigits, ?_⟩
  have hlt : oid.digest.toNat < 16 ^ 64 := by simpa using oid.digest.isLt
  rw [hvalue, Nat.mod_eq_of_lt hlt, BitVec.ofNat_toNat, BitVec.setWidth_eq]

theorem toText_parseOid {oid : ObjectOid} (h : parseOid t = some oid) :
    oid.toText = t.map Char.toLower := by
  have hlength := (parseOid_isSome.1 (by rw [h]; rfl)).1
  obtain ⟨-, digits, hdigits, rfl⟩ := parseOid_some.1 h
  obtain ⟨hlt, htext⟩ := hexDigits_ofHexDigits hdigits
  rw [hlength] at hlt htext
  have hmod : (BitVec.ofNat 256 (ofHexDigits digits)).toNat = ofHexDigits digits := by
    rw [BitVec.toNat_ofNat]
    exact Nat.mod_eq_of_lt (by simpa using hlt)
  rw [ObjectOid.toText_eq, hmod, htext]

/-- What a parser and a printer of digests are to each other. -/
structure DigestText {α : Type} (parse : Text → Option α) (text : α → Text) : Prop where
  accepts : ∀ t, (parse t).isSome = true ↔ t.length = 64 ∧ ∀ c ∈ t, HexDigit c
  lower : ∀ t d, parse t = some d → text d = t.map Char.toLower
  back : ∀ d, parse (text d) = some d

/-- **Digests and their texts.** -/
theorem digest_text : DigestText parseOid ObjectOid.toText ∧ DigestText parseChunkId ChunkId.toText := by
  refine ⟨⟨fun t => parseOid_isSome, fun t d h => toText_parseOid h, parseOid_toText⟩, ?_, ?_, ?_⟩
  · intro t
    rw [parseChunkId, Option.isSome_map]
    exact parseOid_isSome
  · intro t d h
    obtain ⟨oid, hoid, rfl⟩ := Option.map_eq_some_iff.1 h
    exact toText_parseOid hoid
  · intro d
    rw [parseChunkId, show d.toText = (⟨d.digest⟩ : ObjectOid).toText from rfl, parseOid_toText]
    rfl

end GitLfsDelta
