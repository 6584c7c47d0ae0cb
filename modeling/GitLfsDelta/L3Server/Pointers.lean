import GitLfsDelta.L3Server.Reconcile

/-!
# Reading the listed blobs

`parse_pointer_candidates` on whatever `git show` prints. A blob that does not begin with the
version line is passed over, one that does and is not a pointer stops the scan, and so does
a blob that is not UTF-8.

* `parseOid_isSome`: an OID is 64 hexadecimal digits of either case.
* `parsePointer_none`, `parsePointer_some`: what is passed over, and what is taken.
* `collectShown_ok_iff`: the loop ends well exactly if every blob is readable.
* `collectShown_increasing`, `mem_collectShown`: its result, in order and without repetition.
-/
namespace GitLfsDelta

/-! ## Digests -/

/-- A hexadecimal digit of either case. -/
def HexDigit (c : Char) : Prop := ('0' ≤ c ∧ c ≤ '9') ∨ ('a' ≤ c ∧ c ≤ 'f') ∨ ('A' ≤ c ∧ c ≤ 'F')

theorem hexValue_isSome {c : Char} : (hexValue c).isSome = true ↔ HexDigit c := by
  unfold hexValue HexDigit
  split
  · rename_i h
    simp [h]
  split
  · rename_i h
    simp [h]
  split
  · rename_i h
    simp [h]
  · rename_i h0 ha hA
    simp [h0, ha, hA]

theorem HexDigit.oneByte {c : Char} (h : HexDigit c) : (String.utf8EncodeChar c).length = 1 := by
  have hle : c.toNat ≤ 0x7f := by
    have bound : ∀ d : Char, c ≤ d → c.toNat ≤ d.toNat := fun d hd => UInt32.le_iff_toNat_le.1 hd
    rcases h with h | h | h
    · exact (bound _ h.2).trans (by decide)
    · exact (bound _ h.2).trans (by decide)
    · exact (bound _ h.2).trans (by decide)
  rw [String.length_utf8EncodeChar]
  exact Char.utf8Size_eq_one_iff.2 (UInt32.le_iff_toNat_le.2 hle)

theorem mapM_hexValue_isSome {t : Text} : (t.mapM hexValue).isSome = true ↔ ∀ c ∈ t, HexDigit c := by
  induction t with
  | nil => simp
  | cons c t ih =>
    rw [List.forall_mem_cons, ← ih, ← hexValue_isSome, List.mapM_cons]
    cases hexValue c with
    | none => simp
    | some d => cases t.mapM hexValue <;> simp

theorem encode_hex_length {t : Text} (h : ∀ c ∈ t, HexDigit c) : (encode t).length = t.length := by
  induction t with
  | nil => rfl
  | cons c t ih =>
    rw [List.forall_mem_cons] at h
    have hrest := ih h.2
    unfold encode at hrest ⊢
    rw [List.flatMap_cons, List.length_append, h.1.oneByte, hrest, List.length_cons]
    omega

/-- An OID is written as 64 hexadecimal digits of either case. -/
theorem parseOid_isSome {t : Text} :
    (parseOid t).isSome = true ↔ t.length = 64 ∧ ∀ c ∈ t, HexDigit c := by
  unfold parseOid
  constructor
  · intro h
    split at h
    · cases h
    rename_i hlength
    rw [Option.isSome_map] at h
    have hhex := mapM_hexValue_isSome.1 h
    rw [ne_eq, not_not, encode_hex_length hhex] at hlength
    exact ⟨hlength, hhex⟩
  · intro h
    rw [if_neg (by rw [ne_eq, not_not, encode_hex_length h.2]; exact h.1), Option.isSome_map]
    exact mapM_hexValue_isSome.2 h.2

/-! ## One blob -/

/-- The first line is the version line of Git LFS v1. -/
def Announces (t : Text) : Prop := (lines t).head? = some versionLine

/-- Three lines: the version, an OID of 64 hexadecimal digits, and a size. -/
def PointerText (t : Text) : Prop :=
  ∃ digest size, lines t = [versionLine, "oid sha256:".toList ++ digest, "size ".toList ++ size] ∧
    digest.length = 64 ∧ ∀ c ∈ digest, HexDigit c

theorem pointerText_iff {t : Text} : PointerText t ↔ ∃ oid, IsPointer (.utf8 t) oid := by
  constructor
  · intro h
    obtain ⟨digest, size, hlines, hdigest⟩ := h
    obtain ⟨oid, hoid⟩ := Option.isSome_iff_exists.1 (parseOid_isSome.2 hdigest)
    exact ⟨oid, t, digest, size, rfl, hlines, hoid⟩
  · intro h
    obtain ⟨oid, t', digest, size, ht, hlines, hoid⟩ := h
    cases ht
    exact ⟨digest, size, hlines, parseOid_isSome.1 (by rw [hoid]; rfl)⟩

theorem IsPointer.announces {t : Text} {oid : ObjectOid} (h : IsPointer (.utf8 t) oid) :
    Announces t := by
  obtain ⟨t', digest, size, ht, hlines, -⟩ := h
  cases ht
  rw [Announces, hlines]
  rfl

/-- A blob passed over is one that does not begin with the version line. -/
theorem parsePointer_none {specification t : Text} :
    parsePointer specification t = .ok none ↔ ¬ Announces t := by
  unfold parsePointer Announces
  constructor
  · intro h
    split at h
    · rename_i hlines
      simp [hlines]
    rename_i first rest hlines
    split at h
    · rename_i hfirst
      simpa [hlines] using hfirst
    split at h
    · split at h; · cases h
      split at h; · cases h
      split at h <;> cases h
    · cases h
  · intro h
    split
    · rfl
    rename_i first rest hlines
    rw [if_pos]
    simpa [hlines] using h

/-- A blob the scan can go on from: no pointer, or a whole one. -/
def Readable (blob : Content) : Prop := ∃ t, blob = .utf8 t ∧ (¬ Announces t ∨ PointerText t)

theorem readable_utf8 {specification t : Text} :
    Readable (.utf8 t) ↔ ∃ taken, parsePointer specification t = .ok taken := by
  constructor
  · intro h
    obtain ⟨t', ht, h⟩ := h
    cases ht
    rcases h with h | h
    · exact ⟨none, parsePointer_none.2 h⟩
    · obtain ⟨oid, hoid⟩ := pointerText_iff.1 h
      exact ⟨some oid, parsePointer_some.2 hoid⟩
  · intro h
    obtain ⟨taken, htaken⟩ := h
    refine ⟨t, rfl, ?_⟩
    cases taken with
    | none => exact .inl (parsePointer_none.1 htaken)
    | some oid => exact .inr (pointerText_iff.2 ⟨oid, parsePointer_some.1 htaken⟩)

theorem not_readable_invalid {bytes : Bytes} : ¬ Readable (.invalid bytes) := by
  intro h
  obtain ⟨t, ht, -⟩ := h
  cases ht

/-! ## The set of OIDs -/

/-- The order of a `BTreeSet<ObjectOid>`, without repetition. -/
def Increasing (oids : List ObjectOid) : Prop := oids.Pairwise (·.digest < ·.digest)

theorem insertOid_increasing {oid : ObjectOid} {oids : List ObjectOid} (h : Increasing oids) :
    Increasing (insertOid oid oids) := by
  unfold Increasing at *
  induction oids with
  | nil => simp [insertOid]
  | cons x xs ih =>
    obtain ⟨hx, hxs⟩ := List.pairwise_cons.1 h
    unfold insertOid
    split
    · rename_i hlt
      refine List.pairwise_cons.2 ⟨fun y hy => ?_, h⟩
      rcases List.mem_cons.1 hy with rfl | hy
      · exact hlt
      · exact BitVec.lt_trans hlt (hx y hy)
    split
    · exact h
    · rename_i hnlt hne
      refine List.pairwise_cons.2 ⟨fun y hy => ?_, ih hxs⟩
      rcases mem_insertOid.1 hy with rfl | hy
      · -- neither smaller nor equal
        have hdigest : y.digest ≠ x.digest := by
          intro heq
          exact hne (by cases y; cases x; simp_all)
        rw [BitVec.lt_def] at hnlt ⊢
        have := BitVec.toNat_ne.1 hdigest
        omega
      · exact hx y hy

theorem Increasing.nodup {oids : List ObjectOid} (h : Increasing oids) : oids.Nodup := by
  refine List.Pairwise.imp (fun hlt heq => ?_) h
  rw [heq] at hlt
  exact BitVec.lt_irrefl _ hlt

/-! ## The loop -/

variable {shown : Text → Option Content} {mirror : Text}

/-- One round of the loop: it stops at a blob that is not there or not readable, and goes on
with the OID of a pointer. -/
theorem collectShown_cons (specification : Text) (rest : List Text) (objects : List ObjectOid) :
    ((¬ ∃ blob, shown specification = some blob ∧ Readable blob) ∧
      ∃ e, collectShown shown mirror (specification :: rest) objects = .error e) ∨
    ∃ t, shown specification = some (.utf8 t) ∧ Readable (.utf8 t) ∧
      ((¬ Announces t ∧ collectShown shown mirror (specification :: rest) objects =
        collectShown shown mirror rest objects) ∨
      ∃ oid, IsPointer (.utf8 t) oid ∧ collectShown shown mirror (specification :: rest) objects =
        collectShown shown mirror rest (insertOid oid objects)) := by
  cases hshow : shown specification with
  | none => exact .inl ⟨by simp, _, by rw [collectShown, hshow]⟩
  | some blob =>
    cases blob with
    | invalid bytes =>
      refine .inl ⟨?_, .utf8, by rw [collectShown, hshow]⟩
      rintro ⟨blob, hblob, hread⟩
      cases hblob
      exact not_readable_invalid hread
    | utf8 t =>
      cases hparse : parsePointer specification t with
      | error e =>
        refine .inl ⟨?_, e, by simp only [collectShown, hshow, hparse]⟩
        rintro ⟨blob, hblob, hread⟩
        cases hblob
        obtain ⟨taken, htaken⟩ := readable_utf8.1 hread
        rw [hparse] at htaken
        cases htaken
      | ok taken =>
        refine .inr ⟨t, rfl, readable_utf8.2 ⟨taken, hparse⟩, ?_⟩
        cases taken with
        | none =>
          exact .inl ⟨parsePointer_none.1 hparse, by simp only [collectShown, hshow, hparse]⟩
        | some oid =>
          exact .inr ⟨oid, parsePointer_some.1 hparse, by simp only [collectShown, hshow, hparse]⟩

theorem collectShown_ok_iff {specs : List Text} : ∀ {objects : List ObjectOid},
    (∃ v, collectShown shown mirror specs objects = .ok v) ↔
      ∀ s ∈ specs, ∃ blob, shown s = some blob ∧ Readable blob := by
  induction specs with
  | nil =>
    intro objects
    exact iff_of_true ⟨objects, rfl⟩ (List.forall_mem_nil _)
  | cons s specs ih =>
    intro objects
    rw [List.forall_mem_cons]
    rcases collectShown_cons s specs objects with ⟨hbad, e, he⟩ | ⟨t, hshow, hread, hrest⟩
    · constructor
      · rintro ⟨v, hv⟩
        rw [he] at hv
        cases hv
      · intro h
        exact absurd h.1 hbad
    · have hhere : ∃ blob, shown s = some blob ∧ Readable blob := ⟨_, hshow, hread⟩
      rcases hrest with ⟨-, hrest⟩ | ⟨oid, -, hrest⟩
      · rw [hrest, ih]
        exact ⟨fun h => ⟨hhere, h⟩, fun h => h.2⟩
      · rw [hrest, ih]
        exact ⟨fun h => ⟨hhere, h⟩, fun h => h.2⟩

theorem collectShown_increasing {specs : List Text} : ∀ {objects v : List ObjectOid},
    collectShown shown mirror specs objects = .ok v → Increasing objects → Increasing v := by
  induction specs with
  | nil => intro objects v h hi; cases h; exact hi
  | cons s specs ih =>
    intro objects v h hi
    rcases collectShown_cons s specs objects with ⟨-, e, he⟩ | ⟨t, -, -, ⟨-, hrest⟩ | ⟨oid, -, hrest⟩⟩
    · rw [he] at h
      cases h
    · rw [hrest] at h
      exact ih h hi
    · rw [hrest] at h
      exact ih h (insertOid_increasing hi)

theorem mem_collectShown {specs : List Text} {oid : ObjectOid} {objects v : List ObjectOid}
    (h : collectShown shown mirror specs objects = .ok v) :
    oid ∈ v ↔ oid ∈ objects ∨ ∃ s ∈ specs, ∃ t, shown s = some (.utf8 t) ∧ IsPointer (.utf8 t) oid := by
  have htext : ∀ s, (∃ blob, shown s = some blob ∧ IsPointer blob oid) ↔
      ∃ t, shown s = some (.utf8 t) ∧ IsPointer (.utf8 t) oid := by
    intro s
    constructor
    · rintro ⟨_, hshow, hp⟩
      obtain ⟨t, -, -, rfl, -⟩ := id hp
      exact ⟨t, hshow, hp⟩
    · rintro ⟨t, hshow, hp⟩
      exact ⟨_, hshow, hp⟩
  simp only [mem_collected h, htext]

end GitLfsDelta
