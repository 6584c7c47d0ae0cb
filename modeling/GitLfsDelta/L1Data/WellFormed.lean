import GitLfsDelta.L1Data.Manifest

/-!
# What `ObjectManifest::validate` accepts

`WellFormed` says what a manifest has to be, one condition a field, with the offsets as sums of
lengths and no running counter. `ChunkRule` is the part of it that is about one descriptor.

* `validateChunks_spec`: the loop stops at the first descriptor that breaks a rule, or returns
  the sum of all lengths. Within the descriptor limit that sum cannot overflow.
* `validate_exact`: `validate` accepts exactly the well-formed manifests, names the least
  offending index, and every number of an accepted manifest fits the columns it is stored in.
-/
namespace GitLfsDelta

/-- Descriptor number `i`, if there is one, is in order. -/
def ChunkRule (minimum maximum : Nat) (chunks : List ChunkDescriptor) (i : Nat) : Prop :=
  ∀ d, chunks[i]? = some d →
    1 ≤ d.length.toNat ∧ d.offset.toNat = coverage (chunks.take i) ∧ d.length.toNat ≤ maximum ∧
      (i + 1 < chunks.length → minimum ≤ d.length.toNat)

def ObjectManifest.ChunkRule (m : ObjectManifest) (i : Nat) : Prop :=
  GitLfsDelta.ChunkRule m.profile.sizes.1 m.profile.sizes.2.2 m.chunks i

structure ObjectManifest.WellFormed (m : ObjectManifest) : Prop where
  size : m.objectSize.toNat ≤ maxObjectSize
  count : m.chunks.length ≤ maxChunkDescriptors
  /-- Every chunk starts where the chunks before it end. -/
  offset : ∀ i d, m.chunks[i]? = some d → d.offset.toNat = coverage (m.chunks.take i)
  length : ∀ d ∈ m.chunks, 1 ≤ d.length.toNat ∧ d.length.toNat ≤ m.profile.sizes.2.2
  /-- Only the last chunk may be shorter than the minimum. -/
  minimum : ∀ i d, m.chunks[i]? = some d → i + 1 < m.chunks.length →
    m.profile.sizes.1 ≤ d.length.toNat
  total : coverage m.chunks = m.objectSize.toNat

/-- The descriptor a `ManifestError` is about. -/
def ManifestError.index? : ManifestError → Option Nat
  | .emptyChunk i | .chunkTooSmall i _ _ | .chunkTooLarge i _ _ | .unexpectedOffset i _ _ => some i
  | .objectTooLarge .. | .tooManyChunks .. | .sizeOverflow | .sizeMismatch .. => none

/-- Every narrowing conversion of `begin_cdc` and `publish_manifest` succeeds: sizes and offsets
to `i64`, ordinals and lengths to `i32`, plan indexes to `u32`.
mirrors crates/git-lfs-delta-server/src/lib.rs:990-992, 1020-1025, 1774, 1786-1798 -/
structure ObjectManifest.Narrows (m : ObjectManifest) : Prop where
  size : m.objectSize.toNat < 2 ^ 63
  offset : ∀ d ∈ m.chunks, d.offset.toNat < 2 ^ 63
  length : ∀ d ∈ m.chunks, d.length.toNat < 2 ^ 31
  ordinal : ∀ i < m.chunks.length, i < 2 ^ 31
  index : ∀ i < m.chunks.length, i < 2 ^ 32

/-! ## The loop -/

/-- A rule about a descriptor in the middle of the list. -/
theorem chunkRule_middle (minimum maximum : Nat) (pre ds : List ChunkDescriptor)
    (d : ChunkDescriptor) : ChunkRule minimum maximum (pre ++ d :: ds) pre.length ↔
      1 ≤ d.length.toNat ∧ d.offset.toNat = coverage pre ∧ d.length.toNat ≤ maximum ∧
        (ds ≠ [] → minimum ≤ d.length.toNat) := by
  have hlen : pre.length + 1 < (pre ++ d :: ds).length ↔ ds ≠ [] := by
    rw [List.length_append, List.length_cons, ← List.length_pos_iff]
    omega
  simp only [ChunkRule, hlen, List.take_left]
  constructor
  · intro h
    exact h d (by simp)
  · intro h d' hd'
    obtain rfl : d = d' := by simpa using hd'
    exact h

/-- How the loop ends when it has read `pre` without complaint. -/
structure Stops (minimum maximum : Nat) (pre ds : List ChunkDescriptor) (e : ManifestError) (i : Nat) :
    Prop where
  index : e.index? = some i
  broken : ¬ ChunkRule minimum maximum (pre ++ ds) i
  least : ∀ j, pre.length ≤ j → j < i → ChunkRule minimum maximum (pre ++ ds) j

theorem Stops.here {minimum maximum : Nat} {pre ds : List ChunkDescriptor} {e : ManifestError}
    (hindex : e.index? = some pre.length)
    (hbroken : ¬ ChunkRule minimum maximum (pre ++ ds) pre.length) :
    Stops minimum maximum pre ds e pre.length where
  index := hindex
  broken := hbroken
  least j hle hlt := by omega

/-- **The loop of `validate`.** Started at `pre.length` with the sum of `pre`, it accepts `ds` if
every rule about it holds, and then returns the whole sum; otherwise it stops at the least
index whose rule is broken. The sum does not overflow as long as all descriptors together
cannot. -/
theorem validateChunks_spec (minimum maximum : Nat) : ∀ (ds pre : List ChunkDescriptor) (expected : UInt64),
    expected.toNat = coverage pre → coverage pre + maximum * ds.length < 2 ^ 64 →
    match validateChunks minimum maximum pre.length expected ds with
    | .ok described => described.toNat = coverage (pre ++ ds) ∧
        ∀ j, pre.length ≤ j → ChunkRule minimum maximum (pre ++ ds) j
    | .error e => ∃ i, Stops minimum maximum pre ds e i := by
  intro ds
  induction ds with
  | nil =>
    intro pre expected hsum _
    simp only [validateChunks, List.append_nil]
    refine ⟨hsum, fun j hj d hd => ?_⟩
    rw [List.getElem?_eq_none hj] at hd
    cases hd
  | cons d ds ih =>
    intro pre expected hsum hroom
    have hrule := chunkRule_middle minimum maximum pre ds d
    unfold validateChunks
    by_cases hempty : d.length = 0
    · rw [if_pos hempty]
      refine ⟨_, .here rfl fun h => ?_⟩
      have := (hrule.1 h).1
      simp [hempty] at this
    rw [if_neg hempty]
    by_cases hoffset : d.offset ≠ expected
    · rw [if_pos hoffset]
      refine ⟨_, .here rfl fun h => hoffset ?_⟩
      exact UInt64.toNat_inj.1 ((hrule.1 h).2.1.trans hsum.symm)
    rw [if_neg hoffset]
    by_cases hlarge : maximum < d.length.toNat
    · rw [if_pos hlarge]
      refine ⟨_, .here rfl fun h => ?_⟩
      have := (hrule.1 h).2.2.1
      omega
    rw [if_neg hlarge]
    by_cases hsmall : ds ≠ [] ∧ d.length.toNat < minimum
    · rw [if_pos hsmall]
      refine ⟨_, .here rfl fun h => ?_⟩
      have := (hrule.1 h).2.2.2 hsmall.1
      omega
    rw [if_neg hsmall]
    -- this descriptor is in order, and so is the sum
    have hhere : ChunkRule minimum maximum (pre ++ d :: ds) pre.length := by
      refine hrule.2 ⟨?_, ?_, by omega, fun hmore => ?_⟩
      · have : d.length.toNat ≠ 0 := fun h => hempty (UInt32.toNat_inj.1 (by simpa using h))
        omega
      · rw [not_not.1 hoffset, hsum]
      · by_contra h
        exact hsmall ⟨hmore, by omega⟩
    have hmul : maximum * (d :: ds).length = maximum * ds.length + maximum := by
      rw [List.length_cons, Nat.mul_succ]
    have hadd : ∃ next, checkedAdd expected d.length.toUInt64 = some next := by
      unfold checkedAdd
      rw [UInt32.toNat_toUInt64, if_pos (by omega)]
      exact ⟨_, rfl⟩
    obtain ⟨next, hnext⟩ := hadd
    have hsum' : next.toNat = coverage (pre ++ [d]) := by
      rw [checkedAdd_some hnext, UInt32.toNat_toUInt64, hsum, coverage_append]
      simp
    have hcover : coverage (pre ++ [d]) = coverage pre + d.length.toNat := by
      simp
    have hrest := ih (pre ++ [d]) next hsum' (by omega)
    rw [List.length_append, List.length_singleton, List.append_assoc, List.singleton_append] at hrest
    simp only [hnext]
    split at hrest
    · rename_i described hdescribed
      refine ⟨hrest.1, fun j hj => ?_⟩
      rcases Nat.eq_or_lt_of_le hj with rfl | hlt
      · exact hhere
      · exact hrest.2 j (by omega)
    · rename_i e he
      obtain ⟨i, hindex, hbroken, hleast⟩ := hrest
      rw [List.append_assoc, List.singleton_append] at hbroken
      refine ⟨i, hindex, hbroken, fun j hj hlt => ?_⟩
      rcases Nat.eq_or_lt_of_le hj with rfl | hgt
      · exact hhere
      · have := hleast j (by rw [List.length_append, List.length_singleton]; omega) hlt
        rwa [List.append_assoc, List.singleton_append] at this

/-! ## The whole check -/

variable {m : ObjectManifest}

theorem profile_maximum (profile : ChunkingProfile) : profile.sizes.2.2 = 8 * 1024 * 1024 := by
  cases profile; rfl

/-- Within the descriptor limit the loop starts with room for every sum. -/
theorem validateChunks_start (hcount : m.chunks.length ≤ maxChunkDescriptors) :
    match validateChunks m.profile.sizes.1 m.profile.sizes.2.2 0 0 m.chunks with
    | .ok described => described.toNat = coverage m.chunks ∧ ∀ j, m.ChunkRule j
    | .error e => ∃ i, Stops m.profile.sizes.1 m.profile.sizes.2.2 [] m.chunks e i := by
  have hroom : coverage [] + m.profile.sizes.2.2 * m.chunks.length < 2 ^ 64 := by
    rw [profile_maximum, coverage_nil]
    unfold maxChunkDescriptors at hcount
    omega
  have hspec := validateChunks_spec m.profile.sizes.1 _ m.chunks [] 0 rfl hroom
  rw [List.length_nil, List.nil_append] at hspec
  split at hspec
  · exact ⟨hspec.1, fun j => hspec.2 j (Nat.zero_le j)⟩
  · exact hspec

/-- The rules about single descriptors, taken apart. -/
theorem chunkRules_iff : (∀ j, m.ChunkRule j) ↔
    (∀ i d, m.chunks[i]? = some d → d.offset.toNat = coverage (m.chunks.take i)) ∧
    (∀ d ∈ m.chunks, 1 ≤ d.length.toNat ∧ d.length.toNat ≤ m.profile.sizes.2.2) ∧
    ∀ i d, m.chunks[i]? = some d → i + 1 < m.chunks.length → m.profile.sizes.1 ≤ d.length.toNat := by
  constructor
  · intro h
    refine ⟨fun i d hd => (h i d hd).2.1, fun d hd => ?_, fun i d hd => (h i d hd).2.2.2⟩
    obtain ⟨i, hi⟩ := List.mem_iff_getElem?.1 hd
    exact ⟨(h i d hi).1, (h i d hi).2.2.1⟩
  · intro h j d hd
    have hlen := h.2.1 d (List.mem_of_getElem? hd)
    exact ⟨hlen.1, h.1 j d hd, hlen.2, h.2.2 j d hd⟩

theorem wellFormed_iff : m.WellFormed ↔ m.objectSize.toNat ≤ maxObjectSize ∧
    m.chunks.length ≤ maxChunkDescriptors ∧ (∀ j, m.ChunkRule j) ∧
    coverage m.chunks = m.objectSize.toNat := by
  rw [chunkRules_iff]
  constructor
  · intro h
    exact ⟨h.size, h.count, ⟨h.offset, h.length, h.minimum⟩, h.total⟩
  · intro h
    obtain ⟨hsize, hcount, ⟨hoffset, hlength, hminimum⟩, htotal⟩ := h
    exact ⟨hsize, hcount, hoffset, hlength, hminimum, htotal⟩

/-- How `validate` ends. -/
theorem validate_cases (m : ObjectManifest) :
    (m.validate = .ok () ∧ m.WellFormed) ∨
    ∃ e, m.validate = .error e ∧ ¬ m.WellFormed ∧ e ≠ .sizeOverflow ∧
      ∀ i, e.index? = some i → ¬ m.ChunkRule i ∧ ∀ j < i, m.ChunkRule j := by
  rw [wellFormed_iff]
  unfold ObjectManifest.validate
  split
  · rename_i hsize
    exact .inr ⟨_, rfl, by omega, by simp, fun i hi => by cases hi⟩
  split
  · rename_i hsize hcount
    exact .inr ⟨_, rfl, by omega, by simp, fun i hi => by cases hi⟩
  rename_i hsize hcount
  have hloop := validateChunks_start (m := m) (by omega)
  split at hloop
  · rename_i described hd
    rw [hd]
    obtain ⟨hsum, hrules⟩ := hloop
    simp only
    split
    · rename_i hne
      refine .inr ⟨_, rfl, fun h => hne ?_, by simp, fun i hi => by cases hi⟩
      exact UInt64.toNat_inj.1 (hsum.trans h.2.2.2)
    · rename_i heq
      refine .inl ⟨rfl, by omega, by omega, hrules, ?_⟩
      rw [← hsum, not_not.1 heq]
  · rename_i e he
    rw [he]
    obtain ⟨i, hindex, hbroken, hleast⟩ := hloop
    refine .inr ⟨e, rfl, fun h => hbroken (h.2.2.1 i), ?_, ?_⟩
    · intro h
      rw [h] at hindex
      cases hindex
    · intro i' hi'
      obtain rfl : i = i' := Option.some.inj (hindex.symm.trans hi')
      exact ⟨hbroken, fun j hj => hleast j (Nat.zero_le j) hj⟩

theorem coverage_take_le (ds : List ChunkDescriptor) (i : Nat) : coverage (ds.take i) ≤ coverage ds := by
  conv => rhs; rw [← List.take_append_drop i ds]
  rw [coverage_append]
  omega

theorem ObjectManifest.WellFormed.narrows (h : m.WellFormed) : m.Narrows := by
  have hsize := h.size
  have hcount := h.count
  unfold maxObjectSize at hsize
  unfold maxChunkDescriptors at hcount
  refine ⟨by omega, fun d hd => ?_, fun d hd => ?_, fun i hi => by omega, fun i hi => by omega⟩
  · obtain ⟨i, hi⟩ := List.mem_iff_getElem?.1 hd
    have hle := coverage_take_le m.chunks i
    rw [h.offset i d hi]
    rw [h.total] at hle
    omega
  · have hle := (h.length d hd).2
    rw [profile_maximum] at hle
    omega

/-- **`validate` accepts exactly the well-formed manifests.** A per-chunk error names the least
index that breaks a rule, the overflow error never occurs, and an accepted manifest survives
every narrowing conversion behind it. -/
theorem validate_exact (m : ObjectManifest) :
    (m.validate = .ok () ↔ m.WellFormed) ∧
    (∀ e i, m.validate = .error e → e.index? = some i →
      i < m.chunks.length ∧ ¬ m.ChunkRule i ∧ ∀ j < i, m.ChunkRule j) ∧
    m.validate ≠ .error .sizeOverflow ∧
    (m.validate = .ok () → m.Narrows) := by
  rcases validate_cases m with ⟨hok, hwell⟩ | ⟨e, herr, hbad, hover, hindex⟩
  · rw [hok]
    refine ⟨by simp [hwell], fun e i h => ?_, by simp, fun _ => hwell.narrows⟩
    cases h
  · rw [herr]
    refine ⟨by simp [hbad], fun e' i he hi => ?_, by simpa using hover, fun h => by cases h⟩
    cases he
    obtain ⟨hbroken, hleast⟩ := hindex i hi
    refine ⟨?_, hbroken, hleast⟩
    by_contra hlen
    apply hbroken
    intro d hd
    rw [List.getElem?_eq_none (by omega)] at hd
    cases hd

end GitLfsDelta
