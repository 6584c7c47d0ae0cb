import Mathlib.Data.Set.Function
import Mathlib.Algebra.GroupWithZero.Nat
import Mathlib.Algebra.Order.BigOperators.Group.List

/-!
# Digests and object manifests (`git-lfs-delta-core`)

`ObjectManifest` is the ordered recipe of an object: for every chunk its BLAKE3
identity, its offset and its length. `ObjectManifest::validate` is the only
structural check a manifest passes before it is trusted; `validate_ok` is what a
caller learns from it.

The two hash functions are parameters (`Hashes`): `blake3::hash` and `Sha256` are
library code. Where a result rests on BLAKE3 having no collision it says so on the
byte strings at hand (`Hashes.CollisionFree`), since no function into 256 bits is
injective on all of them.
-/
namespace GitLfsDelta

abbrev Bytes := List UInt8

abbrev Uuid := BitVec 128

/-- A BLAKE3 identity (`[u8; 32]`, read as one big-endian number).
mirrors crates/git-lfs-delta-core/src/digest.rs:8-28 -/
structure ChunkId where
  digest : BitVec 256
  deriving DecidableEq, Repr

/-- The SHA-256 identity of a Git LFS pointer (`[u8; 32]`).
mirrors crates/git-lfs-delta-core/src/digest.rs:8-28 -/
structure ObjectOid where
  digest : BitVec 256
  deriving DecidableEq, Repr

/-- `hex::encode`: 64 lower-case digits. -/
def hexEncode (d : BitVec 256) : String :=
  String.ofList <| (List.range 64).map fun i =>
    let n := d.toNat / 16 ^ (63 - i) % 16
    if n < 10 then Char.ofNat (48 + n) else Char.ofNat (87 + n)

/-- The library hash functions the program calls. -/
structure Hashes where
  blake3 : Bytes → ChunkId
  sha256 : Bytes → ObjectOid

/-- No two byte strings of `B` share a BLAKE3 identity. -/
def Hashes.CollisionFree (H : Hashes) (B : Set Bytes) : Prop := Set.InjOn H.blake3 B

/-! ## Manifests -/

/-- mirrors crates/git-lfs-delta-core/src/manifest.rs:12-17 -/
inductive ManifestVersion
  | v1
  deriving DecidableEq, Repr

/-- mirrors crates/git-lfs-delta-core/src/profile.rs:4-9 -/
inductive ChunkingProfile
  | fastCdcV1
  deriving DecidableEq, Repr

/-- Minimum, target and maximum chunk size.
mirrors crates/git-lfs-delta-core/src/profile.rs:18-24 -/
def ChunkingProfile.sizes : ChunkingProfile → Nat × Nat × Nat
  | .fastCdcV1 => (512 * 1024, 2 * 1024 * 1024, 8 * 1024 * 1024)

/-- mirrors crates/git-lfs-delta-core/src/manifest.rs:21-28 -/
structure ChunkDescriptor where
  id : ChunkId
  offset : UInt64
  length : UInt32
  deriving DecidableEq, Repr

/-- mirrors crates/git-lfs-delta-core/src/manifest.rs:32-43 -/
structure ObjectManifest where
  version : ManifestVersion
  profile : ChunkingProfile
  objectOid : ObjectOid
  objectSize : UInt64
  chunks : List ChunkDescriptor
  deriving DecidableEq, Repr

def maxObjectSize : Nat := 100 * 1024 * 1024 * 1024

def maxChunkDescriptors : Nat := 204800

/-- mirrors crates/git-lfs-delta-core/src/manifest.rs:111-175 -/
inductive ManifestError
  | objectTooLarge (actual : UInt64) (maximum : Nat)
  | tooManyChunks (actual maximum : Nat)
  | emptyChunk (index : Nat)
  | chunkTooSmall (index : Nat) (actual : UInt32) (minimum : Nat)
  | chunkTooLarge (index : Nat) (actual : UInt32) (maximum : Nat)
  | unexpectedOffset (index : Nat) (expected actual : UInt64)
  | sizeOverflow
  | sizeMismatch (declared described : UInt64)
  deriving DecidableEq, Repr

/-- The `Display` texts of `ManifestError`. -/
def ManifestError.text : ManifestError → String
  | .objectTooLarge actual maximum => s!"object size {actual} exceeds the maximum {maximum}"
  | .tooManyChunks actual maximum =>
    s!"manifest has {actual} chunks, exceeding the maximum {maximum}"
  | .emptyChunk index => s!"chunk {index} has zero length"
  | .chunkTooSmall index actual minimum =>
    s!"chunk {index} has length {actual}, below the minimum {minimum}"
  | .chunkTooLarge index actual maximum =>
    s!"chunk {index} has length {actual}, above the maximum {maximum}"
  | .unexpectedOffset index expected actual =>
    s!"chunk {index} starts at {actual}, expected {expected}"
  | .sizeOverflow => "manifest chunk lengths overflow the object-size representation"
  | .sizeMismatch declared described =>
    s!"manifest describes {described} bytes but declares {declared}"

/-- `u64::checked_add`. -/
def checkedAdd (a b : UInt64) : Option UInt64 :=
  if a.toNat + b.toNat < 2 ^ 64 then some (a + b) else none

/-- The loop of `validate`: `index` is the current descriptor's position and
`expected` the running `expected_offset`. `index + 1 < self.chunks.len()` is "more
descriptors follow".
mirrors crates/git-lfs-delta-core/src/manifest.rs:70-98 -/
def validateChunks (minimum maximum : Nat) :
    Nat → UInt64 → List ChunkDescriptor → Except ManifestError UInt64
  | _, expected, [] => .ok expected
  | index, expected, chunk :: rest =>
    if chunk.length = 0 then .error (.emptyChunk index)
    else if chunk.offset ≠ expected then .error (.unexpectedOffset index expected chunk.offset)
    else if maximum < chunk.length.toNat then .error (.chunkTooLarge index chunk.length maximum)
    else if rest ≠ [] ∧ chunk.length.toNat < minimum then
      .error (.chunkTooSmall index chunk.length minimum)
    else match checkedAdd expected chunk.length.toUInt64 with
      | none => .error .sizeOverflow
      | some next => validateChunks minimum maximum (index + 1) next rest

/-- `ObjectManifest::validate`.
mirrors crates/git-lfs-delta-core/src/manifest.rs:55-106 -/
def ObjectManifest.validate (m : ObjectManifest) : Except ManifestError Unit :=
  if maxObjectSize < m.objectSize.toNat then .error (.objectTooLarge m.objectSize maxObjectSize)
  else if maxChunkDescriptors < m.chunks.length then
    .error (.tooManyChunks m.chunks.length maxChunkDescriptors)
  else
    match validateChunks m.profile.sizes.1 m.profile.sizes.2.2 0 0 m.chunks with
    | .error e => .error e
    | .ok described =>
      if described ≠ m.objectSize then .error (.sizeMismatch m.objectSize described) else .ok ()

/-- The bytes a descriptor list covers. -/
def coverage (ds : List ChunkDescriptor) : Nat := (ds.map fun d => d.length.toNat).sum

@[simp] theorem coverage_nil : coverage [] = 0 := rfl

@[simp] theorem coverage_cons (d : ChunkDescriptor) (ds : List ChunkDescriptor) :
    coverage (d :: ds) = d.length.toNat + coverage ds := by simp [coverage]

@[simp] theorem coverage_append (a b : List ChunkDescriptor) :
    coverage (a ++ b) = coverage a + coverage b := by simp [coverage]

theorem checkedAdd_some {a b c : UInt64} (h : checkedAdd a b = some c) :
    c.toNat = a.toNat + b.toNat := by
  unfold checkedAdd at h
  split at h
  · rename_i hlt
    cases h
    rw [UInt64.toNat_add]; exact Nat.mod_eq_of_lt hlt
  · cases h

/-- What the loop of `validate` establishes about the descriptors it accepts. -/
theorem validateChunks_ok {minimum maximum : Nat} : ∀ {ds : List ChunkDescriptor} {index : Nat}
    {expected described : UInt64},
    validateChunks minimum maximum index expected ds = .ok described →
    described.toNat = expected.toNat + coverage ds ∧
      ∀ d ∈ ds, 0 < d.length.toNat ∧ d.length.toNat ≤ maximum ∧
        d.offset.toNat ≤ described.toNat
  | [], _, _, _, h => by cases h; simp
  | d :: ds, index, expected, described, h => by
    unfold validateChunks at h
    split at h; · cases h
    rename_i h0
    split at h; · cases h
    rename_i hoffset
    split at h; · cases h
    rename_i hmax
    split at h; · cases h
    split at h; · cases h
    rename_i next hnext
    obtain ⟨hsum, hall⟩ := validateChunks_ok h
    have hn := checkedAdd_some hnext
    have hpos : 0 < d.length.toNat := by
      rcases Nat.eq_zero_or_pos d.length.toNat with e | e
      · exact absurd (UInt32.toNat_inj.1 (by simpa using e)) h0
      · exact e
    refine ⟨?_, fun x hx => ?_⟩
    · rw [hsum, hn, coverage_cons, UInt32.toNat_toUInt64]; omega
    · rcases List.mem_cons.1 hx with rfl | hx
      · refine ⟨hpos, by omega, ?_⟩
        rw [show x.offset = expected by simpa using hoffset]
        rw [UInt32.toNat_toUInt64] at hn
        omega
      · exact hall x hx

/-- **What `validate` promises.** The lengths are positive and within the profile's
maximum, they add up to `object_size`, no chunk starts beyond it, and both resource limits
hold. -/
theorem validate_ok {m : ObjectManifest} (h : m.validate = .ok ()) :
    coverage m.chunks = m.objectSize.toNat ∧ m.objectSize.toNat ≤ maxObjectSize ∧
      m.chunks.length ≤ maxChunkDescriptors ∧
      ∀ d ∈ m.chunks, 0 < d.length.toNat ∧ d.length.toNat ≤ m.profile.sizes.2.2 ∧
        d.offset.toNat ≤ m.objectSize.toNat := by
  unfold ObjectManifest.validate at h
  split at h; · cases h
  rename_i hsize
  split at h; · cases h
  rename_i hcount
  split at h; · cases h
  rename_i described hd
  split at h
  · cases h
  · rename_i heq
    obtain ⟨hsum, hall⟩ := validateChunks_ok hd
    have : described = m.objectSize := by simpa using heq
    subst this
    exact ⟨by simpa using hsum.symm, by omega, by omega, hall⟩

end GitLfsDelta
