import GitLfsDelta.L1Data.Manifest

/-!
# The chunk store (`git-lfs-delta-storage`)

`ChunkStore` over an object-store provider. A provider state is what it holds under
each `(repository_id, chunk_id)`; `PutMode::Create` stores only under a free key and
answers `AlreadyExists` otherwise. The operations are total: a provider outage is a
process that stops at the call, which the server model has as a step of its own.

`StoreOk` (everything stored hashes to its key) is kept by the operations; it is what
lets a later read or an `AlreadyExists` answer stand for the bytes themselves.
-/
namespace GitLfsDelta

/-- What the provider holds. -/
abbrev Store := Uuid → ChunkId → Option Bytes

def Store.empty : Store := fun _ _ => none

/-- mirrors crates/git-lfs-delta-storage/src/lib.rs:144-159; `notFound` is
`Provider(object_store::Error::NotFound)`. -/
inductive StorageError
  | digestMismatch (expected actual : ChunkId)
  | notFound
  deriving DecidableEq, Repr

/-- mirrors crates/git-lfs-delta-storage/src/lib.rs:161-171 -/
def verifyDigest (H : Hashes) (expected : ChunkId) (bytes : Bytes) : Except StorageError Unit :=
  if H.blake3 bytes = expected then .ok () else .error (.digestMismatch expected (H.blake3 bytes))

/-- `PutMode::Create`: nothing changes under a key that is taken. -/
def Store.create (s : Store) (r : Uuid) (c : ChunkId) (bytes : Bytes) : Store :=
  fun r' c' => if r' = r ∧ c' = c ∧ (s r c).isNone then some bytes else s r' c'

def Store.erase (s : Store) (r : Uuid) (c : ChunkId) : Store :=
  fun r' c' => if r' = r ∧ c' = c then none else s r' c'

/-- mirrors crates/git-lfs-delta-storage/src/lib.rs:31-51 -/
def putVerified (H : Hashes) (s : Store) (r : Uuid) (claimed : ChunkId) (bytes : Bytes) :
    Except StorageError Store :=
  match verifyDigest H claimed bytes with
  | .error e => .error e
  | .ok () => .ok (s.create r claimed bytes)

/-- mirrors crates/git-lfs-delta-storage/src/lib.rs:58-73 -/
def getVerified (H : Hashes) (s : Store) (r : Uuid) (c : ChunkId) : Except StorageError Bytes :=
  match s r c with
  | none => .error .notFound
  | some bytes =>
    match verifyDigest H c bytes with
    | .error e => .error e
    | .ok () => .ok bytes

/-- mirrors crates/git-lfs-delta-storage/src/lib.rs:80-90 -/
def chunkExists (s : Store) (r : Uuid) (c : ChunkId) : Bool := (s r c).isSome

/-- `ChunkStore::delete`; an absent key is no error.
mirrors crates/git-lfs-delta-storage/src/lib.rs:98-107 -/
def deleteChunk (s : Store) (r : Uuid) (c : ChunkId) : Store := s.erase r c

/-! ## Reads and writes -/

theorem verifyDigest_ok {H : Hashes} {c : ChunkId} {b : Bytes} :
    verifyDigest H c b = .ok () ↔ H.blake3 b = c := by
  unfold verifyDigest; split <;> simp_all

theorem putVerified_ok {H : Hashes} {s s' : Store} {r : Uuid} {c : ChunkId} {b : Bytes} :
    putVerified H s r c b = .ok s' ↔ H.blake3 b = c ∧ s' = s.create r c b := by
  unfold putVerified
  by_cases h : H.blake3 b = c
  · rw [verifyDigest_ok.2 h]; simp [h, eq_comm]
  · cases hv : verifyDigest H c b with
    | ok => exact absurd (verifyDigest_ok.1 hv) h
    | error => simp [h]

theorem getVerified_ok {H : Hashes} {s : Store} {r : Uuid} {c : ChunkId} {b : Bytes} :
    getVerified H s r c = .ok b ↔ s r c = some b ∧ H.blake3 b = c := by
  unfold getVerified
  cases hs : s r c with
  | none => simp
  | some b' =>
    simp only
    cases hv : verifyDigest H c b' with
    | ok => have := verifyDigest_ok.1 hv; grind
    | error =>
      have : H.blake3 b' ≠ c := fun e => by rw [verifyDigest_ok.2 e] at hv; cases hv
      grind

theorem create_self (s : Store) (r : Uuid) (c : ChunkId) (b : Bytes) :
    ∃ b', s.create r c b r c = some b' ∧ (s r c = some b' ∨ s r c = none ∧ b' = b) := by
  unfold Store.create
  cases h : s r c <;> simp

/-- What was stored stays stored, unchanged. -/
theorem create_of_some {s : Store} {r r' : Uuid} {c c' : ChunkId} {b b' : Bytes}
    (h : s r' c' = some b') : s.create r c b r' c' = some b' := by
  unfold Store.create
  split
  · rename_i hc
    obtain ⟨rfl, rfl, hn⟩ := hc
    rw [h] at hn; cases hn
  · exact h

theorem create_cases {s : Store} {r r' : Uuid} {c c' : ChunkId} {b b' : Bytes}
    (h : s.create r c b r' c' = some b') : s r' c' = some b' ∨ (r' = r ∧ c' = c ∧ b' = b) := by
  unfold Store.create at h
  split at h
  · rename_i hc; cases h; exact .inr ⟨hc.1, hc.2.1, rfl⟩
  · exact .inl h

theorem erase_some {s : Store} {r r' : Uuid} {c c' : ChunkId} {b : Bytes} :
    s.erase r c r' c' = some b ↔ s r' c' = some b ∧ ¬(r' = r ∧ c' = c) := by
  unfold Store.erase
  split <;> simp_all

@[simp] theorem erase_self (s : Store) (r : Uuid) (c : ChunkId) : s.erase r c r c = none := by
  simp [Store.erase]

/-- Everything stored hashes to its key. -/
def StoreOk (H : Hashes) (s : Store) : Prop := ∀ r c b, s r c = some b → H.blake3 b = c

theorem storeOk_empty (H : Hashes) : StoreOk H Store.empty := fun _ _ _ h => by cases h

theorem storeOk_put {H : Hashes} {s s' : Store} {r : Uuid} {c : ChunkId} {b : Bytes}
    (hs : StoreOk H s) (h : putVerified H s r c b = .ok s') : StoreOk H s' := by
  obtain ⟨hb, rfl⟩ := putVerified_ok.1 h
  intro r' c' b' h'
  rcases create_cases h' with h' | ⟨-, rfl, rfl⟩
  · exact hs r' c' b' h'
  · exact hb

theorem storeOk_delete {H : Hashes} {s : Store} (hs : StoreOk H s) (r : Uuid) (c : ChunkId) :
    StoreOk H (deleteChunk s r c) := fun r' c' b h => hs r' c' b (erase_some.1 h).1

end GitLfsDelta
