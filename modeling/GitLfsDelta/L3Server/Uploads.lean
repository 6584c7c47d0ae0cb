import GitLfsDelta.L1Data.ChunkStream
import GitLfsDelta.L2Storage.Schema

/-!
# Upload transactions (`git-lfs-delta-server/src/lib.rs`)

The database side of `begin_cdc`, `upload_cdc_chunk`, `upload_basic` and
`finalize_cdc`: each function below is one transaction or one stand-alone query,
from the database it starts in to the database it commits. An error means that
nothing is committed.

Authentication and the `repositories` lookup come before all of these and touch no
table of `Db`; the functions start from the resolved `repository_id`.
-/
namespace GitLfsDelta

/-- mirrors crates/git-lfs-delta-server/src/lib.rs:1825-1829 -/
structure ApiError where
  status : Nat
  message : String
  deriving DecidableEq, Repr

namespace ApiError

def database : ApiError := ⟨500, "internal service error"⟩

def integrity : ApiError := ⟨500, "stored object failed integrity validation"⟩

/-- mirrors crates/git-lfs-delta-server/src/lib.rs:1861-1871 -/
def storage : StorageError → ApiError
  | .digestMismatch expected actual =>
    ⟨422, "chunk digest mismatch: expected " ++ hexEncode expected.digest ++ ", received " ++
      hexEncode actual.digest⟩
  | .notFound => ⟨500, "object storage error"⟩

def conflict : ApiError := ⟨409, "an open upload for this OID uses a different manifest"⟩

end ApiError

/-- `.map_err(|error| ApiError::database(&error))`. -/
def orDatabase {α : Type} : Except DbError α → Except ApiError α
  | .ok a => .ok a
  | .error _ => .error .database

@[simp] theorem orDatabase_ok {α : Type} {x : Except DbError α} {a : α} :
    orDatabase x = .ok a ↔ x = .ok a := by
  cases x <;> simp [orDatabase]

/-- Peels one statement off a transaction that succeeded. -/
theorem bind_eq_ok {ε α β : Type} {x : Except ε α} {f : α → Except ε β} {b : β} :
    (x >>= f) = .ok b ↔ ∃ a, x = .ok a ∧ f a = .ok b := by
  cases x <;> simp [bind, Except.bind]

theorem bind_eq_error {ε α β : Type} {x : Except ε α} {f : α → Except ε β} {e : ε} :
    (x >>= f) = .error e ↔ x = .error e ∨ ∃ a, x = .ok a ∧ f a = .error e := by
  cases x <;> simp [bind, Except.bind]

theorem orDatabase_error {α : Type} {x : Except DbError α} {e : ApiError}
    (h : orDatabase x = .error e) : e = .database := by
  cases x with
  | ok => cases h
  | error => cases h; rfl

/-! ## Sessions -/

/-- `interval '24 hours'` in microseconds. -/
def sessionLifetime : Nat := 24 * 60 * 60 * 1000000

/-- `INSERT INTO upload_sessions ... ON CONFLICT (repository_id, object_oid) WHERE state =
'open' DO UPDATE SET expires_at = now() + interval '24 hours' RETURNING id, manifest`. -/
def upsertSession (db : Db) (now : Nat) (r : Uuid) (m : ObjectManifest) (newId : Uuid) :
    Except DbError (SessionRow × Db) :=
  match db.sessions.find? fun s =>
      s.repositoryId = r ∧ s.objectOid = m.objectOid ∧ s.state = .opened with
  | some s =>
    .ok ({ s with expiresAt := now + sessionLifetime },
      { db with
        sessions := db.sessions.updateWhere (fun x => x.id = s.id)
          (fun x => { x with expiresAt := now + sessionLifetime }) fun _ => rfl })
  | none =>
    if db.sessions.get? newId ≠ none then .error .unique
    else
      let s : SessionRow :=
        ⟨newId, r, m.objectOid, m.objectSize.toNat, m, .opened, now + sessionLifetime⟩
      .ok (s, { db with sessions := db.sessions.insert s })

/-- The transaction `begin_cdc` and `ensure_upload_session` share: expire what is due for
this object, create or resume its open session, and refuse a different manifest. `newId`
is `Uuid::new_v4()`; `tooLarge` is the error of the `i64` conversion.
mirrors crates/git-lfs-delta-server/src/lib.rs:963-1010 and :1595-1638 -/
def resumeOrCreate (tooLarge : ApiError) (db : Db) (now : Nat) (r : Uuid) (m : ObjectManifest)
    (newId : Uuid) : Except ApiError (Uuid × Db) :=
  let db₁ := db.expireOpen now fun s => s.repositoryId = r ∧ s.objectOid = m.objectOid
  if 2 ^ 63 ≤ m.objectSize.toNat then .error tooLarge
  else do
    let (s, db₂) ← orDatabase (upsertSession db₁ now r m newId)
    if s.manifest ≠ m then .error .conflict else .ok (s.id, db₂)

/-- mirrors crates/git-lfs-delta-server/src/lib.rs:938-1010 (the probes that follow the
commit are steps of the server model). -/
def beginCdc (db : Db) (now : Nat) (r : Uuid) (oid : ObjectOid) (protocolVersion : Nat)
    (m : ObjectManifest) (newId : Uuid) : Except ApiError (Uuid × Db) :=
  if protocolVersion ≠ 1 then .error ⟨400, "unsupported CDC protocol version"⟩
  else match m.validate with
  | .error e => .error ⟨422, e.text⟩
  | .ok () =>
    if m.objectOid ≠ oid then
      .error ⟨422, "manifest OID does not match the requested object OID"⟩
    else resumeOrCreate ⟨422, "object is too large"⟩ db now r m newId

/-- mirrors crates/git-lfs-delta-server/src/lib.rs:1590-1639 -/
def ensureUploadSession (db : Db) (now : Nat) (r : Uuid) (m : ObjectManifest) (newId : Uuid) :
    Except ApiError (Uuid × Db) :=
  resumeOrCreate .integrity db now r m newId

/-- mirrors crates/git-lfs-delta-server/src/lib.rs:1569-1588 -/
def loadOpenUpload (db : Db) (now : Nat) (r : Uuid) (oid : ObjectOid) (u : Uuid) :
    Except ApiError ObjectManifest :=
  match db.sessions.find? fun s => s.id = u ∧ s.repositoryId = r ∧ s.objectOid = oid ∧
      s.state = .opened ∧ now < s.expiresAt with
  | none => .error ⟨404, "open upload session not found"⟩
  | some s => .ok s.manifest

/-- `(state = 'open' AND expires_at > now()) OR state = 'finalized'`. -/
def SessionRow.Finalizable (s : SessionRow) (now : Nat) : Prop :=
  (s.state = .opened ∧ now < s.expiresAt) ∨ s.state = .finalized

instance (s : SessionRow) (now : Nat) : Decidable (s.Finalizable now) := by
  unfold SessionRow.Finalizable; infer_instance

/-- mirrors crates/git-lfs-delta-server/src/lib.rs:1690-1715 -/
def loadFinalizableUpload (db : Db) (now : Nat) (r : Uuid) (oid : ObjectOid) (u : Uuid) :
    Except ApiError (ObjectManifest × Bool) :=
  match db.sessions.find? fun s => s.id = u ∧ s.repositoryId = r ∧ s.objectOid = oid ∧
      s.Finalizable now with
  | none => .error ⟨404, "upload session not found"⟩
  | some s => .ok (s.manifest, s.state = .finalized)

/-! ## Chunks -/

/-- The checks of `upload_cdc_chunk` before it registers the chunk.
mirrors crates/git-lfs-delta-server/src/lib.rs:1047-1056 -/
def acceptChunk (db : Db) (now : Nat) (r : Uuid) (oid : ObjectOid) (u : Uuid) (index : Nat)
    (bytes : Bytes) : Except ApiError ChunkDescriptor := do
  let m ← loadOpenUpload db now r oid u
  match m.chunks[index]? with
  | none => .error ⟨404, "chunk index is outside the manifest"⟩
  | some d =>
    if bytes.length ≠ d.length.toNat then .error ⟨422, "chunk length mismatch"⟩ else .ok d

/-- `INSERT INTO chunks ... ON CONFLICT DO UPDATE SET size = chunks.size WHERE chunks.size =
EXCLUDED.size RETURNING size`: no row is returned when the registered size differs. -/
def upsertChunk (db : Db) (r : Uuid) (d : ChunkDescriptor) : Except ApiError Db :=
  match db.chunks.get? (r, d.id) with
  | none => orDatabase (db.insertChunk r d.id d.length.toNat)
  | some k => if k.size = d.length.toNat then .ok db else .error .integrity

/-- The transaction of `register_and_store_chunk`; its `put_verified` is a separate store
call, made after the commit.
mirrors crates/git-lfs-delta-server/src/lib.rs:1648-1682 -/
def registerChunk (db : Db) (r u : Uuid) (d : ChunkDescriptor) : Except ApiError Db := do
  let db₁ ← upsertChunk db r d
  orDatabase (db₁.linkSessionChunk u r d.id)

/-! ## Publication -/

/-- mirrors crates/git-lfs-delta-server/src/lib.rs:1756-1767 -/
def insertChunks (r : Uuid) : List ChunkDescriptor → Db → Except DbError Db
  | [], db => .ok db
  | d :: ds, db => do
    let db₁ ← db.insertChunk r d.id d.length.toNat
    insertChunks r ds db₁

/-- The `object_chunks` row of descriptor number `ordinal`. -/
def objectChunkRow (r : Uuid) (oid : ObjectOid) (ordinal : Nat) (d : ChunkDescriptor) :
    ObjectChunkRow :=
  ⟨r, oid, ordinal, d.id, d.offset.toNat, d.length.toNat⟩

/-- mirrors crates/git-lfs-delta-server/src/lib.rs:1781-1811 -/
def referenceChunks (r : Uuid) (oid : ObjectOid) : Nat → List ChunkDescriptor → Db →
    Except ApiError Db
  | _, [], db => .ok db
  | ordinal, d :: ds, db =>
    if 2 ^ 31 ≤ ordinal ∨ 2 ^ 63 ≤ d.offset.toNat ∨ 2 ^ 31 ≤ d.length.toNat then .error .integrity
    else do
      let db₁ ← orDatabase (db.insertObjectChunk (objectChunkRow r oid ordinal d))
      referenceChunks r oid (ordinal + 1) ds (db₁.addReference r d.id)

/-- `UPDATE upload_sessions SET state = 'finalized' WHERE id = $1`. -/
def finalizeSession (db : Db) (u : Uuid) : Db :=
  { db with
    sessions := db.sessions.updateWhere (fun s => s.id = u)
      (fun s => { s with state := .finalized }) fun _ => rfl }

/-- The statements of `publish_manifest` after its session row is locked and found open:
chunk rows, the object row, and, if that is new, its `object_chunks` and counts.
mirrors crates/git-lfs-delta-server/src/lib.rs:1756-1822 -/
def publishOpen (db : Db) (r u : Uuid) (m : ObjectManifest) : Except ApiError (Bool × Db) := do
  let db₁ ← orDatabase (insertChunks r m.chunks db)
  if 2 ^ 63 ≤ m.objectSize.toNat then .error .integrity
  else if db₁.objects.get? (r, m.objectOid) = none then do
    let db₂ : Db :=
      { db₁ with objects := db₁.objects.insert ⟨r, m.objectOid, m.objectSize.toNat, m⟩ }
    let db₃ ← referenceChunks r m.objectOid 0 m.chunks db₂
    .ok (true, finalizeSession db₃ u)
  else .ok (false, finalizeSession db₁ u)

/-- `publish_manifest`; the result says whether the object row was inserted.
mirrors crates/git-lfs-delta-server/src/lib.rs:1717-1823 -/
def publishManifest (db : Db) (now : Nat) (r u : Uuid) (m : ObjectManifest) :
    Except ApiError (Bool × Db) :=
  match m.validate with
  | .error _ => .error .integrity
  | .ok () =>
    match db.sessions.find? fun s => s.id = u ∧ s.repositoryId = r ∧ s.objectOid = m.objectOid ∧
        s.Finalizable now with
    | none => .error ⟨404, "upload session not found"⟩
    | some s =>
      match s.state with
      | .finalized => .ok (false, db)
      | .expired => .error ⟨404, "open upload session not found"⟩
      | .opened => publishOpen db r u m

end GitLfsDelta
