import GitLfsDelta.Core.Table
import GitLfsDelta.L2Storage.ChunkStore

/-!
# The PostgreSQL schema (`git-lfs-delta-server/migrations`)

One table per `CREATE TABLE` the transfer and collection code reads or writes, with
its primary key as the table's key, and one function per statement shape that a
constraint can reject. A function returns `DbError` where PostgreSQL would: the
transaction around it is then dropped, so nothing of it is committed.

* `ON DELETE CASCADE` is part of `deleteObject` and `deleteSessions`.
* The foreign keys of `object_chunks` and `upload_session_chunks` to `chunks` have no
  cascade: `deleteChunkRow` fails while either still names the chunk.
* Timestamps are microseconds of the database clock; a transaction's `now()` is one
  reading of it.

The `repositories`, `lfs_locks` and `repository_grants` tables and the `created_at`
columns are not read by this code. `JSONB` manifests are kept as the value they decode
to.
-/
namespace GitLfsDelta

/-- mirrors migrations/202607170001_initial.sql:9-16 -/
structure ObjectRow where
  repositoryId : Uuid
  oid : ObjectOid
  size : Nat
  manifest : ObjectManifest
  deriving DecidableEq, Repr

def ObjectRow.key (o : ObjectRow) : Uuid × ObjectOid := (o.repositoryId, o.oid)

/-- mirrors migrations/202607170001_initial.sql:18-25 -/
structure ChunkRow where
  repositoryId : Uuid
  chunkId : ChunkId
  size : Nat
  referenceCount : Nat
  deriving DecidableEq, Repr

def ChunkRow.key (c : ChunkRow) : Uuid × ChunkId := (c.repositoryId, c.chunkId)

/-- mirrors migrations/202607170001_initial.sql:27-39 -/
structure ObjectChunkRow where
  repositoryId : Uuid
  objectOid : ObjectOid
  ordinal : Nat
  chunkId : ChunkId
  byteOffset : Nat
  byteLength : Nat
  deriving DecidableEq, Repr

def ObjectChunkRow.key (o : ObjectChunkRow) : Uuid × ObjectOid × Nat :=
  (o.repositoryId, o.objectOid, o.ordinal)

/-- `upload_sessions.state`; `opened` is `'open'`.
mirrors migrations/202607170001_initial.sql:47 -/
inductive SessionState
  | opened | finalized | expired
  deriving DecidableEq, Repr

/-- mirrors migrations/202607170001_initial.sql:41-50 -/
structure SessionRow where
  id : Uuid
  repositoryId : Uuid
  objectOid : ObjectOid
  objectSize : Nat
  manifest : ObjectManifest
  state : SessionState
  expiresAt : Nat
  deriving DecidableEq, Repr

/-- mirrors migrations/202607170004_upload_session_chunks.sql:1-9 and
202607180001_session_integrity.sql:1-11 -/
structure SessionChunkRow where
  sessionId : Uuid
  repositoryId : Uuid
  chunkId : ChunkId
  deriving DecidableEq, Repr

def SessionChunkRow.key (l : SessionChunkRow) : Uuid × ChunkId := (l.sessionId, l.chunkId)

/-- mirrors migrations/202607170001_initial.sql:65-72 -/
structure EpochRow where
  id : Uuid
  repositoryId : Uuid
  refFingerprint : String
  complete : Bool
  completedAt : Option Nat
  deriving DecidableEq, Repr

/-- mirrors migrations/202607170001_initial.sql:74-78 -/
structure ReachableRow where
  epochId : Uuid
  objectOid : ObjectOid
  deriving DecidableEq, Repr

/-- mirrors migrations/202607170003_gc_lifecycle.sql:1-10 -/
structure TombstoneRow where
  repositoryId : Uuid
  objectOid : ObjectOid
  deleteAfter : Nat
  deriving DecidableEq, Repr

def TombstoneRow.key (t : TombstoneRow) : Uuid × ObjectOid := (t.repositoryId, t.objectOid)

/-- mirrors migrations/202607170003_gc_lifecycle.sql:12-17 -/
structure QueueRow where
  repositoryId : Uuid
  chunkId : ChunkId
  queuedAt : Nat
  deriving DecidableEq, Repr

def QueueRow.key (q : QueueRow) : Uuid × ChunkId := (q.repositoryId, q.chunkId)

structure Db where
  objects : Table ObjectRow.key
  chunks : Table ChunkRow.key
  objectChunks : Table ObjectChunkRow.key
  sessions : Table SessionRow.id
  sessionChunks : Table SessionChunkRow.key
  epochs : Table EpochRow.id
  reachable : Table (id : ReachableRow → ReachableRow)
  tombstones : Table TombstoneRow.key
  queue : Table QueueRow.key

def Db.empty : Db := ⟨.empty, .empty, .empty, .empty, .empty, .empty, .empty, .empty, .empty⟩

/-- Why PostgreSQL rejects a statement. -/
inductive DbError
  | unique | check | foreignKey
  deriving DecidableEq, Repr

namespace Db

/-! ## Queries -/

/-- `object_chunks` rows naming the chunk. -/
def referencesTo (db : Db) (r : Uuid) (c : ChunkId) : List ObjectChunkRow :=
  db.objectChunks.rows.filter fun o => o.repositoryId = r ∧ o.chunkId = c

/-- `object_chunks` rows of an object. -/
def chunksOf (db : Db) (r : Uuid) (oid : ObjectOid) : List ObjectChunkRow :=
  db.objectChunks.rows.filter fun o => o.repositoryId = r ∧ o.objectOid = oid

/-- Some session, in whatever state, links the chunk. -/
def Linked (db : Db) (r : Uuid) (c : ChunkId) : Prop :=
  ∃ l ∈ db.sessionChunks, l.repositoryId = r ∧ l.chunkId = c

/-- Some session in state `open` links the chunk.
mirrors crates/git-lfs-delta-server/src/gc.rs:309-316 -/
def ActivelyLinked (db : Db) (r : Uuid) (c : ChunkId) : Prop :=
  ∃ l ∈ db.sessionChunks, (l.repositoryId = r ∧ l.chunkId = c) ∧
    ∃ s ∈ db.sessions, s.id = l.sessionId ∧ s.state = .opened

instance (db : Db) (r : Uuid) (c : ChunkId) : Decidable (db.Linked r c) := by
  unfold Linked; infer_instance

instance (db : Db) (r : Uuid) (c : ChunkId) : Decidable (db.ActivelyLinked r c) := by
  unfold ActivelyLinked; infer_instance

/-! ## Statements -/

/-- `INSERT INTO chunks ... ON CONFLICT DO NOTHING`; `CHECK (size > 0)` applies to the
proposed row. -/
def insertChunk (db : Db) (r : Uuid) (c : ChunkId) (size : Nat) : Except DbError Db :=
  if size = 0 then .error .check
  else .ok { db with chunks := db.chunks.insert ⟨r, c, size, 0⟩ }

/-- `INSERT INTO object_chunks`. -/
def insertObjectChunk (db : Db) (row : ObjectChunkRow) : Except DbError Db :=
  if row.byteLength = 0 then .error .check
  else if db.objectChunks.get? row.key ≠ none then .error .unique
  else if db.objects.get? (row.repositoryId, row.objectOid) = none ∨
      db.chunks.get? (row.repositoryId, row.chunkId) = none then .error .foreignKey
  else .ok { db with objectChunks := db.objectChunks.insert row }

/-- `UPDATE chunks SET reference_count = reference_count + 1`. -/
def addReference (db : Db) (r : Uuid) (c : ChunkId) : Db :=
  { db with
    chunks := db.chunks.updateWhere (fun k => k.repositoryId = r ∧ k.chunkId = c)
      (fun k => { k with referenceCount := k.referenceCount + 1 }) fun _ => rfl }

/-- `UPDATE chunks SET reference_count = reference_count - 1`, under
`CHECK (reference_count >= 0)`. -/
def dropReference (db : Db) (r : Uuid) (c : ChunkId) : Except DbError Db :=
  if (db.chunks.get? (r, c)).any fun k => k.referenceCount = 0 then .error .check
  else .ok { db with
    chunks := db.chunks.updateWhere (fun k => k.repositoryId = r ∧ k.chunkId = c)
      (fun k => { k with referenceCount := k.referenceCount - 1 }) fun _ => rfl }

/-- `DELETE FROM objects`, with its cascades. -/
def deleteObject (db : Db) (r : Uuid) (oid : ObjectOid) : Db :=
  { db with
    objects := db.objects.deleteWhere fun o => o.repositoryId = r ∧ o.oid = oid
    objectChunks := db.objectChunks.deleteWhere fun o => o.repositoryId = r ∧ o.objectOid = oid
    tombstones := db.tombstones.deleteWhere fun t => t.repositoryId = r ∧ t.objectOid = oid }

/-- `DELETE FROM chunks WHERE ... AND reference_count = 0`. -/
def deleteChunkRow (db : Db) (r : Uuid) (c : ChunkId) : Except DbError Db :=
  if (db.chunks.get? (r, c)).any (fun k => k.referenceCount = 0) ∧
      (db.referencesTo r c ≠ [] ∨ db.Linked r c) then .error .foreignKey
  else .ok { db with
    chunks := db.chunks.deleteWhere fun k =>
      k.repositoryId = r ∧ k.chunkId = c ∧ k.referenceCount = 0 }

/-- `INSERT INTO upload_session_chunks ... ON CONFLICT DO NOTHING`; a conflicting row is
not inserted and so not checked. -/
def linkSessionChunk (db : Db) (u r : Uuid) (c : ChunkId) : Except DbError Db :=
  if db.sessionChunks.get? (u, c) ≠ none then .ok db
  else if (db.sessions.get? u).any (fun s => s.repositoryId = r) = false ∨
      db.chunks.get? (r, c) = none then .error .foreignKey
  else .ok { db with sessionChunks := db.sessionChunks.insert ⟨u, r, c⟩ }

/-- `UPDATE upload_sessions SET state = 'expired' WHERE p AND state = 'open' AND
expires_at <= now()`. -/
def expireOpen (db : Db) (now : Nat) (p : SessionRow → Bool) : Db :=
  { db with
    sessions := db.sessions.updateWhere
      (fun s => p s ∧ s.state = .opened ∧ s.expiresAt ≤ now)
      (fun s => { s with state := .expired }) fun _ => rfl }

/-- `DELETE FROM upload_sessions WHERE p`, with its cascade. -/
def deleteSessions (db : Db) (p : SessionRow → Bool) : Db :=
  { db with
    sessions := db.sessions.deleteWhere p
    sessionChunks := db.sessionChunks.deleteWhere fun l => (db.sessions.get? l.sessionId).any p }

/-- `INSERT INTO object_tombstones ... ON CONFLICT DO NOTHING`. -/
def insertTombstone (db : Db) (row : TombstoneRow) : Except DbError Db :=
  if db.tombstones.get? row.key ≠ none then .ok db
  else if db.objects.get? (row.repositoryId, row.objectOid) = none then .error .foreignKey
  else .ok { db with tombstones := db.tombstones.insert row }

/-- `INSERT INTO chunk_gc_queue ... ON CONFLICT DO NOTHING`. -/
def enqueue (db : Db) (now : Nat) (r : Uuid) (c : ChunkId) : Db :=
  { db with queue := db.queue.insert ⟨r, c, now⟩ }

/-- `DELETE FROM chunk_gc_queue`. -/
def dequeue (db : Db) (r : Uuid) (c : ChunkId) : Db :=
  { db with queue := db.queue.deleteWhere fun q => q.repositoryId = r ∧ q.chunkId = c }

end Db
end GitLfsDelta
