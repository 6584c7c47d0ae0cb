import Mathlib.Data.Prod.Lex
import Mathlib.Order.WithBot
import GitLfsDelta.L2Storage.Schema

/-!
# Reachability snapshots and garbage collection (`git-lfs-delta-server/src/gc.rs`)

The transactions of `submit_snapshot`, `dry_run`, `stage`, `collect_due`,
`reclaim_expired_uploads` and `drain_chunk_queue`, each from the database it starts in
to the one it commits; `DbError` means a constraint rejected a statement and the
transaction was dropped.

`drain_chunk_queue` interleaves a transaction with a provider call: per queued chunk it
locks the chunk row and decides (`drainDecision`), deletes the bytes, then deletes the
rows and commits (`drainCommit`). `drainChunkQueue` is the loop run on its own.
-/
namespace GitLfsDelta

/-- mirrors crates/git-lfs-delta-server/src/gc.rs:21-27 -/
structure GcCandidate where
  oid : ObjectOid
  size : Nat
  deriving DecidableEq, Repr

/-- mirrors crates/git-lfs-delta-server/src/gc.rs:342-353 (`CorruptChunkId` cannot arise:
`CHECK (octet_length(chunk_id) = 32)`). -/
inductive GcError
  | database (e : DbError)
  | protocol (message : String)
  deriving DecidableEq, Repr

def second : Nat := 1000000

/-! ## Snapshots -/

/-- mirrors crates/git-lfs-delta-server/src/gc.rs:49-55 -/
def insertReachable (epoch : Uuid) : List ObjectOid → Db → Except DbError Db
  | [], db => .ok db
  | oid :: oids, db =>
    if db.reachable.get? ⟨epoch, oid⟩ ≠ none then .error .unique
    else insertReachable epoch oids { db with reachable := db.reachable.insert ⟨epoch, oid⟩ }

/-- `epoch` is `Uuid::new_v4()`.
mirrors crates/git-lfs-delta-server/src/gc.rs:34-64 -/
def submitSnapshot (db : Db) (now : Nat) (r : Uuid) (fingerprint : String) (oids : List ObjectOid)
    (epoch : Uuid) : Except DbError Db :=
  if db.epochs.get? epoch ≠ none then .error .unique
  else
    match insertReachable epoch oids
        { db with epochs := db.epochs.insert ⟨epoch, r, fingerprint, false, none⟩ } with
    | .error e => .error e
    | .ok db₁ => .ok { db₁ with
        epochs := db₁.epochs.updateWhere (fun e => e.id = epoch)
          (fun e => { e with complete := true, completedAt := some now }) fun _ => rfl }

/-- The sort key of `ORDER BY completed_at DESC, id DESC` (NULL sorts first). -/
def EpochRow.rank (e : EpochRow) : WithTop Nat ×ₗ Nat :=
  toLex ((match e.completedAt with | none => ⊤ | some t => WithTop.some t), e.id.toNat)

/-- Complete epochs of a repository. -/
def completeEpochs (db : Db) (r : Uuid) : List EpochRow :=
  db.epochs.rows.filter fun e => e.repositoryId = r ∧ e.complete

/-- The `latest` CTE of `dry_run`: the two newest complete epochs.
mirrors crates/git-lfs-delta-server/src/gc.rs:76-80 -/
def latestEpochs (db : Db) (r : Uuid) : List EpochRow :=
  newest EpochRow.rank 2 (completeEpochs db r)

/-- The epoch's snapshot lists the object. -/
def Lists (db : Db) (e : EpochRow) (oid : ObjectOid) : Prop := ⟨e.id, oid⟩ ∈ db.reachable

instance (db : Db) (e : EpochRow) (oid : ObjectOid) : Decidable (Lists db e oid) := by
  unfold Lists; infer_instance

/-- The `WHERE` clause of `dry_run` for one object row. -/
def Proposable (db : Db) (o : ObjectRow) : Prop :=
  (latestEpochs db o.repositoryId).length = 2 ∧
    (∀ e ∈ latestEpochs db o.repositoryId, ¬ Lists db e o.oid) ∧
    db.tombstones.get? (o.repositoryId, o.oid) = none

instance (db : Db) (o : ObjectRow) : Decidable (Proposable db o) := by
  unfold Proposable; infer_instance

/-- mirrors crates/git-lfs-delta-server/src/gc.rs:74-110 -/
def dryRun (db : Db) (r : Uuid) : List GcCandidate :=
  ((db.objects.rows.filter fun o => o.repositoryId = r ∧ Proposable db o).insertionSort
    fun a b => a.oid.digest.toNat ≤ b.oid.digest.toNat).map fun o => ⟨o.oid, o.size⟩

/-- The transaction of `stage`, on the candidates `dry_run` returned.
mirrors crates/git-lfs-delta-server/src/gc.rs:122-135 -/
def stageTombstones (now : Nat) (r : Uuid) (seconds : Nat) : List GcCandidate → Db →
    Except DbError Db
  | [], db => .ok db
  | c :: cs, db =>
    match db.insertTombstone ⟨r, c.oid, now + seconds * second⟩ with
    | .error e => .error e
    | .ok db₁ => stageTombstones now r seconds cs db₁

/-! ## Collection -/

/-- The tombstone `collect_due` may take next: due, and none of the due ones is earlier.
mirrors crates/git-lfs-delta-server/src/gc.rs:156-160 -/
def NextDue (db : Db) (now : Nat) (r : Uuid) (oid : ObjectOid) : Prop :=
  ∃ t ∈ db.tombstones, (t.repositoryId = r ∧ t.objectOid = oid) ∧ t.deleteAfter ≤ now ∧
    ∀ t' ∈ db.tombstones, t'.repositoryId = r → t'.deleteAfter ≤ now → t.deleteAfter ≤ t'.deleteAfter

instance (db : Db) (now : Nat) (r : Uuid) (oid : ObjectOid) : Decidable (NextDue db now r oid) := by
  unfold NextDue; infer_instance

/-- No tombstone of the repository is due. -/
def NoneDue (db : Db) (now : Nat) (r : Uuid) : Prop :=
  ∀ t ∈ db.tombstones, t.repositoryId = r → now < t.deleteAfter

instance (db : Db) (now : Nat) (r : Uuid) : Decidable (NoneDue db now r) := by
  unfold NoneDue; infer_instance

/-- The per-chunk statements of `collect_due`: one count down, queue at zero.
mirrors crates/git-lfs-delta-server/src/gc.rs:180-200 -/
def releaseChunks (now : Nat) (r : Uuid) : List ChunkId → Db → Except DbError Db
  | [], db => .ok db
  | c :: cs, db =>
    match db.dropReference r c with
    | .error e => .error e
    | .ok db₁ =>
      releaseChunks now r cs <|
        if (db₁.chunks.get? (r, c)).any fun k => k.referenceCount = 0 then db₁.enqueue now r c
        else db₁

/-- One deleting iteration of `collect_due`, for the tombstone of `oid`.
mirrors crates/git-lfs-delta-server/src/gc.rs:167-201 -/
def collectObject (db : Db) (now : Nat) (r : Uuid) (oid : ObjectOid) : Except DbError Db :=
  releaseChunks now r ((db.chunksOf r oid).map (·.chunkId)) (db.deleteObject r oid)

/-! ## Expired uploads -/

/-- An expired session past the grace period. -/
def Reclaimable (now : Nat) (r : Uuid) (seconds : Nat) (s : SessionRow) : Prop :=
  s.repositoryId = r ∧ s.state = .expired ∧ s.expiresAt + seconds * second ≤ now

instance (now : Nat) (r : Uuid) (seconds : Nat) (s : SessionRow) :
    Decidable (Reclaimable now r seconds s) := by
  unfold Reclaimable; infer_instance

/-- The chunk rows `reclaim_expired_uploads` queues: unreferenced, linked by a session to
be removed, linked by no open session.
mirrors crates/git-lfs-delta-server/src/gc.rs:231-245 -/
def ReclaimsChunk (db : Db) (now : Nat) (r : Uuid) (seconds : Nat) (k : ChunkRow) : Prop :=
  k.repositoryId = r ∧ k.referenceCount = 0 ∧
    (∃ l ∈ db.sessionChunks, (l.repositoryId = k.repositoryId ∧ l.chunkId = k.chunkId) ∧
      ∃ s ∈ db.sessions, s.id = l.sessionId ∧ s.state = .expired ∧
        s.expiresAt + seconds * second ≤ now) ∧
    ¬ db.ActivelyLinked k.repositoryId k.chunkId

instance (db : Db) (now : Nat) (r : Uuid) (seconds : Nat) (k : ChunkRow) :
    Decidable (ReclaimsChunk db now r seconds k) := by
  unfold ReclaimsChunk; infer_instance

/-- `INSERT INTO chunk_gc_queue SELECT ...` for a list of chunk rows. -/
def enqueueAll (now : Nat) : List ChunkRow → Db → Db
  | [], db => db
  | k :: ks, db => enqueueAll now ks (db.enqueue now k.repositoryId k.chunkId)

/-- The transaction of `reclaim_expired_uploads`: expire, queue, remove.
mirrors crates/git-lfs-delta-server/src/gc.rs:221-259 -/
def reclaimSessions (db : Db) (now : Nat) (r : Uuid) (seconds : Nat) : Db :=
  let db₁ := db.expireOpen now fun s => s.repositoryId = r
  let db₂ := enqueueAll now
    (db₁.chunks.rows.filter fun k => ReclaimsChunk db₁ now r seconds k) db₁
  db₂.deleteSessions fun s => Reclaimable now r seconds s

/-! ## Draining the queue -/

/-- `SELECT chunk_id FROM chunk_gc_queue WHERE repository_id = $1 ORDER BY queued_at`: any
listing of the repository's entries in that order. -/
def QueueListing (db : Db) (r : Uuid) (listing : List QueueRow) : Prop :=
  listing.Perm (db.queue.rows.filter fun q => q.repositoryId = r) ∧
    listing.Pairwise fun a b => a.queuedAt ≤ b.queuedAt

instance (db : Db) (r : Uuid) (listing : List QueueRow) : Decidable (QueueListing db r listing) := by
  unfold QueueListing; infer_instance

/-- What one iteration of `drain_chunk_queue` decides once it holds the chunk row. -/
inductive DrainDecision
  | dequeue | keep | delete
  deriving DecidableEq, Repr

/-- mirrors crates/git-lfs-delta-server/src/gc.rs:277-322 -/
def drainDecision (db : Db) (r : Uuid) (c : ChunkId) : DrainDecision :=
  match db.chunks.get? (r, c) with
  | none => .dequeue
  | some k =>
    if 0 < k.referenceCount then .dequeue
    else if db.ActivelyLinked r c then .keep
    else .delete

/-- The rest of the transaction, after the provider deleted the bytes.
mirrors crates/git-lfs-delta-server/src/gc.rs:324-336 -/
def drainCommit (db : Db) (r : Uuid) (c : ChunkId) : Except DbError Db :=
  match db.deleteChunkRow r c with
  | .error e => .error e
  | .ok db₁ => .ok (db₁.dequeue r c)

/-- The loop of `drain_chunk_queue` over a listing, with nothing else running: the
result, and the database and store it leaves.
mirrors crates/git-lfs-delta-server/src/gc.rs:275-339 -/
def drainChunkQueue (r : Uuid) : List ChunkId → Db → Store → Except GcError Unit × Db × Store
  | [], db, store => (.ok (), db, store)
  | c :: cs, db, store =>
    match drainDecision db r c with
    | .dequeue => drainChunkQueue r cs (db.dequeue r c) store
    | .keep => drainChunkQueue r cs db store
    | .delete =>
      let store₁ := deleteChunk store r c
      match drainCommit db r c with
      | .error e => (.error (.database e), db, store₁)
      | .ok db₁ => drainChunkQueue r cs db₁ store₁

end GitLfsDelta
