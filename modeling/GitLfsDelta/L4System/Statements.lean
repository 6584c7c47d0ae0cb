import GitLfsDelta.Core.LTS
import GitLfsDelta.Core.RowLocks
import GitLfsDelta.L3Server.Collection
import GitLfsDelta.L3Server.Uploads

/-!
# Transactions as sequences of SQL statements

The transactions of uploads and of garbage collection, one SQL statement a step, under
PostgreSQL's `READ COMMITTED`: a statement sees what is committed when it starts and what its
own transaction wrote; a commit makes the writes of the transaction visible at once; an abort
(an error, a deadlock, a lost connection) drops them. Statements of different transactions
interleave in any order, and a statement whose locks another transaction holds waits.

A statement takes the locks PostgreSQL takes for it (`Write.demands`, and `locks` of the
statement itself):

* a row that is inserted or deleted is `write`-locked under its key, so that another insertion
  of the key waits; `ON CONFLICT DO NOTHING` on a row that exists waits only for those (`keys`);
* `SELECT ... FOR UPDATE` takes `update`; an update of columns that are no key, also the one in
  `ON CONFLICT DO UPDATE`, takes `noKeyUpdate`;
* the check of a foreign key takes `keyShare` on the row it refers to.

`now()` is the time the transaction began. Provider calls touch no table: the one inside a
transaction, `chunks.delete`, is the step from `erase`.
-/
namespace GitLfsDelta.Sql

/-- What can be locked: rows under their keys, an entry of the index
`one_open_upload_per_object`, and a repository's advisory lock. -/
inductive Resource
  | chunk (r : Uuid) (c : ChunkId)
  | object (r : Uuid) (oid : ObjectOid)
  | session (u : Uuid)
  | openSession (r : Uuid) (oid : ObjectOid)
  | link (u : Uuid) (c : ChunkId)
  | tombstone (r : Uuid) (oid : ObjectOid)
  | queue (r : Uuid) (c : ChunkId)
  | collection (r : Uuid)
  deriving DecidableEq, Repr

/-! ## Writes -/

/-- One row written, with its cascades. -/
inductive Write
  | chunk (row : ChunkRow)
  | addReference (r : Uuid) (c : ChunkId)
  | dropReference (r : Uuid) (c : ChunkId)
  | deleteChunk (r : Uuid) (c : ChunkId)
  | object (row : ObjectRow)
  | objectChunk (row : ObjectChunkRow)
  | deleteObject (r : Uuid) (oid : ObjectOid)
  | session (row : SessionRow)
  | renew (u : Uuid) (expiresAt : Nat)
  | expire (u : Uuid)
  | finalize (u : Uuid)
  | deleteSession (u : Uuid)
  | link (row : SessionChunkRow)
  | tombstone (row : TombstoneRow)
  | enqueue (row : QueueRow)
  | dequeue (r : Uuid) (c : ChunkId)
  deriving DecidableEq, Repr

theorem dropped_key (k : ChunkRow) :
    ChunkRow.key { k with referenceCount := k.referenceCount - 1 } = k.key := rfl

theorem renewed_id (t : Nat) (s : SessionRow) : { s with expiresAt := t }.id = s.id := rfl

theorem expired_id (s : SessionRow) : { s with state := SessionState.expired }.id = s.id := rfl

def Write.apply : Write → Db → Db
  | .chunk row, db => { db with chunks := db.chunks.insert row }
  | .addReference r c, db => db.addReference r c
  | .dropReference r c, db =>
    { db with
      chunks := db.chunks.updateWhere (fun k => k.repositoryId = r ∧ k.chunkId = c)
        (fun k => { k with referenceCount := k.referenceCount - 1 }) dropped_key }
  | .deleteChunk r c, db =>
    { db with
      chunks := db.chunks.deleteWhere fun k =>
        k.repositoryId = r ∧ k.chunkId = c ∧ k.referenceCount = 0 }
  | .object row, db => { db with objects := db.objects.insert row }
  | .objectChunk row, db => { db with objectChunks := db.objectChunks.insert row }
  | .deleteObject r oid, db => db.deleteObject r oid
  | .session row, db => { db with sessions := db.sessions.insert row }
  | .renew u t, db =>
    { db with
      sessions := db.sessions.updateWhere (fun s => s.id = u) (fun s => { s with expiresAt := t })
        (renewed_id t) }
  | .expire u, db =>
    { db with
      sessions := db.sessions.updateWhere (fun s => s.id = u) (fun s => { s with state := .expired })
        expired_id }
  | .finalize u, db => GitLfsDelta.finalizeSession db u
  | .deleteSession u, db => db.deleteSessions fun s => s.id = u
  | .link row, db => { db with sessionChunks := db.sessionChunks.insert row }
  | .tombstone row, db => { db with tombstones := db.tombstones.insert row }
  | .enqueue row, db => { db with queue := db.queue.insert row }
  | .dequeue r c, db => db.dequeue r c

/-- The locks a write takes, those of its foreign keys included. -/
def Write.demands : Write → List (Resource × LockMode)
  | .chunk row => [(.chunk row.repositoryId row.chunkId, .write)]
  | .addReference r c | .dropReference r c => [(.chunk r c, .noKeyUpdate)]
  | .deleteChunk r c => [(.chunk r c, .write)]
  | .object row => [(.object row.repositoryId row.oid, .write)]
  | .objectChunk row =>
    [(.object row.repositoryId row.objectOid, .keyShare), (.chunk row.repositoryId row.chunkId, .keyShare)]
  | .deleteObject r oid => [(.object r oid, .write), (.tombstone r oid, .write)]
  | .session row => [(.session row.id, .write), (.openSession row.repositoryId row.objectOid, .write)]
  | .renew u _ | .expire u | .finalize u => [(.session u, .noKeyUpdate)]
  | .deleteSession u => [(.session u, .write)]
  | .link row =>
    [(.link row.sessionId row.chunkId, .write), (.session row.sessionId, .keyShare),
      (.chunk row.repositoryId row.chunkId, .keyShare)]
  | .tombstone row =>
    [(.tombstone row.repositoryId row.objectOid, .write),
      (.object row.repositoryId row.objectOid, .keyShare)]
  | .enqueue row => [(.queue row.repositoryId row.chunkId, .write)]
  | .dequeue r c => [(.queue r c, .write)]

/-! ## Transactions -/

/-- The transactions. -/
inductive Transaction
  /-- `register_and_store_chunk`. -/
  | register (r u : Uuid) (d : ChunkDescriptor)
  /-- `publish_manifest`. -/
  | publish (r u : Uuid) (m : ObjectManifest)
  /-- `begin_cdc`, `ensure_upload_session`; `newId` is `Uuid::new_v4()`. -/
  | begin (r : Uuid) (m : ObjectManifest) (newId : Uuid)
  /-- One iteration of `collect_due`. -/
  | collect (r : Uuid)
  | reclaim (r : Uuid) (seconds : Nat)
  /-- One iteration of `drain_chunk_queue`. -/
  | drain (r : Uuid) (c : ChunkId)
  | stage (r : Uuid) (seconds : Nat) (candidates : List GcCandidate)
  deriving DecidableEq, Repr

/-- The statement a transaction comes to next, with the locals the rest reads. -/
inductive Point
  | idle
  | upsertChunk (r u : Uuid) (d : ChunkDescriptor)
  | linkChunk (r u : Uuid) (c : ChunkId)
  | lockSession (r u : Uuid) (m : ObjectManifest)
  | insertChunks (r u : Uuid) (m : ObjectManifest) (todo : List ChunkDescriptor)
  | insertObject (r u : Uuid) (m : ObjectManifest)
  | insertObjectChunk (r u : Uuid) (m : ObjectManifest) (ordinal : Nat) (todo : List ChunkDescriptor)
  | addReference (r u : Uuid) (m : ObjectManifest) (ordinal : Nat) (d : ChunkDescriptor)
      (todo : List ChunkDescriptor)
  | finalizeSession (u : Uuid)
  | expireSessions (r : Uuid) (m : ObjectManifest) (newId : Uuid)
  | upsertSession (r : Uuid) (m : ObjectManifest) (newId : Uuid)
  | lockCollection (r : Uuid)
  | takeTombstone (r : Uuid)
  | readChunks (r : Uuid) (oid : ObjectOid)
  | deleteObject (r : Uuid) (oid : ObjectOid) (cs : List ChunkId)
  | dropReference (r : Uuid) (oid : ObjectOid) (todo : List ChunkId)
  | enqueueChunk (r : Uuid) (oid : ObjectOid) (c : ChunkId) (todo : List ChunkId)
  | expireDue (r : Uuid) (seconds : Nat)
  | queueExpired (r : Uuid) (seconds : Nat)
  | deleteExpired (r : Uuid) (seconds : Nat)
  | lockChunk (r : Uuid) (c : ChunkId)
  | dequeueChunk (r : Uuid) (c : ChunkId)
  | checkSessions (r : Uuid) (c : ChunkId)
  | erase (r : Uuid) (c : ChunkId)
  | deleteChunk (r : Uuid) (c : ChunkId)
  | dequeueErased (r : Uuid) (c : ChunkId)
  | commitErased (r : Uuid) (c : ChunkId)
  | insertTombstones (r : Uuid) (seconds : Nat) (todo : List GcCandidate)
  | commit
  deriving DecidableEq, Repr

/-- What is left is to commit. -/
def Point.commits : Point → Bool
  | .commit | .commitErased _ _ => true
  | _ => false

/-- The first statement. `publish_manifest` validates before it begins. -/
def Transaction.first : Transaction → Option Point
  | .register r u d => some (.upsertChunk r u d)
  | .publish r u m => if m.validate = .ok () then some (.lockSession r u m) else none
  | .begin r m newId => some (.expireSessions r m newId)
  | .collect r => some (.lockCollection r)
  | .reclaim r seconds => some (.expireDue r seconds)
  | .drain r c => some (.lockChunk r c)
  | .stage r seconds candidates => some (.insertTombstones r seconds candidates)

/-! ## Statements -/

/-- What a statement does: the keys it must find settled, the locks it takes besides those of
its writes, the writes, and where the transaction goes on. -/
structure Effect where
  keys : List Resource := []
  locks : List (Resource × LockMode) := []
  writes : List Write := []
  next : Point

inductive Outcome
  | wait
  | fail
  | effect (e : Effect)

section Statements

variable (busy : Resource → Bool) (db : Db) (now : Nat)

/-- mirrors crates/git-lfs-delta-server/src/lib.rs:1648-1680 -/
def upsertChunk (r u : Uuid) (d : ChunkDescriptor) : Outcome :=
  match db.chunks.get? (r, d.id) with
  | none =>
    if d.length.toNat = 0 then .fail
    else .effect { writes := [.chunk ⟨r, d.id, d.length.toNat, 0⟩], next := .linkChunk r u d.id }
  | some k =>
    if k.size = d.length.toNat then
      .effect { locks := [(.chunk r d.id, .noKeyUpdate)], next := .linkChunk r u d.id }
    else .fail

def linkChunk (r u : Uuid) (c : ChunkId) : Outcome :=
  if db.sessionChunks.get? (u, c) ≠ none then .effect { keys := [.link u c], next := .commit }
  else match db.linkSessionChunk u r c with
  | .error _ => .fail
  | .ok _ => .effect { writes := [.link ⟨u, r, c⟩], next := .commit }

/-- mirrors crates/git-lfs-delta-server/src/lib.rs:1732-1755 -/
def lockSession (r u : Uuid) (m : ObjectManifest) : Outcome :=
  match db.sessions.find? fun s => s.id = u ∧ s.repositoryId = r ∧ s.objectOid = m.objectOid ∧
      s.Finalizable now with
  | none => .fail
  | some s =>
    match s.state with
    | .finalized => .effect { locks := [(.session u, .update)], next := .commit }
    | .expired => .fail
    | .opened => .effect { locks := [(.session u, .update)], next := .insertChunks r u m m.chunks }

/-- mirrors crates/git-lfs-delta-server/src/lib.rs:1756-1767 -/
def insertChunks (r u : Uuid) (m : ObjectManifest) : List ChunkDescriptor → Outcome
  | [] => .effect { next := .insertObject r u m }
  | d :: todo =>
    if d.length.toNat = 0 then .fail
    else if db.chunks.get? (r, d.id) = none then
      .effect { writes := [.chunk ⟨r, d.id, d.length.toNat, 0⟩], next := .insertChunks r u m todo }
    else .effect { keys := [.chunk r d.id], next := .insertChunks r u m todo }

/-- mirrors crates/git-lfs-delta-server/src/lib.rs:1768-1780 -/
def insertObject (r u : Uuid) (m : ObjectManifest) : Outcome :=
  if 2 ^ 63 ≤ m.objectSize.toNat then .fail
  else if db.objects.get? (r, m.objectOid) = none then
    .effect { writes := [.object ⟨r, m.objectOid, m.objectSize.toNat, m⟩],
              next := .insertObjectChunk r u m 0 m.chunks }
  else .effect { keys := [.object r m.objectOid], next := .finalizeSession u }

/-- mirrors crates/git-lfs-delta-server/src/lib.rs:1781-1802 -/
def insertObjectChunk (r u : Uuid) (m : ObjectManifest) (ordinal : Nat) : List ChunkDescriptor → Outcome
  | [] => .effect { next := .finalizeSession u }
  | d :: todo =>
    if 2 ^ 31 ≤ ordinal ∨ 2 ^ 63 ≤ d.offset.toNat ∨ 2 ^ 31 ≤ d.length.toNat then .fail
    else match db.insertObjectChunk (objectChunkRow r m.objectOid ordinal d) with
    | .error _ => .fail
    | .ok _ =>
      .effect { writes := [.objectChunk (objectChunkRow r m.objectOid ordinal d)],
                next := .addReference r u m ordinal d todo }

/-- The first statement of `resume_or_create`.
mirrors crates/git-lfs-delta-server/src/lib.rs:963-976 and :1595-1606 -/
def expireSessions (r : Uuid) (m : ObjectManifest) (newId : Uuid) : Outcome :=
  let due := db.sessions.rows.filter fun s =>
    s.repositoryId = r ∧ s.objectOid = m.objectOid ∧ s.state = .opened ∧ s.expiresAt ≤ now
  .effect { writes := due.map fun s => .expire s.id, next := .upsertSession r m newId }

/-- The second one, and the comparison of the manifests.
mirrors crates/git-lfs-delta-server/src/lib.rs:977-1009 and :1607-1638 -/
def upsertSession (r : Uuid) (m : ObjectManifest) (newId : Uuid) : Outcome :=
  if 2 ^ 63 ≤ m.objectSize.toNat then .fail
  else match db.sessions.find? fun s =>
      s.repositoryId = r ∧ s.objectOid = m.objectOid ∧ s.state = .opened with
  | some s =>
    if s.manifest ≠ m then .fail
    else .effect { writes := [.renew s.id (now + sessionLifetime)], next := .commit }
  | none =>
    if db.sessions.get? newId ≠ none then .fail
    else
      let s : SessionRow :=
        ⟨newId, r, m.objectOid, m.objectSize.toNat, m, .opened, now + sessionLifetime⟩
      .effect { writes := [.session s], next := .commit }

/-- A due tombstone of the repository that no other transaction has locked. -/
def Takable (r : Uuid) (t : TombstoneRow) : Prop :=
  t.repositoryId = r ∧ t.deleteAfter ≤ now ∧ busy (.tombstone r t.objectOid) = false

instance (r : Uuid) (t : TombstoneRow) : Decidable (Takable busy now r t) := by
  unfold Takable; infer_instance

/-- `SELECT ... ORDER BY delete_after FOR UPDATE SKIP LOCKED LIMIT 1`; which of equally old
tombstones is taken is PostgreSQL's choice.
mirrors crates/git-lfs-delta-server/src/gc.rs:156-167 -/
def takeTombstone (r : Uuid) : Option ObjectOid → Outcome
  | some oid =>
    match db.tombstones.get? (r, oid) with
    | none => .wait
    | some t =>
      if Takable busy now r t ∧
          ∀ t' ∈ db.tombstones, Takable busy now r t' → t.deleteAfter ≤ t'.deleteAfter then
        .effect { locks := [(.tombstone r oid, .update)], next := .readChunks r oid }
      else .wait
  | none => if ∀ t ∈ db.tombstones, ¬ Takable busy now r t then .effect { next := .commit } else .wait

/-- mirrors crates/git-lfs-delta-server/src/gc.rs:180-188 -/
def dropReference (r : Uuid) (oid : ObjectOid) : List ChunkId → Outcome
  | [] => .effect { next := .commit }
  | c :: todo =>
    match db.dropReference r c with
    | .error _ => .fail
    | .ok _ => .effect { writes := [.dropReference r c], next := .enqueueChunk r oid c todo }

/-- `INSERT INTO chunk_gc_queue ... ON CONFLICT DO NOTHING` of a list of chunks. -/
def enqueueRows (r : Uuid) (cs : List ChunkId) : List Write :=
  (cs.filter fun c => db.queue.get? (r, c) = none).map fun c => .enqueue ⟨r, c, now⟩

/-- mirrors crates/git-lfs-delta-server/src/gc.rs:189-199 -/
def enqueueChunk (r : Uuid) (oid : ObjectOid) (c : ChunkId) (todo : List ChunkId) : Outcome :=
  let unused := if (db.chunks.get? (r, c)).any fun k => k.referenceCount = 0 then [c] else []
  .effect { keys := unused.map (.queue r), writes := enqueueRows db now r unused,
            next := .dropReference r oid todo }

/-- mirrors crates/git-lfs-delta-server/src/gc.rs:222-229 -/
def expireDue (r : Uuid) (seconds : Nat) : Outcome :=
  let due := db.sessions.rows.filter fun s =>
    s.repositoryId = r ∧ s.state = .opened ∧ s.expiresAt ≤ now
  .effect { writes := due.map fun s => .expire s.id, next := .queueExpired r seconds }

/-- mirrors crates/git-lfs-delta-server/src/gc.rs:230-249 -/
def queueExpired (r : Uuid) (seconds : Nat) : Outcome :=
  let cs := (db.chunks.rows.filter fun k => ReclaimsChunk db now r seconds k).map (·.chunkId)
  .effect { keys := cs.map (.queue r), writes := enqueueRows db now r cs,
            next := .deleteExpired r seconds }

/-- mirrors crates/git-lfs-delta-server/src/gc.rs:250-259 -/
def deleteExpired (r : Uuid) (seconds : Nat) : Outcome :=
  let expired := db.sessions.rows.filter fun s => Reclaimable now r seconds s
  .effect { writes := expired.map fun s => .deleteSession s.id, next := .commit }

/-- mirrors crates/git-lfs-delta-server/src/gc.rs:277-303 -/
def lockChunk (r : Uuid) (c : ChunkId) : Outcome :=
  match db.chunks.get? (r, c) with
  | none => .effect { next := .dequeueChunk r c }
  | some k =>
    .effect { locks := [(.chunk r c, .update)],
              next := if 0 < k.referenceCount then .dequeueChunk r c else .checkSessions r c }

/-- `DELETE FROM chunk_gc_queue`. -/
def dequeueRows (r : Uuid) (c : ChunkId) : List Write :=
  if db.queue.get? (r, c) = none then [] else [.dequeue r c]

/-- mirrors crates/git-lfs-delta-server/src/gc.rs:325-332 -/
def deleteChunk (r : Uuid) (c : ChunkId) : Outcome :=
  match db.deleteChunkRow r c with
  | .error _ => .fail
  | .ok _ => .effect { writes := [.deleteChunk r c], next := .dequeueErased r c }

/-- mirrors crates/git-lfs-delta-server/src/gc.rs:123-134 -/
def insertTombstones (r : Uuid) (seconds : Nat) : List GcCandidate → Outcome
  | [] => .effect { next := .commit }
  | c :: todo =>
    if db.tombstones.get? (r, c.oid) ≠ none then
      .effect { keys := [.tombstone r c.oid], next := .insertTombstones r seconds todo }
    else if db.objects.get? (r, c.oid) = none then .fail
    else
      .effect { writes := [.tombstone ⟨r, c.oid, now + seconds * second⟩],
                next := .insertTombstones r seconds todo }

/-- The next statement, on what the transaction sees. `busy` says which rows another
transaction has locked; `choice` is the tombstone `collect_due` gets. -/
def statement (choice : Option ObjectOid) : Point → Outcome
  | .idle => .wait
  | .upsertChunk r u d => upsertChunk db r u d
  | .linkChunk r u c => linkChunk db r u c
  | .lockSession r u m => lockSession db now r u m
  | .insertChunks r u m todo => insertChunks db r u m todo
  | .insertObject r u m => insertObject db r u m
  | .insertObjectChunk r u m ordinal todo => insertObjectChunk db r u m ordinal todo
  | .addReference r u m ordinal d todo =>
    .effect { writes := [.addReference r d.id], next := .insertObjectChunk r u m (ordinal + 1) todo }
  | .finalizeSession u => .effect { writes := [.finalize u], next := .commit }
  | .expireSessions r m newId => expireSessions db now r m newId
  | .upsertSession r m newId => upsertSession db now r m newId
  | .lockCollection r => .effect { locks := [(.collection r, .update)], next := .takeTombstone r }
  | .takeTombstone r => takeTombstone busy db now r choice
  | .readChunks r oid => .effect { next := .deleteObject r oid ((db.chunksOf r oid).map (·.chunkId)) }
  | .deleteObject r oid cs => .effect { writes := [.deleteObject r oid], next := .dropReference r oid cs }
  | .dropReference r oid todo => dropReference db r oid todo
  | .enqueueChunk r oid c todo => enqueueChunk db now r oid c todo
  | .expireDue r seconds => expireDue db now r seconds
  | .queueExpired r seconds => queueExpired db now r seconds
  | .deleteExpired r seconds => deleteExpired db now r seconds
  | .lockChunk r c => lockChunk db r c
  | .dequeueChunk r c => .effect { writes := dequeueRows db r c, next := .commit }
  | .checkSessions r c => .effect { next := if db.ActivelyLinked r c then .commit else .erase r c }
  | .erase r c => .effect { next := .deleteChunk r c }
  | .deleteChunk r c => deleteChunk db r c
  | .dequeueErased r c => .effect { writes := dequeueRows db r c, next := .commitErased r c }
  | .insertTombstones r seconds todo => insertTombstones db now r seconds todo
  | .commit | .commitErased _ _ => .wait

end Statements

/-! ## The system -/

structure Tx where
  point : Point
  /-- When it began. -/
  now : Nat
  writes : List Write

structure State (ι : Type) where
  /-- What is committed. -/
  db : Db
  clock : Nat
  txs : ι → Tx
  locks : RowLocks ι Resource

inductive Label (ι : Type)
  | tick (δ : Nat)
  | begin (p : ι) (t : Transaction)
  | next (p : ι) (choice : Option ObjectOid)
  | commit (p : ι)
  | abort (p : ι)
  deriving DecidableEq, Repr

variable {ι : Type} [DecidableEq ι]

/-- What transaction `p` sees. -/
def State.view (s : State ι) (p : ι) : Db := RowLocks.applyAll Write.apply (s.txs p).writes s.db

/-- Another transaction has the row locked. -/
def State.busy (s : State ι) (p : ι) (x : Resource) : Bool := ¬ s.locks.Free p x .update

/-- The locks a statement takes. -/
def Effect.takes (e : Effect) : List (Resource × LockMode) := e.locks ++ e.writes.flatMap Write.demands

/-- No other transaction is in the way of the statement. -/
def State.Ready (s : State ι) (p : ι) (e : Effect) : Prop :=
  (∀ x ∈ e.keys, ¬ s.locks.Changing p x) ∧ ∀ y ∈ e.takes, s.locks.Free p y.1 y.2

instance (s : State ι) (p : ι) (e : Effect) : Decidable (s.Ready p e) := by
  unfold State.Ready; infer_instance

/-- The transaction is over: committed into `db`, or not. -/
def State.ended (s : State ι) (p : ι) (db : Db) : State ι :=
  { s with db := db, txs := Function.update s.txs p ⟨.idle, 0, []⟩, locks := s.locks.release p }

def State.proceed (s : State ι) (p : ι) (e : Effect) : State ι :=
  { s with
    txs := Function.update s.txs p ⟨e.next, (s.txs p).now, (s.txs p).writes ++ e.writes⟩
    locks := s.locks.take p e.takes }

def step (s : State ι) : Label ι → Option (State ι)
  | .tick δ => some { s with clock := s.clock + δ }
  | .begin p t =>
    if (s.txs p).point = .idle then
      t.first.map fun point => { s with txs := Function.update s.txs p ⟨point, s.clock, []⟩ }
    else none
  | .next p choice =>
    match statement (s.busy p) (s.view p) (s.txs p).now choice (s.txs p).point with
    | .wait => none
    | .fail => some (s.ended p s.db)
    | .effect e => if s.Ready p e then some (s.proceed p e) else none
  | .commit p => if (s.txs p).point.commits then some (s.ended p (s.view p)) else none
  | .abort p => some (s.ended p s.db)

/-- Every interleaving, from an empty database. -/
def postgres : LTS (State ι) (Label ι) :=
  LTS.ofFn (fun s => ∃ t, s = ⟨.empty, t, fun _ => ⟨.idle, 0, []⟩, []⟩) step

end GitLfsDelta.Sql
