import GitLfsDelta.Core.LTS
import GitLfsDelta.L3Server.Uploads
import GitLfsDelta.L3Server.Collection

/-!
# The server as a transition system

Any number of requests and administrative runs share one database and one chunk store.
A process is one of them; its step is one database transaction, one stand-alone query or
one object-store call, and steps of different processes interleave in any order. `kill`
cuts a process off between two steps (a crash, a dropped request, a failed statement or
provider call): an open transaction is rolled back and its row locks are gone.

Only `drain_chunk_queue` keeps a transaction open across a store call. While it does, it
holds the chunk row `FOR UPDATE` (`Shared.locks`): a transaction that has to update or
reference that row waits, i.e. has no step, until the lock is released. Those are
`register_and_store_chunk` (its `ON CONFLICT DO UPDATE` and the foreign key of its link),
`publish_manifest` when it inserts the object, `collect_due` and another drain.

`Uuid::new_v4()` never returns a value twice: a new id is a choice of the environment,
guarded by `Shared.issued`.

`History` is ghost state: the step at which a row appeared, and for a tombstone the step
of the `dry_run` it rests on. No step reads it.
-/
namespace GitLfsDelta

/-- What the processes share. -/
structure Shared where
  db : Db
  store : Store
  clock : Nat
  /-- Chunk rows held by an open drain transaction. -/
  locks : List (Uuid × ChunkId)
  /-- Ids `Uuid::new_v4()` has returned. -/
  issued : List Uuid
  /-- The `logical_uploaded` metric. -/
  logicalUploaded : Nat

def Shared.initial (clock : Nat) : Shared := ⟨.empty, .empty, clock, [], [], 0⟩

/-- Requests and administrative commands. `newId` is what `Uuid::new_v4()` will return. -/
inductive Request
  | beginCdc (r : Uuid) (oid : ObjectOid) (protocolVersion : Nat) (m : ObjectManifest) (newId : Uuid)
  | uploadCdcChunk (r : Uuid) (oid : ObjectOid) (u : Uuid) (index : Nat) (bytes : Bytes)
  | uploadBasic (r : Uuid) (oid : ObjectOid) (body : Bytes) (newId : Uuid)
  | finalizeCdc (r : Uuid) (oid : ObjectOid) (u : Uuid)
  | submitSnapshot (r : Uuid) (fingerprint : String) (oids : List ObjectOid) (newId : Uuid)
  | stage (r : Uuid) (grace : Nat)
  | collectDue (r : Uuid)
  | reclaimExpiredUploads (r : Uuid) (grace : Nat)
  deriving DecidableEq, Repr

def Request.repository : Request → Uuid
  | .beginCdc r .. | .uploadCdcChunk r .. | .uploadBasic r .. | .finalizeCdc r .. => r
  | .submitSnapshot r .. | .stage r _ | .collectDue r | .reclaimExpiredUploads r _ => r

inductive Response
  | plan (uploadId : Uuid) (missing : List Nat)
  | noContent
  | failed (e : ApiError)
  | admin (count : Nat)
  | adminFailed (e : GcError)
  deriving DecidableEq, Repr

/-- Where a process is, with the locals its remaining steps read. -/
inductive Proc
  | idle
  /-- `begin_cdc` after its commit: probing the store for each chunk. -/
  | probing (u r : Uuid) (todo : List ChunkId) (index : Nat) (missing : List Nat)
  /-- `upload_cdc_chunk` before, and after, the registering transaction. -/
  | registering (r u : Uuid) (d : ChunkDescriptor) (bytes : Bytes)
  | storing (r : Uuid) (c : ChunkId) (bytes : Bytes)
  /-- `upload_basic` with the chunks still to register and store. -/
  | basic (r u : Uuid) (m : ObjectManifest) (todo : List Chunk)
  | basicStoring (r u : Uuid) (m : ObjectManifest) (chunk : Chunk) (todo : List Chunk)
  /-- `finalize_cdc` with the descriptors still to verify and what the hasher consumed. -/
  | verifying (r : Uuid) (oid : ObjectOid) (u : Uuid) (m : ObjectManifest)
      (todo : List ChunkDescriptor) (hashed : Bytes)
  /-- `stage` after `dry_run`; `evidence` (ghost) is the step it ran at. -/
  | staging (r : Uuid) (seconds : Nat) (candidates : List GcCandidate) (evidence : Nat)
  | collecting (r : Uuid) (deleted : Nat)
  /-- `drain_chunk_queue` before it lists the queue, between two entries, and inside the
  transaction of one entry before and after the provider call. -/
  | listing (r : Uuid) (count : Nat)
  | draining (r : Uuid) (todo : List ChunkId) (count : Nat)
  | deleting (r : Uuid) (c : ChunkId) (todo : List ChunkId) (count : Nat)
  | deleted (r : Uuid) (c : ChunkId) (todo : List ChunkId) (count : Nat)
  | done (response : Response)
  | stopped
  deriving DecidableEq, Repr

/-- A process slot that can take a new request. -/
def Proc.Free : Proc → Prop
  | .idle | .done _ | .stopped => True
  | _ => False

instance : DecidablePred Proc.Free := fun q => by
  cases q <;> simp only [Proc.Free] <;> infer_instance

/-- The chunk row an open drain transaction holds. -/
def Proc.held : Proc → Option (Uuid × ChunkId)
  | .deleting r c _ _ => some (r, c)
  | .deleted r c _ _ => some (r, c)
  | _ => none

def Shared.unlock (w : Shared) (k : Uuid × ChunkId) : Shared :=
  { w with locks := w.locks.filter (· ≠ k) }

/-! ## First steps -/

/-- `begin_cdc` up to its commit. -/
def startBegin (w : Shared) (r : Uuid) (oid : ObjectOid) (v : Nat) (m : ObjectManifest)
    (newId : Uuid) : Option (Shared × Proc) :=
  if newId ∈ w.issued then none
  else
    let w := { w with issued := newId :: w.issued }
    match beginCdc w.db w.clock r oid v m newId with
    | .error e => some (w, .done (.failed e))
    | .ok (u, db) => some ({ w with db := db }, .probing u r (m.chunks.map (·.id)) 0 [])

/-- `upload_basic` up to the commit of `ensure_upload_session`.
mirrors crates/git-lfs-delta-server/src/lib.rs:778-833 -/
def startBasic (H : Hashes) (cut : Cutter) (w : Shared) (r : Uuid) (oid : ObjectOid) (body : Bytes)
    (newId : Uuid) : Option (Shared × Proc) :=
  if newId ∈ w.issued then none
  else
    let w := { w with issued := newId :: w.issued }
    if maxObjectSize < body.length then
      some (w, .done (.failed ⟨413, "object exceeds the 100 GiB production limit"⟩))
    else match chunkObject H cut body with
    | .error (.chunkTooLarge n) =>
      some (w, .done (.failed ⟨422, s!"chunk length {n} exceeds the v1 manifest limit"⟩))
    | .ok (chunks, m) =>
      if m.objectOid ≠ oid then
        some (w, .done (.failed ⟨422, "uploaded bytes do not match the requested object OID"⟩))
      else match ensureUploadSession w.db w.clock r m newId with
      | .error e => some (w, .done (.failed e))
      | .ok (u, db) => some ({ w with db := db }, .basic r u m chunks)

/-- The first step of a request; `now` (ghost) is the step's number. -/
def procStart (H : Hashes) (cut : Cutter) (now : Nat) (w : Shared) : Request →
    Option (Shared × Proc)
  | .beginCdc r oid v m newId => startBegin w r oid v m newId
  | .uploadCdcChunk r oid u index bytes =>
    match acceptChunk w.db w.clock r oid u index bytes with
    | .error e => some (w, .done (.failed e))
    | .ok d => some (w, .registering r u d bytes)
  | .uploadBasic r oid body newId => startBasic H cut w r oid body newId
  | .finalizeCdc r oid u =>
    match loadFinalizableUpload w.db w.clock r oid u with
    | .error e => some (w, .done (.failed e))
    | .ok (_, true) => some (w, .done .noContent)
    | .ok (m, false) => some (w, .verifying r oid u m m.chunks [])
  | .submitSnapshot r fingerprint oids newId =>
    if newId ∈ w.issued then none
    else
      let w := { w with issued := newId :: w.issued }
      match submitSnapshot w.db w.clock r fingerprint oids newId with
      | .error e => some (w, .done (.adminFailed (.database e)))
      | .ok db => some ({ w with db := db }, .done (.admin oids.length))
  | .stage r grace =>
    let candidates := dryRun w.db r
    if 2 ^ 63 ≤ grace then
      some (w, .done (.adminFailed (.protocol "GC grace period is too large")))
    else some (w, .staging r grace candidates now)
  | .collectDue r => some (w, .collecting r 0)
  | .reclaimExpiredUploads r grace =>
    if 2 ^ 63 ≤ grace then
      some (w, .done (.adminFailed (.protocol "upload grace period is too large")))
    else
      let db := reclaimSessions w.db w.clock r grace
      some ({ w with db := db }, .listing r (w.db.sessions.rows.length - db.sessions.rows.length))

/-! ## Later steps -/

/-- What PostgreSQL leaves open: which due tombstone comes first, and the order of queue
entries with equal `queued_at`. -/
inductive Choice
  | auto
  | tombstone (oid : ObjectOid)
  | listing (entries : List QueueRow)
  deriving DecidableEq, Repr

/-- `publish_manifest` has to update chunk rows another transaction holds: the object is
new and one of its chunks is locked. -/
def PublishWaits (w : Shared) (r u : Uuid) (m : ObjectManifest) : Prop :=
  (∃ s ∈ w.db.sessions, s.id = u ∧ s.state = .opened) ∧
    w.db.objects.get? (r, m.objectOid) = none ∧ ∃ d ∈ m.chunks, (r, d.id) ∈ w.locks

instance (w : Shared) (r u : Uuid) (m : ObjectManifest) : Decidable (PublishWaits w r u m) := by
  unfold PublishWaits; infer_instance

/-- The publishing transaction, the metric and the reply of `upload_basic` and
`finalize_cdc`. -/
def procPublish (w : Shared) (r u : Uuid) (m : ObjectManifest) : Option (Shared × Proc) :=
  if PublishWaits w r u m then none
  else match publishManifest w.db w.clock r u m with
  | .error e => some (w, .done (.failed e))
  | .ok (published, db) =>
    some ({ w with
      db := db
      logicalUploaded := w.logicalUploaded + if published then m.objectSize.toNat else 0 },
      .done .noContent)

/-- One `get_verified` of `finalize_cdc`.
mirrors crates/git-lfs-delta-server/src/lib.rs:1084-1101 -/
def verifyChunk (H : Hashes) (w : Shared) (r : Uuid) (d : ChunkDescriptor) : Except ApiError Bytes :=
  match getVerified H w.store r d.id with
  | .error .notFound => .error ⟨409, "upload is missing chunks"⟩
  | .error e => .error (.storage e)
  | .ok bytes => if bytes.length ≠ d.length.toNat then .error .integrity else .ok bytes

/-- The next step of a process; `none` if it has none, or none now. -/
def procNext (H : Hashes) (w : Shared) : Proc → Choice → Option (Shared × Proc)
  | .probing u _ [] _ missing, .auto => some (w, .done (.plan u missing))
  | .probing u r (c :: cs) index missing, .auto =>
    some (w, .probing u r cs (index + 1)
      (if chunkExists w.store r c then missing else missing ++ [index]))
  | .registering r u d bytes, .auto =>
    if (r, d.id) ∈ w.locks then none
    else match registerChunk w.db r u d with
    | .error e => some (w, .done (.failed e))
    | .ok db => some ({ w with db := db }, .storing r d.id bytes)
  | .storing r c bytes, .auto =>
    match putVerified H w.store r c bytes with
    | .error e => some (w, .done (.failed (.storage e)))
    | .ok store => some ({ w with store := store }, .done .noContent)
  | .basic r u m (chunk :: todo), .auto =>
    if (r, chunk.descriptor.id) ∈ w.locks then none
    else match registerChunk w.db r u chunk.descriptor with
    | .error e => some (w, .done (.failed e))
    | .ok db => some ({ w with db := db }, .basicStoring r u m chunk todo)
  | .basicStoring r u m chunk todo, .auto =>
    match putVerified H w.store r chunk.descriptor.id chunk.data with
    | .error e => some (w, .done (.failed (.storage e)))
    | .ok store => some ({ w with store := store }, .basic r u m todo)
  | .basic r u m [], .auto => procPublish w r u m
  | .verifying r oid u m (d :: todo) hashed, .auto =>
    match verifyChunk H w r d with
    | .error e => some (w, .done (.failed e))
    | .ok bytes => some (w, .verifying r oid u m todo (hashed ++ bytes))
  | .verifying r oid u m [] hashed, .auto =>
    if H.sha256 hashed ≠ oid then some (w, .done (.failed ⟨422, "object SHA-256 mismatch"⟩))
    else procPublish w r u m
  | .staging r seconds candidates _, .auto =>
    match stageTombstones w.clock r seconds candidates w.db with
    | .error e => some (w, .done (.adminFailed (.database e)))
    | .ok db => some ({ w with db := db }, .done (.admin candidates.length))
  | .collecting r n, .tombstone oid =>
    if NextDue w.db w.clock r oid ∧ ∀ o ∈ w.db.chunksOf r oid, (r, o.chunkId) ∉ w.locks then
      match collectObject w.db w.clock r oid with
      | .error e => some (w, .done (.adminFailed (.database e)))
      | .ok db => some ({ w with db := db }, .collecting r (n + 1))
    else none
  | .collecting r n, .auto => if NoneDue w.db w.clock r then some (w, .listing r n) else none
  | .listing r n, .listing entries =>
    if QueueListing w.db r entries then some (w, .draining r (entries.map (·.chunkId)) n) else none
  | .draining _ [] n, .auto => some (w, .done (.admin n))
  | .draining r (c :: todo) n, .auto =>
    if (r, c) ∈ w.locks then none
    else match drainDecision w.db r c with
    | .dequeue => some ({ w with db := w.db.dequeue r c }, .draining r todo n)
    | .keep => some (w, .draining r todo n)
    | .delete => some ({ w with locks := (r, c) :: w.locks }, .deleting r c todo n)
  | .deleting r c todo n, .auto =>
    some ({ w with store := deleteChunk w.store r c }, .deleted r c todo n)
  | .deleted r c todo n, .auto =>
    match drainCommit w.db r c with
    | .error e => some (w.unlock (r, c), .done (.adminFailed (.database e)))
    | .ok db => some ({ w.unlock (r, c) with db := db }, .draining r todo n)
  | _, _ => none

/-- What the environment may do with a process: cut it off, give it a request, or let it
take its next step. -/
inductive Action
  | kill
  | start (request : Request)
  | next (choice : Choice)
  deriving DecidableEq, Repr

def procAct (H : Hashes) (cut : Cutter) (now : Nat) (w : Shared) (q : Proc) :
    Action → Option (Shared × Proc)
  | .kill =>
    match q.held with
    | none => some (w, .stopped)
    | some k => some (w.unlock k, .stopped)
  | .start request => if q.Free then procStart H cut now w request else none
  | .next choice => procNext H w q choice

/-! ## The system -/

structure History where
  /-- Steps so far. -/
  now : Nat
  /-- When the `objects` row appeared. -/
  published : Uuid → ObjectOid → Nat
  /-- When the `reachability_epochs` row appeared. -/
  recorded : Uuid → Nat
  /-- When the `dry_run` behind the tombstone ran. -/
  evidence : Uuid → ObjectOid → Nat

def History.initial : History := ⟨0, fun _ _ => 0, fun _ => 0, fun _ _ => 0⟩

/-- The stamp of key `k` after `t` became `t'`: `new` if its row has just appeared. -/
def stamp {ρ κ : Type} {key : ρ → κ} [DecidableEq κ] (t t' : Table key) (k : κ) (new old : Nat) :
    Nat :=
  if (t.get? k).isNone ∧ (t'.get? k).isSome then new else old

/-- Stamp the rows that are in `db'` and not in `db`; `evidence` is the stamp of new
tombstones. -/
def History.after (h : History) (evidence : Nat) (db db' : Db) : History where
  now := h.now + 1
  published r oid := stamp db.objects db'.objects (r, oid) h.now (h.published r oid)
  recorded e := stamp db.epochs db'.epochs e h.now (h.recorded e)
  evidence r oid := stamp db.tombstones db'.tombstones (r, oid) evidence (h.evidence r oid)

/-- The evidence a process's tombstones rest on. -/
def Proc.evidence : Proc → Nat
  | .staging _ _ _ evidence => evidence
  | _ => 0

structure State (ι : Type) extends Shared where
  procs : ι → Proc
  hist : History

variable {ι : Type} [DecidableEq ι]

def State.initial (clock : Nat) : State ι := ⟨.initial clock, fun _ => .idle, .initial⟩

inductive Label (ι : Type)
  | advance (δ : Nat)
  | act (p : ι) (action : Action)
  deriving DecidableEq, Repr

/-- Process `p` moves to `q`, leaving the shared state `w`. -/
def State.move (s : State ι) (p : ι) (w : Shared) (q : Proc) : State ι :=
  { toShared := w
    procs := Function.update s.procs p q
    hist := s.hist.after (s.procs p).evidence s.db w.db }

def step (H : Hashes) (cut : Cutter) (s : State ι) : Label ι → Option (State ι)
  | .advance δ =>
    some { s with clock := s.clock + δ, hist := s.hist.after 0 s.db s.db }
  | .act p action =>
    (procAct H cut s.hist.now s.toShared (s.procs p) action).map fun (w, q) => s.move p w q

/-- Every interleaving, from an empty database and store. -/
def server (H : Hashes) (cut : Cutter) : LTS (State ι) (Label ι) :=
  LTS.ofFn (fun s => ∃ t, s = .initial t) (step H cut)

/-! ## A client of a one-chunk object -/

namespace Sample

/-- `n` further steps of a process. -/
def run {ι : Type} (p : ι) (n : Nat) : List (Label ι) := List.replicate n (.act p (.next .auto))

/-- Begin, probe, and reply: session `u` for the one-chunk object `b`. -/
def begins {ι : Type} (p : ι) (r u : Uuid) (b : Bytes) : List (Label ι) :=
  .act p (.start (.beginCdc r (hashes.sha256 b) 1 (manifest b) u)) :: run p 2

/-- The `PUT` of its chunk, then `finalize_cdc` up to and including publication. -/
def puts {ι : Type} (p : ι) (r u : Uuid) (b : Bytes) : List (Label ι) :=
  .act p (.start (.uploadCdcChunk r (hashes.sha256 b) u 0 b)) :: run p 2

def finalizes {ι : Type} (p : ι) (r u : Uuid) (b : Bytes) : List (Label ι) :=
  .act p (.start (.finalizeCdc r (hashes.sha256 b) u)) :: run p 2

def uploads {ι : Type} (p : ι) (r u : Uuid) (b : Bytes) : List (Label ι) :=
  begins p r u b ++ puts p r u b ++ finalizes p r u b

end Sample

end GitLfsDelta
