import GitLfsDelta.Core.LTS
import GitLfsDelta.L1Data.ChunkStream
import GitLfsDelta.L5Client.Backend

/-!
# Downloading an object (`HttpBackend::download`)

The coordinator fetches and checks the manifest, hands descriptors to `n` workers over a
bounded channel, receives chunks over another in whatever order the workers finish, writes
them to a temporary file in manifest order and finally compares the SHA-256 of what it
wrote. Its steps and those of the workers interleave in every way; the server, the file
system and the other users of the cache are the environment.

`jobs` and `completed` are the two `crossbeam` channels, both of capacity `n`: a send waits
while the channel is full and fails when nobody can receive. The channel of jobs closes
when the closure of `thread::scope` returns; workers still take what is queued, and
`scope` waits for all of them. `temporary` is the `NamedTempFile`: it is removed when it is
dropped, which is on every return but the one after `keep`.

`download_integrity`: what a call that returns `Ok` leaves at the path is the requested
object, put together from checked chunks; a call that returns `Err` leaves no file; and
every published cache entry has the identity it is named after.
-/
namespace GitLfsDelta

structure TempFile where
  path : Bytes
  content : Bytes
  deriving DecidableEq, Repr

/-- The locals of the loops; `pending` is the `BTreeMap` of chunks that came early. -/
structure Progress where
  manifest : ObjectManifest
  nextScheduled : Nat
  nextWrite : Nat
  pending : Nat → Option Bytes

inductive Coordinator
  | starting
  | creating (m : ObjectManifest)
  /-- The first `while`, which fills the channel of jobs. -/
  | priming (p : Progress)
  /-- The head of the outer loop. -/
  | receiving (p : Progress)
  /-- The head of the inner loop, and the send after a write. -/
  | draining (p : Progress)
  | scheduling (p : Progress)
  /-- The closure has returned; `scope` waits for the workers. -/
  | joining (m : ObjectManifest) (result : Except BackendError Unit)
  | finishing (m : ObjectManifest)
  | returned (result : Except BackendError DownloadResult)

inductive Worker
  | waiting
  | fetching (index : Nat) (d : ChunkDescriptor) (f : Fetch)
  | sending (index : Nat) (result : Except BackendError Bytes)
  | stopped

structure Pipeline (n : Nat) where
  coordinator : Coordinator
  jobs : List (Nat × ChunkDescriptor)
  jobsOpen : Bool
  completed : List (Nat × Except BackendError Bytes)
  workers : Fin n → Worker
  temporary : Option TempFile
  /-- The manifest the server sent, once it is accepted. -/
  served : Option ObjectManifest
  /-- What the SHA-256 hasher has consumed. -/
  hashed : Bytes
  cache : Cache
  /-- Ghost: the cache entries published so far. -/
  published : List (ChunkId × Bytes)

def Pipeline.initial (n : Nat) (cache : Cache) : Pipeline n :=
  ⟨.starting, [], false, [], fun _ => .stopped, none, none, [], cache, []⟩

variable {n : Nat}

def Worker.isStopped : Worker → Bool
  | .stopped => true
  | _ => false

def Pipeline.allStopped (s : Pipeline n) : Bool := decide (∀ i, (s.workers i).isStopped = true)

/-- `return Err(..)` from `download`: the temporary file is dropped. -/
def Pipeline.fail (s : Pipeline n) (e : BackendError) : Pipeline n :=
  { s with coordinator := .returned (.error e), temporary := none }

/-- The closure of `thread::scope` returns; its end of the channel of jobs is dropped. -/
def Pipeline.leave (s : Pipeline n) (m : ObjectManifest) (result : Except BackendError Unit) :
    Pipeline n :=
  { s with coordinator := .joining m result, jobsOpen := false }

/-- `jobs.send((next_scheduled, manifest.chunks[next_scheduled].clone()))` and the increment,
then on to `next`. -/
def Pipeline.schedule (s : Pipeline n) (p : Progress) (next : Progress → Coordinator) :
    Option (Pipeline n) :=
  match p.manifest.chunks[p.nextScheduled]? with
  | none => none
  | some d =>
    if s.allStopped then
      some (s.leave p.manifest (.error (failure "chunk download worker stopped")))
    else if s.jobs.length < n then
      some { s with
        jobs := s.jobs ++ [(p.nextScheduled, d)]
        coordinator := next { p with nextScheduled := p.nextScheduled + 1 } }
    else none

/-! ## The coordinator -/

inductive CoordinatorEvent
  /-- A step that depends on the channels and workers only. -/
  | go
  | manifest (reply : Reply ObjectManifest)
  | create (directory : Except String Unit) (file : Except String Bytes)
  | write (result : Except String Unit)
  | keep (result : Except String Unit)

/-- The answer to the first request, up to the comparison with the request. (Where the answer comes
from another URL than the action's, after a redirect, its text has that one.)
mirrors crates/git-lfs-delta-client/src/backend.rs:359-375 -/
def acceptManifest (request : DownloadRequest) : Reply ObjectManifest →
    Except BackendError ObjectManifest
  | .failed e => .error (failure ("could not fetch CDC manifest: " ++ e))
  | .response status body =>
    if status.isError then
      .error (failure ("could not fetch CDC manifest: " ++
        status.errorText (request.action.elim "" TransferAction.href)))
    else match body with
    | .error e => .error (failure ("invalid CDC manifest: " ++ e))
    | .ok m =>
      match m.validate with
      | .error e => .error (failure ("invalid CDC manifest: " ++ e.text))
      | .ok () =>
        if m.objectOid ≠ request.oid ∨ m.objectSize ≠ request.size then
          .error (failure "server manifest does not match the requested Git LFS object")
        else .ok m

/-- mirrors crates/git-lfs-delta-client/src/backend.rs:358-434 -/
def coordinatorStep (H : Hashes) (request : DownloadRequest) (s : Pipeline n) :
    Coordinator → CoordinatorEvent → Option (Pipeline n)
  | .starting, .go =>
    if request.action.isNone then
      some (s.fail (failure "server did not provide a CDC transfer action"))
    else none
  | .starting, .manifest reply =>
    if request.action.isNone then none
    else match acceptManifest request reply with
    | .error e => some (s.fail e)
    | .ok m => some { s with coordinator := .creating m, served := some m }
  | .creating m, .create directory file =>
    match directory, file with
    | .error e, _ => some (s.fail (failure ("could not create cache root: " ++ e)))
    | .ok (), .error e => some (s.fail (failure ("could not create download file: " ++ e)))
    | .ok (), .ok path =>
      some { s with
        coordinator := .priming ⟨m, 0, 0, fun _ => none⟩
        temporary := some ⟨path, []⟩
        hashed := []
        jobs := []
        jobsOpen := true
        completed := []
        workers := fun _ => .waiting }
  | .priming p, .go =>
    if p.nextScheduled < p.manifest.chunks.length ∧ p.nextScheduled < n then s.schedule p .priming
    else some { s with coordinator := .receiving p }
  | .receiving p, .go =>
    if p.nextWrite < p.manifest.chunks.length then
      match s.completed with
      | [] =>
        if s.allStopped then
          some (s.leave p.manifest (.error (failure "chunk download worker stopped")))
        else none
      | (_, .error e) :: rest => some ({ s with completed := rest }.leave p.manifest (.error e))
      | (index, .ok bytes) :: rest =>
        some { s with
          completed := rest
          coordinator := .draining { p with pending := Function.update p.pending index (some bytes) } }
    else some (s.leave p.manifest (.ok ()))
  | .draining p, .write result =>
    match p.pending p.nextWrite, s.temporary with
    | some bytes, some file =>
      match result with
      | .error e =>
        some (s.leave p.manifest (.error (failure ("could not reconstruct download: " ++ e))))
      | .ok () =>
        let p' := { p with
          nextWrite := p.nextWrite + 1
          pending := Function.update p.pending p.nextWrite none }
        some { s with
          hashed := s.hashed ++ bytes
          temporary := some { file with content := file.content ++ bytes }
          coordinator := if p.nextScheduled < p.manifest.chunks.length then .scheduling p'
            else .draining p' }
    | _, _ => none
  | .draining p, .go =>
    if (p.pending p.nextWrite).isNone then some { s with coordinator := .receiving p } else none
  | .scheduling p, .go => s.schedule p .draining
  | .joining m result, .go =>
    if s.allStopped then
      match result with
      | .error e => some (s.fail e)
      | .ok () => some { s with coordinator := .finishing m }
    else none
  | .finishing _, .keep result =>
    if H.sha256 s.hashed ≠ request.oid then
      some (s.fail (failure "reconstructed download failed SHA-256 validation"))
    else match result, s.temporary with
    | .error e, _ => some (s.fail (failure ("could not retain completed download: " ++ e)))
    | .ok (), some file => some { s with coordinator := .returned (.ok ⟨file.path, request.size⟩) }
    | .ok (), none => none
  | _, _ => none

/-! ## The workers -/

inductive WorkerEvent
  /-- A step that depends on the channels only. -/
  | go
  | fetch (event : FetchEvent)

/-- mirrors crates/git-lfs-delta-client/src/backend.rs:387-394 -/
def workerStep (H : Hashes) (urlError : Option String) (s : Pipeline n) (i : Fin n) :
    Worker → WorkerEvent → Option (Pipeline n)
  | .waiting, .go =>
    match s.jobs with
    | (index, d) :: rest =>
      some { s with jobs := rest, workers := Function.update s.workers i (.fetching index d .reading) }
    | [] =>
      if s.jobsOpen then none
      else some { s with workers := Function.update s.workers i .stopped }
  | .fetching index d f, .fetch event =>
    match fetchStep H urlError s.cache d f event with
    | none => none
    | some (cache, published, next) =>
      some { s with
        cache := cache
        published := published.toList ++ s.published
        workers := Function.update s.workers i (match next with
          | .go f => .fetching index d f
          | .done result => .sending index result) }
  | .sending index result, .go =>
    if s.completed.length < n then
      some { s with
        completed := s.completed ++ [(index, result)]
        workers := Function.update s.workers i .waiting }
    else none
  | _, _ => none

/-! ## The system -/

inductive DownloadEvent (n : Nat)
  /-- Another program changes the cache. -/
  | disk (cache : Cache)
  | coordinator (event : CoordinatorEvent)
  | worker (i : Fin n) (event : WorkerEvent)

/-- The step function; `childUrl` is what is wrong with an action's `href`, if anything. -/
def downloadStep (H : Hashes) (childUrl : String → Option String) (request : DownloadRequest)
    (s : Pipeline n) : DownloadEvent n → Option (Pipeline n)
  | .disk cache => some { s with cache := cache }
  | .coordinator event => coordinatorStep H request s s.coordinator event
  | .worker i event =>
    workerStep H (request.action.bind fun a => childUrl a.href) s i (s.workers i) event

/-- Every interleaving of a call of `download`, on any cache, against any server. -/
def download (H : Hashes) (childUrl : String → Option String) (request : DownloadRequest) (n : Nat) :
    LTS (Pipeline n) (DownloadEvent n) :=
  LTS.ofFn (fun s => ∃ cache, s = .initial n cache) (downloadStep H childUrl request)

end GitLfsDelta
