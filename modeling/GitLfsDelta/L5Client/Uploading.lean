import GitLfsDelta.L1Data.Streaming
import GitLfsDelta.L5Client.Download
import GitLfsDelta.L5Client.Upload

/-!
# Uploading an object (`HttpBackend::upload`)

The client makes the manifest in a first pass over the source, asks the server for a plan,
and cuts the source a second time. This producer hands every chunk the plan lists to `n`
workers over a bounded channel and looks for an error of theirs between two chunks; a worker
that gives up on a chunk reports it and stops. When the producer is through, or has seen an
error, it closes the channel, waits for all workers, looks for an error once more, and
finalizes if there is none. The steps of the producer and the workers interleave in every
way; the server, the network and the file system are the environment.

`jobs` is the `crossbeam` channel of capacity `n`: a send waits while it is full and fails when
every receiver is gone, which is when every worker has stopped. `errors` is unbounded. The
source does not change between the two passes; reading it may fail in either.

`UploadLog` is what the server and the caller can see of a call.
-/
namespace GitLfsDelta

/-- mirrors crates/git-lfs-delta-protocol/src/cdc.rs:14-25; nothing here reads the expiry. -/
structure BeginUploadResponse where
  protocolVersion : UInt16
  uploadId : Uuid
  missingChunkIndexes : List UInt32
  deriving DecidableEq, Repr

def BeginUploadResponse.missing (plan : BeginUploadResponse) : List Nat :=
  plan.missingChunkIndexes.map (·.toNat)

def CoreError.text : CoreError → String
  | .chunkTooLarge length => "chunk length " ++ toString length ++ " exceeds the v1 manifest limit"

/-! ## Requests and their attempts -/

/-- After the answer to one attempt: another one, or the result. -/
inductive Attempt (α : Type)
  | again
  | done (result : Except BackendError α)
  deriving DecidableEq

/-- One attempt of a `POST` that is repeated at most twice, on a retryable status or a transport
error. -/
def receivePost {α β : Type} (doing : String) (decode : Except String α → Except BackendError β)
    (attempt : Nat) : Reply α → Attempt β
  | .failed e => if attempt < 2 then .again else .done (.error (failure (doing ++ ": " ++ e)))
  | .response status body =>
    if status.isSuccess then .done (decode body)
    else if retryableStatus status.code ∧ attempt < 2 then .again
    else .done (.error (failure (doing ++ ": HTTP " ++ status.text)))

/-- mirrors crates/git-lfs-delta-client/src/backend.rs:57-91 -/
def beginUpload (attempt : Nat) (reply : Reply BeginUploadResponse) : Attempt BeginUploadResponse :=
  receivePost "could not begin CDC upload" (fun body =>
    match body with
    | .error e => .error (failure ("invalid CDC upload plan: " ++ e))
    | .ok plan => .ok plan) attempt reply

/-- mirrors crates/git-lfs-delta-client/src/backend.rs:93-124, after `child_url` -/
def finalizeUpload (attempt : Nat) (reply : Reply Unit) : Attempt Unit :=
  receivePost "could not finalize CDC upload" (fun _ => .ok ()) attempt reply

/-- The end of an attempt that may be repeated; the third is the last. -/
def nextPut (attempt : Nat) (lastError : String) : Attempt Unit :=
  if attempt + 1 < 3 then .again
  else .done (.error (failure ("chunk upload failed after retries: " ++ lastError)))

/-- One attempt of `upload_chunk_with_retry`.
mirrors crates/git-lfs-delta-client/src/backend.rs:236-263 -/
def uploadChunk (attempt : Nat) : Reply Unit → Attempt Unit
  | .failed e => nextPut attempt e
  | .response status _ =>
    if status.isSuccess then .done (.ok ())
    else if retryableStatus status.code then nextPut attempt ("HTTP " ++ status.text)
    else .done (.error (failure ("chunk upload failed with HTTP " ++ status.text)))

/-! ## The call -/

inductive Producer
  | starting
  | beginning (m : ObjectManifest) (attempt : Nat)
  | reopening (m : ObjectManifest) (plan : BeginUploadResponse)
  /-- The head of the loop, before chunk `index`. -/
  | pulling (stream : ChunkStream) (index : Nat)
  | sending (stream : ChunkStream) (index : Nat) (bytes : Bytes)
  /-- `errors.try_recv()`, after chunk `index`. -/
  | polling (stream : ChunkStream) (index : Nat)
  /-- The channel of jobs is closed; `scope` waits for the workers. -/
  | joining
  | finalizing (attempt : Nat)
  | returned (result : Except BackendError UInt64)
  deriving DecidableEq

/-- A worker thread; `leaving` has reported its error and still holds its ends of the channels. -/
inductive Putter
  | waiting
  | putting (index : Nat) (bytes : Bytes) (attempt : Nat)
  | failing (error : BackendError)
  | leaving
  | stopped
  deriving DecidableEq

structure UploadState (n : Nat) where
  producer : Producer
  /-- The plan the server sent. -/
  plan : Option BeginUploadResponse
  producerError : Option BackendError
  jobs : List (Nat × Bytes)
  jobsOpen : Bool
  errors : List BackendError
  workers : Fin n → Putter

def UploadState.initial (n : Nat) : UploadState n :=
  ⟨.starting, none, none, [], false, [], fun _ => .stopped⟩

variable {n : Nat}

def UploadState.allStopped (s : UploadState n) : Bool := decide (∀ w, s.workers w = .stopped)

def UploadState.fail (s : UploadState n) (e : BackendError) : UploadState n :=
  { s with producer := .returned (.error e) }

/-- The loop is left, with an error or at the end of the source, and `jobs` dropped. -/
def UploadState.close (s : UploadState n) (error : Option BackendError) : UploadState n :=
  { s with producer := .joining, producerError := error, jobsOpen := false }

def UploadState.missing (s : UploadState n) : List Nat :=
  match s.plan with
  | some plan => plan.missing
  | none => []

inductive ProducerEvent
  /-- A step that depends on the channels and workers only. -/
  | go
  /-- `File::open` and the first pass. -/
  | source (opened : Except String Unit) (read : Except String Unit)
  | begun (reply : Reply BeginUploadResponse)
  | reopen (result : Except String Unit)
  /-- The cutter cannot read on. -/
  | unreadable (error : String)
  | finalized (reply : Reply Unit)

/-- The first pass.
mirrors crates/git-lfs-delta-client/src/backend.rs:269-278 -/
def acceptSource (H : Hashes) (cut : Cutter) (source : Bytes) (request : UploadRequest)
    (opened read : Except String Unit) : Except BackendError ObjectManifest :=
  match opened, read with
  | .error e, _ => .error (failure ("could not open upload source: " ++ e))
  | .ok (), .error e => .error (failure ("content-defined chunking failed: " ++ e))
  | .ok (), .ok () =>
    match (ChunkStream.new cut source .fastCdcV1).finish H with
    | .error e => .error (failure e.text)
    | .ok m =>
      if m.objectOid ≠ request.oid ∨ m.objectSize ≠ request.size then
        .error (failure "upload source does not match the Git LFS OID and size")
      else .ok m

/-- The checks of the plan before the source is opened again.
mirrors crates/git-lfs-delta-client/src/backend.rs:284-297 -/
def acceptPlan (m : ObjectManifest) (plan : BeginUploadResponse) : Except BackendError Unit :=
  if plan.protocolVersion ≠ 1 then
    .error (failure "server selected an unsupported CDC protocol version")
  else if plan.missing.any fun index => m.chunks.length ≤ index then
    .error (failure "server upload plan contains a chunk index outside the manifest")
  else .ok ()

/-- The call has passed `thread::scope` without an error of the producer: one of a worker, or
`finalize_upload`.
mirrors crates/git-lfs-delta-client/src/backend.rs:350-353 -/
def UploadState.settle (s : UploadState n) : UploadState n :=
  match s.producerError, s.errors with
  | some e, _ => s.fail e
  | none, e :: rest => { s with errors := rest }.fail e
  | none, [] => { s with producer := .finalizing 0 }

/-- One chunk of the second pass, or its end.
mirrors crates/git-lfs-delta-client/src/backend.rs:330-341 -/
def UploadState.pull (H : Hashes) (s : UploadState n) (stream : ChunkStream) (index : Nat) :
    UploadState n :=
  match stream.next H with
  | (none, _) => s.close none
  | (some (.error e), _) => s.close (some (failure e.text))
  | (some (.ok chunk), stream') =>
    if 2 ^ 32 ≤ index then s.close (some (failure "object has too many chunks"))
    else if index ∈ s.missing then { s with producer := .sending stream' index chunk.data }
    else { s with producer := .polling stream' index }

/-- mirrors crates/git-lfs-delta-client/src/backend.rs:267-356 -/
def producerStep (H : Hashes) (cut : Cutter) (source : Bytes) (urlError : Option String)
    (request : UploadRequest) (s : UploadState n) : Producer → ProducerEvent → Option (UploadState n)
  | .starting, .go =>
    if request.action.isNone then
      some (s.fail (failure "server did not provide a CDC transfer action"))
    else none
  | .starting, .source opened read =>
    if request.action.isNone then none
    else match acceptSource H cut source request opened read with
    | .error e => some (s.fail e)
    | .ok m => some { s with producer := .beginning m 0 }
  | .beginning m attempt, .begun reply =>
    match beginUpload attempt reply with
    | .again => some { s with producer := .beginning m (attempt + 1) }
    | .done (.error e) => some (s.fail e)
    | .done (.ok plan) =>
      match acceptPlan m plan with
      | .error e => some ({ s with plan := some plan }.fail e)
      | .ok () => some { s with plan := some plan, producer := .reopening m plan }
  | .reopening _ plan, .reopen result =>
    match result with
    | .error e => some (s.fail (failure ("could not reopen upload source: " ++ e)))
    | .ok () =>
      if plan.missing.dedup.length ≠ plan.missing.length then
        some (s.fail (failure "server upload plan contains duplicate chunk indexes"))
      else
        some { s with
          producer := .pulling (ChunkStream.new cut source .fastCdcV1) 0
          jobsOpen := true
          workers := fun _ => .waiting }
  | .pulling stream index, .go => some (s.pull H stream index)
  | .pulling _ _, .unreadable e =>
    some (s.close (some (failure ("content-defined chunking failed: " ++ e))))
  | .sending stream index bytes, .go =>
    if s.allStopped then some (s.close (some (failure "chunk upload worker stopped")))
    else if s.jobs.length < n then
      some { s with jobs := s.jobs ++ [(index, bytes)], producer := .polling stream index }
    else none
  | .polling stream index, .go =>
    match s.errors with
    | e :: rest => some ({ s with errors := rest }.close (some e))
    | [] => some { s with producer := .pulling stream (index + 1) }
  | .joining, .go => if s.allStopped then some s.settle else none
  | .finalizing _, .go =>
    match urlError with
    | some e => some (s.fail (failure e))
    | none => none
  | .finalizing attempt, .finalized reply =>
    if urlError.isSome then none
    else match finalizeUpload attempt reply with
    | .again => some { s with producer := .finalizing (attempt + 1) }
    | .done (.error e) => some (s.fail e)
    | .done (.ok ()) => some { s with producer := .returned (.ok request.size) }
  | _, _ => none

/-! ## The workers -/

inductive PutterEvent
  | go
  | reply (reply : Reply Unit)

def Attempt.putter (index : Nat) (bytes : Bytes) (attempt : Nat) : Attempt Unit → Putter
  | .again => .putting index bytes (attempt + 1)
  | .done (.ok ()) => .waiting
  | .done (.error e) => .failing e

/-- mirrors crates/git-lfs-delta-client/src/backend.rs:311-324 -/
def putterStep (urlError : Option String) (s : UploadState n) (w : Fin n) :
    Putter → PutterEvent → Option (UploadState n)
  | .waiting, .go =>
    match s.jobs with
    | (index, bytes) :: rest =>
      some { s with jobs := rest, workers := Function.update s.workers w (.putting index bytes 0) }
    | [] =>
      if s.jobsOpen then none
      else some { s with workers := Function.update s.workers w .stopped }
  | .putting _ _ _, .go =>
    match urlError with
    | some e => some { s with workers := Function.update s.workers w (.failing (failure e)) }
    | none => none
  | .putting index bytes attempt, .reply reply =>
    if urlError.isSome then none
    else some { s with
      workers := Function.update s.workers w ((uploadChunk attempt reply).putter index bytes attempt) }
  | .failing e, .go =>
    some { s with errors := s.errors ++ [e], workers := Function.update s.workers w .leaving }
  | .leaving, .go => some { s with workers := Function.update s.workers w .stopped }
  | _, _ => none

/-! ## The system -/

inductive UploadLabel (n : Nat)
  | producer (event : ProducerEvent)
  | worker (w : Fin n) (event : PutterEvent)

/-- The step function; `childUrl` is what is wrong with an action's `href`, if anything. -/
def uploadStep (H : Hashes) (cut : Cutter) (source : Bytes) (childUrl : String → Option String)
    (request : UploadRequest) (s : UploadState n) : UploadLabel n → Option (UploadState n)
  | .producer event =>
    producerStep H cut source (request.action.bind fun a => childUrl a.href) request s s.producer event
  | .worker w event =>
    putterStep (request.action.bind fun a => childUrl a.href) s w (s.workers w) event

/-- Every interleaving of a call of `upload`, against any server. -/
def upload (H : Hashes) (cut : Cutter) (source : Bytes) (childUrl : String → Option String)
    (request : UploadRequest) (n : Nat) : LTS (UploadState n) (UploadLabel n) :=
  LTS.ofFn (· = .initial n) (uploadStep H cut source childUrl request)

/-! ## What can be seen of a call -/

inductive UploadEvent (n : Nat)
  /-- One exchange of a worker for a chunk, and what it makes of the answer. -/
  | put (w : Fin n) (index : Nat) (bytes : Bytes) (reply : Reply Unit) (next : Attempt Unit)
  /-- A chunk given up without an exchange: there is no URL for it. -/
  | unsendable (w : Fin n) (index : Nat) (error : BackendError)
  /-- `finalize_upload` is called. -/
  | finalize
  | finalized (reply : Reply Unit) (next : Attempt Unit)

abbrev UploadLog (n : Nat) := List (UploadEvent n)

def uploadEvent (s : UploadState n) (l : UploadLabel n) (s' : UploadState n) : Option (UploadEvent n) :=
  match l with
  | .producer .go =>
    match s.producer, s'.producer with
    | .joining, .finalizing _ => some .finalize
    | _, _ => none
  | .producer (.finalized reply) =>
    match s.producer with
    | .finalizing attempt => some (.finalized reply (finalizeUpload attempt reply))
    | _ => none
  | .producer _ => none
  | .worker w (.reply reply) =>
    match s.workers w with
    | .putting index bytes attempt => some (.put w index bytes reply (uploadChunk attempt reply))
    | _ => none
  | .worker w .go =>
    match s.workers w, s'.workers w with
    | .putting index _ _, .failing e => some (.unsendable w index e)
    | _, _ => none

end GitLfsDelta
