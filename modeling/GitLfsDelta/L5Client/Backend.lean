import GitLfsDelta.Core.Text
import GitLfsDelta.L1Data.Manifest

/-!
# Fetching one chunk (`HttpBackend::read_or_fetch_chunk`)

What the transfer agent asks of a backend and gets from it, the parts of the HTTP backend that
both directions use, and the worker's function: take a
chunk from the local cache if it is what its descriptor says, otherwise drop the entry,
fetch the chunk with up to three attempts, check it, and publish it in the cache.

Each step is one file-system call or one HTTP exchange; its outcome is an event of the
environment. The server may answer anything, and other programs may change the cache
between two steps. The texts of file-system and transport errors come with the event.

`fetchStep_spec`: whatever is returned as a chunk, or published in the cache, has the
length and the BLAKE3 identity of the descriptor.
-/
namespace GitLfsDelta

/-- mirrors crates/git-lfs-delta-client/src/transfer.rs:10-18; the backend sends the headers along. -/
structure TransferAction where
  href : String
  header : List (Text × Text)
  deriving DecidableEq, Repr

/-- A path is the bytes of its name.
mirrors crates/git-lfs-delta-client/src/transfer.rs:20-31 -/
structure UploadRequest where
  oid : ObjectOid
  size : UInt64
  path : Bytes
  action : Option TransferAction
  deriving DecidableEq, Repr

/-- mirrors crates/git-lfs-delta-client/src/transfer.rs:33-42 -/
structure DownloadRequest where
  oid : ObjectOid
  size : UInt64
  action : Option TransferAction
  deriving DecidableEq, Repr

/-- mirrors crates/git-lfs-delta-client/src/transfer.rs:44-51 -/
structure DownloadResult where
  path : Bytes
  bytesTransferred : UInt64
  deriving DecidableEq, Repr

/-- mirrors crates/git-lfs-delta-client/src/transfer.rs:53-61 -/
structure BackendError where
  code : Int
  message : String
  deriving DecidableEq, Repr

/-- mirrors crates/git-lfs-delta-client/src/backend.rs:454-456 -/
def failure (message : String) : BackendError := ⟨1, message⟩

/-- An HTTP status and what `Display` prints for it. -/
structure StatusCode where
  code : Nat
  text : String
  deriving DecidableEq, Repr

def StatusCode.isSuccess (s : StatusCode) : Bool := 200 ≤ s.code ∧ s.code < 300

/-- What `error_for_status` rejects. -/
def StatusCode.isError (s : StatusCode) : Bool := 400 ≤ s.code ∧ s.code < 600

/-- What `Display` prints for the error that `error_for_status` makes of an answer from `url`. -/
def StatusCode.errorText (s : StatusCode) (url : String) : String :=
  (if s.code < 500 then "HTTP status client error (" else "HTTP status server error (") ++ s.text ++
    ") for url (" ++ url ++ ")"

/-- mirrors crates/git-lfs-delta-client/src/backend.rs:458-462 -/
def retryableStatus (status : Nat) : Bool := status = 408 ∨ status = 429 ∨ 500 ≤ status ∧ status < 600

/-- The outcome of one exchange: a transport error, or a response whose body may be
unreadable. -/
inductive Reply (α : Type)
  | failed (error : String)
  | response (status : StatusCode) (body : Except String α)

/-- mirrors crates/git-lfs-delta-client/src/backend.rs:437-440 -/
def validChunk (H : Hashes) (bytes : Bytes) (d : ChunkDescriptor) : Bool :=
  bytes.length = d.length.toNat ∧ H.blake3 bytes = d.id

theorem validChunk_iff {H : Hashes} {b : Bytes} {d : ChunkDescriptor} :
    validChunk H b d = true ↔ b.length = d.length.toNat ∧ H.blake3 b = d.id := by
  simp [validChunk]

/-- The files `chunks/xx/<digest>` below the cache root; the path is a function of the
digest.
mirrors crates/git-lfs-delta-client/src/backend.rs:135-140 -/
abbrev Cache := ChunkId → Option Bytes

/-! ## The function -/

/-- Where a call of `read_or_fetch_chunk` is. -/
inductive Fetch
  | reading
  | removing
  | requesting (attempt : Nat)
  | publishing (bytes : Bytes)
  deriving DecidableEq, Repr

/-- How the publication of a cache entry ends: at the directory, at the temporary file, at
the write, or with `persist_noclobber`. -/
inductive Persist
  | directory (error : String)
  | temporary (error : String)
  | write (error : String)
  | published
  | alreadyExists
  | failed (error : String)
  deriving DecidableEq, Repr

inductive FetchEvent
  /-- `fs::read`, of a file that may be there and unreadable. -/
  | read (readable : Bool)
  | remove (result : Except String Unit)
  | reply (reply : Reply Bytes)
  | persist (result : Persist)

/-- A call goes on, or returns. -/
inductive FetchNext
  | go (f : Fetch)
  | done (result : Except BackendError Bytes)

/-- After the cache: the URL of the chunk and the first attempt. `urlError` is the failure
of `child_url` on the action's `href`, if it fails. -/
def startRequests (urlError : Option String) : FetchNext :=
  match urlError with
  | some e => .done (.error (failure e))
  | none => .go (.requesting 0)

/-- The end of one attempt that may be repeated; the third is the last. -/
def nextAttempt (attempt : Nat) (lastError : String) : FetchNext :=
  if attempt + 1 < 3 then .go (.requesting (attempt + 1))
  else .done (.error (failure ("chunk download failed after retries: " ++ lastError)))

/-- The answer to one attempt.
mirrors crates/git-lfs-delta-client/src/backend.rs:163-206 -/
def receiveChunk (H : Hashes) (d : ChunkDescriptor) (attempt : Nat) : Reply Bytes → FetchNext
  | .failed e => nextAttempt attempt e
  | .response status body =>
    if status.isSuccess then
      match body with
      | .error e => .done (.error (failure ("could not read chunk response: " ++ e)))
      | .ok bytes =>
        if validChunk H bytes d then .go (.publishing bytes)
        else .done (.error (failure "downloaded chunk failed length or BLAKE3 validation"))
    else if retryableStatus status.code then nextAttempt attempt ("HTTP " ++ status.text)
    else .done (.error (failure ("chunk download failed with HTTP " ++ status.text)))

/-- One step of `read_or_fetch_chunk`: the cache it leaves, what it published there, and how
the call goes on. `persist_noclobber` publishes only under a free name, and
`remove_file` removes only a file that is there.
mirrors crates/git-lfs-delta-client/src/backend.rs:142-223 -/
def fetchStep (H : Hashes) (urlError : Option String) (cache : Cache) (d : ChunkDescriptor) :
    Fetch → FetchEvent → Option (Cache × Option (ChunkId × Bytes) × FetchNext)
  | .reading, .read readable =>
    match cache d.id with
    | some bytes =>
      if readable then
        if validChunk H bytes d then some (cache, none, .done (.ok bytes))
        else some (cache, none, .go .removing)
      else some (cache, none, startRequests urlError)
    | none => some (cache, none, startRequests urlError)
  | .removing, .remove (.error e) =>
    some (cache, none, .done (.error (failure ("could not remove corrupt cache entry: " ++ e))))
  | .removing, .remove (.ok ()) =>
    if (cache d.id).isSome then
      some (Function.update cache d.id none, none, startRequests urlError)
    else none
  | .requesting attempt, .reply reply => some (cache, none, receiveChunk H d attempt reply)
  | .publishing bytes, .persist result =>
    match result with
    | .directory e => some (cache, none, .done (.error (failure ("could not create chunk cache: " ++ e))))
    | .temporary e =>
      some (cache, none, .done (.error (failure ("could not create cache temporary file: " ++ e))))
    | .write e => some (cache, none, .done (.error (failure ("could not write cache entry: " ++ e))))
    | .failed e => some (cache, none, .done (.error (failure ("could not publish cache entry: " ++ e))))
    | .alreadyExists => if (cache d.id).isSome then some (cache, none, .done (.ok bytes)) else none
    | .published =>
      if (cache d.id).isNone then
        some (Function.update cache d.id (some bytes), some (d.id, bytes), .done (.ok bytes))
      else none
  | _, _ => none

/-! ## What it lets through -/

/-- A call may publish only a chunk it has checked. -/
def Fetch.Ok (H : Hashes) (d : ChunkDescriptor) : Fetch → Prop
  | .publishing bytes => validChunk H bytes d = true
  | _ => True

/-- A call goes on in order, or returns a chunk that matches its descriptor. -/
def FetchNext.Ok (H : Hashes) (d : ChunkDescriptor) : FetchNext → Prop
  | .go f => f.Ok H d
  | .done (.ok bytes) => validChunk H bytes d = true
  | .done (.error _) => True

variable {H : Hashes} {d : ChunkDescriptor}

theorem startRequests_ok (urlError : Option String) : (startRequests urlError).Ok H d := by
  cases urlError <;> trivial

theorem nextAttempt_ok (attempt : Nat) (e : String) : (nextAttempt attempt e).Ok H d := by
  unfold nextAttempt
  split <;> trivial

theorem receiveChunk_ok (attempt : Nat) (reply : Reply Bytes) :
    (receiveChunk H d attempt reply).Ok H d := by
  cases reply with
  | failed e => exact nextAttempt_ok attempt e
  | response status body =>
    unfold receiveChunk
    simp only
    split
    · cases body with
      | error e => trivial
      | ok bytes =>
        simp only
        split
        · rename_i hv; exact hv
        · trivial
    · split
      · exact nextAttempt_ok attempt _
      · trivial

/-- **Every path of `read_or_fetch_chunk` checks the chunk**: what a step returns, and what
it publishes under the descriptor's name, matches the descriptor. -/
theorem fetchStep_spec {urlError : Option String} {cache cache' : Cache} {f : Fetch} {e : FetchEvent}
    {published : Option (ChunkId × Bytes)} {next : FetchNext} (hf : f.Ok H d)
    (h : fetchStep H urlError cache d f e = some (cache', published, next)) :
    next.Ok H d ∧ ∀ p ∈ published, H.blake3 p.2 = p.1 := by
  unfold fetchStep at h
  split at h
  · -- a cached file is returned only if it is valid
    split at h
    · split at h
      · split at h
        · rename_i hv
          cases h; exact ⟨hv, nofun⟩
        · cases h; exact ⟨trivial, nofun⟩
      · cases h; exact ⟨startRequests_ok _, nofun⟩
    · cases h; exact ⟨startRequests_ok _, nofun⟩
  · cases h; exact ⟨trivial, nofun⟩
  · split at h
    · cases h; exact ⟨startRequests_ok _, nofun⟩
    · cases h
  · cases h; exact ⟨receiveChunk_ok _ _, nofun⟩
  · split at h
    all_goals first
      | (cases h; exact ⟨trivial, nofun⟩)
      | skip
    · split at h
      · cases h; exact ⟨hf, nofun⟩
      · cases h
    · split at h
      · cases h
        refine ⟨hf, fun p hp => ?_⟩
        cases hp
        exact (validChunk_iff.1 hf).2
      · cases h
  · cases h

end GitLfsDelta
