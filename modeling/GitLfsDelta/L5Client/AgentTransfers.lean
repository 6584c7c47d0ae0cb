import GitLfsDelta.L5Client.Integrity
import GitLfsDelta.L5Client.TransferProtocol
import GitLfsDelta.L5Client.UploadOutcome

/-!
# The transfer agent over the HTTP backend

`TransferBackend.Runs`: the agent's backend is the client, so that a call returns what some order of
its threads' steps, and some answers of the server, make it return. `agent_transfers`: what such an
agent reports to Git LFS as complete was downloaded or uploaded.
-/
namespace GitLfsDelta
namespace Transfer

/-- Every call of `backend` is one of the client with `n` workers; `files` are the contents of the
paths at the time of a call. -/
structure TransferBackend.Runs (H : Hashes) (cut : Cutter) (childUrl : String → Option String) (n : Nat)
    (files : List Request → Bytes → Bytes) (backend : TransferBackend) : Prop where
  upload : ∀ before request, ∃ s : UploadState n,
    (GitLfsDelta.upload H cut (files before request.path) childUrl request n).Reachable s ∧
      s.producer = .returned (backend.upload before request)
  download : ∀ before request, ∃ s : Pipeline n,
    (GitLfsDelta.download H childUrl request n).Reachable s ∧
      s.coordinator = .returned (backend.download before request)

/-- A call of the client has put the object of `request` into `file`. -/
structure Downloaded (H : Hashes) (childUrl : String → Option String) (n : Nat) (request : DownloadRequest)
    (file : TempFile) : Prop where
  run : ∃ s : Pipeline n, (GitLfsDelta.download H childUrl request n).Reachable s ∧ s.temporary = some file
  oid : H.sha256 file.content = request.oid
  size : file.content.length = request.size.toNat

/-- A call of the client with `source` has delivered every chunk that the server missed, and then
finalized the upload. -/
def Uploaded (H : Hashes) (cut : Cutter) (childUrl : String → Option String) (n : Nat) (source : Bytes)
    (request : UploadRequest) : Prop :=
  ∃ (s : UploadState n) (log : UploadLog n),
    ((GitLfsDelta.upload H cut source childUrl request n).record uploadEvent).Reachable (s, log) ∧
      ∃ status body, status.isSuccess = true ∧
        Finalized (cut source) s.missing log [.finalized (.response status body) (.done (.ok ()))]

variable {H : Hashes} {cut : Cutter} {childUrl : String → Option String} {n : Nat}
  {files : List Request → Bytes → Bytes} {backend : TransferBackend}

theorem TransferBackend.Runs.downloaded (h : backend.Runs H cut childUrl n files) {before : List Request}
    {request : DownloadRequest} {result : DownloadResult}
    (hresult : backend.download before request = .ok result) :
    ∃ file, Downloaded H childUrl n request file ∧ file.path = result.path := by
  obtain ⟨s, hs, hret⟩ := h.download before request
  have hok := ((download_inv H childUrl request n).reachable hs).coordinator
  rw [hret, hresult] at hok
  obtain ⟨m, ⟨hacc, ⟨file, hfile, hcontent⟩, hasm⟩, hsha, hpath⟩ := hok
  rw [List.take_length] at hasm
  rw [← hcontent] at hasm hsha
  rw [hfile, Option.map_some, Option.some.injEq] at hpath
  refine ⟨file, ⟨⟨s, hs, hfile⟩, hsha, ?_⟩, hpath⟩
  rw [hasm.length, (validate_ok hacc.valid).1, hacc.size]

theorem TransferBackend.Runs.uploaded (h : backend.Runs H cut childUrl n files) (hn : 0 < n)
    {before : List Request} {request : UploadRequest} {size : UInt64}
    (hresult : backend.upload before request = .ok size) :
    size = request.size ∧ Uploaded H cut childUrl n (files before request.path) request := by
  obtain ⟨s, hs, hret⟩ := h.upload before request
  obtain ⟨log, hlog⟩ := hs.record uploadEvent
  have houtcome : s.producer.Outcome (cut (files before request.path)) request s.missing log :=
    ((upload_inv H cut _ childUrl request hn).reachable hlog).outcome
  rw [hret, hresult] at houtcome
  exact ⟨houtcome.1, s, log, hlog, houtcome.2⟩

/-- One transfer: the call of the backend, and the replies to its result. -/
def reported (request : Request) (result : Except BackendError (UInt64 × Option Text)) : List Event :=
  .call request :: (replies request.oid result).map fun reply => .write (jsonLine reply.toJson)

theorem answerAt_transfer {toStringLossy : Bytes → Text} {inputs : List (Option InputMessage)} {i : Nat}
    {m : InputMessage} (hm : inputs[i]? = some (some m)) {request : Request}
    (hrequest : m.request? = some request) :
    answerAt backend toStringLossy inputs i =
      reported request (backend.perform toStringLossy (requests (inputs.take i)) request) := by
  simp only [answerAt, hm, answer, hrequest, reported]

/-- **What the agent reports is so.** The replies to a transfer say that it failed, or the client has
done it: for a download the file they name has the object, for an upload every missing chunk was
delivered and the upload was finalized after that. -/
theorem agent_transfers (h : backend.Runs H cut childUrl n files) (hn : 0 < n)
    (decode : Text → Option InputMessage) (toStringLossy : Bytes → Text) (lines : List Text) :
    ∃ k ≤ lines.length, (runTransferProtocol decode backend toStringLossy lines).2 =
        (List.range k).flatMap (answerAt backend toStringLossy (lines.map decode)) ∧
      ∀ i < k,
        (∀ request, (lines.map decode)[i]? = some (some (.download request)) →
          (∃ e, answerAt backend toStringLossy (lines.map decode) i =
            reported (.download request) (.error e)) ∨
          ∃ bytes file, Downloaded H childUrl n request file ∧
            answerAt backend toStringLossy (lines.map decode) i =
              reported (.download request) (.ok (bytes, some (toStringLossy file.path)))) ∧
        ∀ request, (lines.map decode)[i]? = some (some (.upload request)) →
          (∃ e, answerAt backend toStringLossy (lines.map decode) i =
            reported (.upload request) (.error e)) ∨
          Uploaded H cut childUrl n (files (requests ((lines.map decode).take i)) request.path) request ∧
            answerAt backend toStringLossy (lines.map decode) i =
              reported (.upload request) (.ok (request.size, none)) := by
  have hstart : Agent.Follows backend toStringLossy (lines.map decode) 0 ⟨false, []⟩ :=
    ⟨by simp, rfl, rfl⟩
  obtain ⟨k, hk, -, -, hlog, -⟩ := Agent.run_spec lines [] ⟨false, []⟩ rfl hstart
  refine ⟨k, hk, hlog, fun i _ => ⟨fun request hi => ?_, fun request hi => ?_⟩⟩
  · rw [answerAt_transfer hi rfl, TransferBackend.perform]
    cases hresult : backend.download (requests ((lines.map decode).take i)) request with
    | error e => exact .inl ⟨e, rfl⟩
    | ok result =>
      obtain ⟨file, hfile, hpath⟩ := h.downloaded hresult
      exact .inr ⟨result.bytesTransferred, file, hfile, by rw [hpath]; rfl⟩
  · rw [answerAt_transfer hi rfl, TransferBackend.perform]
    cases hresult : backend.upload (requests ((lines.map decode).take i)) request with
    | error e => exact .inl ⟨e, rfl⟩
    | ok size =>
      obtain ⟨rfl, hdone⟩ := h.uploaded hn hresult
      exact .inr ⟨hdone, rfl⟩

end Transfer
end GitLfsDelta
