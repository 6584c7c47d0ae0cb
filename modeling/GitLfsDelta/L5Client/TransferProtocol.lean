import GitLfsDelta.Core.Json
import GitLfsDelta.L3Server.Digests
import GitLfsDelta.L5Client.Backend

/-!
# The transfer agent (`git-lfs-delta-client/src/transfer.rs`)

Git LFS writes one message a line and waits for the completion of each transfer it asked for.
`runTransferProtocol` reads the lines, calls the backend and writes the answers; reads and writes
succeed. How a line is decoded is a parameter, and so is what the backend returns, which may
depend on all it was asked before.

* `Agent.handle_go`, `Agent.handle_end`: one message, of an agent that has answered those before
  it.
* `transfer_transcript`: the answers are those of the messages before the first that ends the run,
  each as if it stood alone; how the run ends; and the calls of the backend.
-/
namespace GitLfsDelta

namespace Transfer

inductive Request
  | upload (request : UploadRequest)
  | download (request : DownloadRequest)
  deriving DecidableEq, Repr

def Request.oid : Request → ObjectOid
  | .upload request => request.oid
  | .download request => request.oid

/-- A backend, with the requests it has had as a further argument.
mirrors crates/git-lfs-delta-client/src/transfer.rs:75-89 -/
structure TransferBackend where
  upload : List Request → UploadRequest → Except BackendError UInt64
  download : List Request → DownloadRequest → Except BackendError DownloadResult

/-- The fields of `init` are read by nothing.
mirrors crates/git-lfs-delta-client/src/transfer.rs:93-113 -/
inductive InputMessage
  | init
  | upload (request : UploadRequest)
  | download (request : DownloadRequest)
  | terminate
  deriving DecidableEq, Repr

/-- mirrors crates/git-lfs-delta-client/src/transfer.rs:117-132 -/
inductive OutputMessage
  | progress (oid : ObjectOid) (bytesSoFar bytesSinceLast : UInt64)
  | complete (oid : ObjectOid) (path : Option Text) (error : Option BackendError)
  deriving DecidableEq, Repr

/-- mirrors crates/git-lfs-delta-client/src/transfer.rs:134-138 -/
def wireError (e : BackendError) : Json :=
  .obj [("code".toList, .num e.code), ("message".toList, .str e.message.toList)]

def OutputMessage.toJson : OutputMessage → Json
  | .progress oid bytesSoFar bytesSinceLast =>
    .obj [("event".toList, .str "progress".toList), ("oid".toList, .str oid.toText),
      ("bytesSoFar".toList, .num bytesSoFar.toNat), ("bytesSinceLast".toList, .num bytesSinceLast.toNat)]
  | .complete oid path error =>
    .obj ([("event".toList, .str "complete".toList), ("oid".toList, .str oid.toText)] ++
      (path.map fun p => ("path".toList, Json.str p)).toList ++
      (error.map fun e => ("error".toList, wireError e)).toList)

/-- The failures of a run whose reads and writes succeed.
mirrors crates/git-lfs-delta-client/src/transfer.rs:142-158 -/
inductive TransferProtocolError
  | decode
  | notInitialized
  | alreadyInitialized
  deriving DecidableEq, Repr

/-! ## The agent -/

/-- What the run does: it calls the backend and writes to its output. -/
inductive Event
  | call (request : Request)
  | write (text : Text)
  deriving DecidableEq, Repr

def Event.request? : Event → Option Request
  | .call request => some request
  | .write _ => none

structure Agent where
  initialized : Bool
  log : List Event
  deriving DecidableEq, Repr

def Agent.calls (s : Agent) : List Request := s.log.filterMap Event.request?

/-- mirrors crates/git-lfs-delta-client/src/transfer.rs:258-269 -/
def jsonLine (v : Json) : Text := v.compact ++ ['\n']

def Agent.writeJsonLine (s : Agent) (v : Json) : Agent := { s with log := s.log ++ [.write (jsonLine v)] }

/-- mirrors crates/git-lfs-delta-client/src/transfer.rs:224-237 -/
def Agent.emitProgress (s : Agent) (oid : ObjectOid) (bytes : UInt64) : Agent :=
  s.writeJsonLine (OutputMessage.progress oid bytes bytes).toJson

/-- mirrors crates/git-lfs-delta-client/src/transfer.rs:239-256 -/
def Agent.emitComplete (s : Agent) (oid : ObjectOid) (path : Option Text) (error : Option BackendError) :
    Agent :=
  s.writeJsonLine (OutputMessage.complete oid path error).toJson

/-- mirrors crates/git-lfs-delta-client/src/transfer.rs:216-222 -/
def requireInitialized (initialized : Bool) : Except TransferProtocolError Unit :=
  if initialized then .ok () else .error .notInitialized

def Agent.call (s : Agent) (request : Request) : Agent := { s with log := s.log ++ [.call request] }

section

variable (decode : Text → Option InputMessage) (backend : TransferBackend)
  (toStringLossy : Bytes → Text)

/-- One message: the agent goes on, or the run ends.
mirrors crates/git-lfs-delta-client/src/transfer.rs:181-211 -/
def Agent.handle (s : Agent) : InputMessage → Agent ⊕ Except TransferProtocolError Unit
  | .init =>
    if s.initialized then .inr (.error .alreadyInitialized)
    else .inl ({ s with initialized := true }.writeJsonLine (.obj []))
  | .upload request =>
    match requireInitialized s.initialized with
    | .error e => .inr (.error e)
    | .ok () =>
      match backend.upload s.calls request with
      | .ok bytes =>
        .inl (((s.call (.upload request)).emitProgress request.oid bytes).emitComplete request.oid none none)
      | .error error => .inl ((s.call (.upload request)).emitComplete request.oid none (some error))
  | .download request =>
    match requireInitialized s.initialized with
    | .error e => .inr (.error e)
    | .ok () =>
      match backend.download s.calls request with
      | .ok result =>
        .inl (((s.call (.download request)).emitProgress request.oid result.bytesTransferred).emitComplete
          request.oid (some (toStringLossy result.path)) none)
      | .error error => .inl ((s.call (.download request)).emitComplete request.oid none (some error))
  | .terminate => .inr (.ok ())

/-- The loop over the lines.
mirrors crates/git-lfs-delta-client/src/transfer.rs:177-214 -/
def Agent.run (s : Agent) : List Text → Except TransferProtocolError Unit × List Event
  | [] => (.ok (), s.log)
  | line :: rest =>
    match decode line with
    | none => (.error .decode, s.log)
    | some message =>
      match s.handle backend toStringLossy message with
      | .inl s' => s'.run rest
      | .inr result => (result, s.log)

/-- mirrors crates/git-lfs-delta-client/src/transfer.rs:168-214 -/
def runTransferProtocol (lines : List Text) : Except TransferProtocolError Unit × List Event :=
  Agent.run decode backend toStringLossy ⟨false, []⟩ lines

/-! ## The protocol -/

def InputMessage.request? : InputMessage → Option Request
  | .upload request => some (.upload request)
  | .download request => some (.download request)
  | .init | .terminate => none

/-- The transfers that were asked for. -/
def requests (inputs : List (Option InputMessage)) : List Request :=
  inputs.filterMap fun m => m.bind InputMessage.request?

/-- What the backend returns: the count of bytes, and the path of a download. -/
def TransferBackend.perform (before : List Request) : Request → Except BackendError (UInt64 × Option Text)
  | .upload request => (backend.upload before request).map fun bytes => (bytes, none)
  | .download request => (backend.download before request).map fun result =>
    (result.bytesTransferred, some (toStringLossy result.path))

/-- The answer to one transfer: progress and completion, or a completion with the error. -/
def replies (oid : ObjectOid) : Except BackendError (UInt64 × Option Text) → List OutputMessage
  | .ok (bytes, path) => [.progress oid bytes bytes, .complete oid path none]
  | .error error => [.complete oid none (some error)]

/-- What is done for a message, given those before it. -/
def answer (before : List (Option InputMessage)) (m : InputMessage) : List Event :=
  match m.request? with
  | some request => .call request ::
    (replies request.oid (backend.perform toStringLossy (requests before) request)).map
      fun reply => .write (jsonLine reply.toJson)
  | none => if m = .init then [.write (jsonLine (.obj []))] else []

def answerAt (inputs : List (Option InputMessage)) (i : Nat) : List Event :=
  match inputs[i]? with
  | some (some m) => answer backend toStringLossy (inputs.take i) m
  | _ => []

/-- A line that is fatal behind the lines `before`. -/
inductive Fault (before : List (Option InputMessage)) :
    Option InputMessage → TransferProtocolError → Prop
  | undecodable : Fault before none .decode
  | early {m : InputMessage} {request : Request} (hm : m.request? = some request)
      (hinit : some .init ∉ before) : Fault before (some m) .notInitialized
  | again (hinit : some .init ∈ before) : Fault before (some .init) .alreadyInitialized

/-- Line number `i` is a message that is answered. -/
def Goes (inputs : List (Option InputMessage)) (i : Nat) : Prop :=
  ∃ m, inputs[i]? = some (some m) ∧ m ≠ .terminate ∧ ∀ e, ¬ Fault (inputs.take i) (some m) e

/-- The run ends before line number `n` is answered. -/
inductive EndsAt (inputs : List (Option InputMessage)) (n : Nat) :
    Except TransferProtocolError Unit → Prop
  | input (h : n = inputs.length) : EndsAt inputs n (.ok ())
  | terminate (h : inputs[n]? = some (some .terminate)) : EndsAt inputs n (.ok ())
  | fatal {m : Option InputMessage} {e : TransferProtocolError} (h : inputs[n]? = some m)
      (hfault : Fault (inputs.take n) m e) : EndsAt inputs n (.error e)

/-! ## One message -/

variable {decode backend toStringLossy}
variable {inputs : List (Option InputMessage)} {k : Nat} {s s' : Agent} {m : InputMessage}

/-- The agent has answered the first `k` lines. -/
structure Agent.Follows (backend : TransferBackend) (toStringLossy : Bytes → Text)
    (inputs : List (Option InputMessage)) (k : Nat) (s : Agent) : Prop where
  initialized : s.initialized = true ↔ some .init ∈ inputs.take k
  log : s.log = (List.range k).flatMap (answerAt backend toStringLossy inputs)
  calls : s.calls = requests (inputs.take k)

theorem calls_replies (replies : List OutputMessage) :
    (replies.map fun reply => Event.write (jsonLine reply.toJson)).filterMap Event.request? = [] := by
  rw [List.filterMap_map, List.filterMap_eq_nil_iff]
  intro reply _
  rfl

theorem calls_answer (before : List (Option InputMessage)) (m : InputMessage) :
    (answer backend toStringLossy before m).filterMap Event.request? = m.request?.toList := by
  unfold answer
  split
  · rename_i request hm
    rw [List.filterMap_cons, calls_replies, hm]
    rfl
  · rename_i hm
    rw [hm]
    split
    · rfl
    · rfl

/-- A transfer, whichever it is and however it ends. -/
theorem Agent.handle_transfer {request : Request} (hm : m.request? = some request) :
    s.handle backend toStringLossy m =
      if s.initialized then .inl { s with
        log := s.log ++ (.call request :: (replies request.oid
          (backend.perform toStringLossy s.calls request)).map fun reply => .write (jsonLine reply.toJson)) }
      else .inr (.error .notInitialized) := by
  cases m with
  | init => cases hm
  | terminate => cases hm
  | upload r =>
    cases hm
    by_cases hi : s.initialized = true
    · simp only [Agent.handle, requireInitialized, hi, if_true, TransferBackend.perform]
      cases backend.upload s.calls r <;>
        simp [Agent.emitProgress, Agent.emitComplete, Agent.writeJsonLine, Agent.call, replies, Except.map,
          Request.oid, hi]
    · simp [Agent.handle, requireInitialized, hi]
  | download r =>
    cases hm
    by_cases hi : s.initialized = true
    · simp only [Agent.handle, requireInitialized, hi, if_true, TransferBackend.perform]
      cases backend.download s.calls r <;>
        simp [Agent.emitProgress, Agent.emitComplete, Agent.writeJsonLine, Agent.call, replies, Except.map,
          Request.oid, hi]
    · simp [Agent.handle, requireInitialized, hi]

theorem take_next {x : Option InputMessage} (h : inputs[k]? = some x) :
    inputs.take (k + 1) = inputs.take k ++ [x] := by
  rw [List.take_add_one, h]
  rfl

/-- The answer to line `k` is appended, and nothing else. -/
theorem Agent.Follows.next (h : s.Follows backend toStringLossy inputs k) (hk : inputs[k]? = some (some m))
    (hinit : s'.initialized = true ↔ s.initialized = true ∨ m = .init)
    (hlog : s'.log = s.log ++ answer backend toStringLossy (inputs.take k) m) :
    s'.Follows backend toStringLossy inputs (k + 1) where
  initialized := by
    rw [hinit, h.initialized, take_next hk, List.mem_append, List.mem_singleton, Option.some.injEq,
      eq_comm (a := m)]
  log := by
    have hanswer : answerAt backend toStringLossy inputs k =
        answer backend toStringLossy (inputs.take k) m := by
      simp only [answerAt, hk]
    rw [hlog, h.log, List.range_succ, List.flatMap_append, List.flatMap_singleton, hanswer]
  calls := by
    have hcalls := h.calls
    unfold Agent.calls at hcalls ⊢
    rw [hlog, List.filterMap_append, hcalls, calls_answer, take_next hk, requests, requests,
      List.filterMap_append]
    congr 1

/-- A message that is answered is no fault, and its answer depends on nothing but the messages
before it. -/
theorem Agent.handle_go (h : s.Follows backend toStringLossy inputs k) (hk : inputs[k]? = some (some m))
    (hgo : s.handle backend toStringLossy m = .inl s') :
    s'.Follows backend toStringLossy inputs (k + 1) ∧ Goes inputs k := by
  cases hm : m.request? with
  | some request =>
    rw [Agent.handle_transfer hm] at hgo
    split at hgo
    · rename_i hi
      cases hgo
      have hne : m ≠ .init ∧ m ≠ .terminate := by
        constructor
        · rintro rfl
          cases hm
        · rintro rfl
          cases hm
      refine ⟨h.next hk (by simp [hne.1]) ?_, m, hk, hne.2, fun e hfault => ?_⟩
      · simp only [answer, hm, h.calls]
      · cases hfault with
        | early _ hno => exact hno (h.initialized.1 hi)
        | again _ => exact hne.1 rfl
    · cases hgo
  | none =>
    cases m with
    | upload r => cases hm
    | download r => cases hm
    | terminate => cases hgo
    | init =>
      rw [Agent.handle] at hgo
      split at hgo
      · cases hgo
      · rename_i hi
        cases hgo
        refine ⟨h.next hk (by simp [Agent.writeJsonLine]) rfl, .init, hk, by decide, fun e hfault => ?_⟩
        cases hfault with
        | early hm' _ => cases hm'
        | again hinit => exact hi (h.initialized.2 hinit)

theorem Agent.handle_end {result : Except TransferProtocolError Unit}
    (h : s.Follows backend toStringLossy inputs k) (hk : inputs[k]? = some (some m))
    (hend : s.handle backend toStringLossy m = .inr result) : EndsAt inputs k result := by
  cases hm : m.request? with
  | some request =>
    rw [Agent.handle_transfer hm] at hend
    split at hend
    · cases hend
    · rename_i hi
      cases hend
      exact .fatal hk (.early hm fun hinit => hi (h.initialized.2 hinit))
  | none =>
    cases m with
    | upload r => cases hm
    | download r => cases hm
    | terminate =>
      cases hend
      exact .terminate hk
    | init =>
      rw [Agent.handle] at hend
      split at hend
      · rename_i hi
        cases hend
        exact .fatal hk (.again (h.initialized.1 hi))
      · cases hend

/-! ## The run -/

/-- The loop, from the lines that are left. -/
theorem Agent.run_spec {lines : List Text} : ∀ (rest done : List Text) (s : Agent), lines = done ++ rest →
    s.Follows backend toStringLossy (lines.map decode) done.length →
    ∃ n ≤ lines.length, (∀ i, done.length ≤ i → i < n → Goes (lines.map decode) i) ∧
      EndsAt (lines.map decode) n (s.run decode backend toStringLossy rest).1 ∧
      (s.run decode backend toStringLossy rest).2 =
        (List.range n).flatMap (answerAt backend toStringLossy (lines.map decode)) ∧
      (s.run decode backend toStringLossy rest).2.filterMap Event.request? =
        requests ((lines.map decode).take n) := by
  intro rest
  induction rest with
  | nil =>
    intro done s hlines h
    rw [List.append_nil] at hlines
    subst hlines
    exact ⟨lines.length, le_rfl, by omega, .input (by simp), h.log, h.calls⟩
  | cons line rest ih =>
    intro done s hlines h
    have hk : (lines.map decode)[done.length]? = some (decode line) := by
      simp [hlines]
    have hle : done.length ≤ lines.length := by
      simp [hlines]
    unfold Agent.run
    cases hm : decode line with
    | none =>
      rw [hm] at hk
      exact ⟨done.length, hle, by omega, .fatal hk .undecodable, h.log, h.calls⟩
    | some m =>
      rw [hm] at hk
      cases hhandle : s.handle backend toStringLossy m with
      | inr result =>
        simp only [hhandle]
        exact ⟨done.length, hle, by omega, Agent.handle_end h hk hhandle, h.log, h.calls⟩
      | inl s' =>
        obtain ⟨hnext, hgoes⟩ := Agent.handle_go h hk hhandle
        obtain ⟨n, hn, hall, hrest⟩ := ih (done ++ [line]) s' (by simp [hlines]) (by simpa using hnext)
        simp only [hhandle]
        refine ⟨n, hn, fun i hi hin => ?_, hrest⟩
        rcases Nat.eq_or_lt_of_le hi with rfl | hlt
        · exact hgoes
        · exact hall i (by rw [List.length_append]; exact hlt) hin

/-- The run fails exactly if there is a fault that no `terminate` precedes. -/
theorem EndsAt.error_iff {n : Nat} {result : Except TransferProtocolError Unit}
    (hgoes : ∀ i < n, Goes inputs i) (hend : EndsAt inputs n result) :
    (∃ e, result = .error e) ↔ ∃ i x e, inputs[i]? = some x ∧ Fault (inputs.take i) x e ∧
      some .terminate ∉ inputs.take i := by
  constructor
  · intro herror
    obtain ⟨e, rfl⟩ := herror
    cases hend with
    | fatal h hfault =>
      refine ⟨n, _, e, h, hfault, fun hmem => ?_⟩
      obtain ⟨i, hi⟩ := List.mem_iff_getElem?.1 hmem
      rw [List.getElem?_take] at hi
      split at hi
      · rename_i hlt
        obtain ⟨m, hm, hne, -⟩ := hgoes i hlt
        rw [hi] at hm
        cases hm
        exact hne rfl
      · cases hi
  · intro hfault
    obtain ⟨i, x, e, hx, hfault, hno⟩ := hfault
    rcases Nat.lt_trichotomy i n with hlt | rfl | hgt
    · obtain ⟨m, hm, -, hnone⟩ := hgoes i hlt
      rw [hx] at hm
      cases hm
      exact absurd hfault (hnone e)
    · cases hend with
      | input h =>
        rw [h, List.getElem?_eq_none le_rfl] at hx
        cases hx
      | terminate h =>
        rw [hx] at h
        cases h
        cases hfault with
        | early hm _ => cases hm
      | fatal h hfault' => exact ⟨_, rfl⟩
    · cases hend with
      | input h =>
        rw [List.getElem?_eq_none (by omega)] at hx
        cases hx
      | terminate h =>
        refine absurd (List.mem_iff_getElem?.2 ⟨n, ?_⟩) hno
        rw [List.getElem?_take, if_pos hgt, h]
      | fatal h hfault' => exact ⟨_, rfl⟩

end

section

variable (decode : Text → Option InputMessage) (backend : TransferBackend)
  (toStringLossy : Bytes → Text) (lines : List Text)

/-- **The transcript of the transfer agent.** The run answers the messages before the first that
is a fault or `terminate`, each by itself: an empty object for `init`, and for a transfer the one
call of the backend and its replies. After that it does nothing more; it fails exactly if a fault
comes before any `terminate`. -/
theorem transfer_transcript : ∃ n ≤ lines.length,
    (∀ i < n, Goes (lines.map decode) i) ∧
    EndsAt (lines.map decode) n (runTransferProtocol decode backend toStringLossy lines).1 ∧
    (runTransferProtocol decode backend toStringLossy lines).2 =
      (List.range n).flatMap (answerAt backend toStringLossy (lines.map decode)) ∧
    (runTransferProtocol decode backend toStringLossy lines).2.filterMap Event.request? =
      requests ((lines.map decode).take n) ∧
    ((∃ e, (runTransferProtocol decode backend toStringLossy lines).1 = .error e) ↔
      ∃ i x e, (lines.map decode)[i]? = some x ∧ Fault ((lines.map decode).take i) x e ∧
        some .terminate ∉ (lines.map decode).take i) := by
  have hstart : Agent.Follows backend toStringLossy (lines.map decode) 0 ⟨false, []⟩ :=
    ⟨by simp, rfl, rfl⟩
  obtain ⟨n, hn, hgoes, hend, hlog, hcalls⟩ := Agent.run_spec lines [] ⟨false, []⟩ rfl hstart
  have hall : ∀ i < n, Goes (lines.map decode) i := fun i hi => hgoes i (Nat.zero_le i) hi
  exact ⟨n, hn, hall, hend, hlog, hcalls, hend.error_iff hall⟩

end

/-- The agent acknowledges `init` and does not reply to `terminate`. -/
example : runTransferProtocol (fun line => if line = "i".toList then some .init else some .terminate)
    ⟨fun _ _ => .ok 12, fun _ _ => .ok ⟨[], 12⟩⟩ (fun _ => []) ["i".toList, "t".toList, "i".toList] =
    (.ok (), [.write ['\x7b', '\x7d', '\n']]) := by decide

end Transfer

end GitLfsDelta
