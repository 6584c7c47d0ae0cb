import GitLfsDelta.L5Client.Uploading

/-!
# What a step of an upload can do

`UploadMove` lists every move of a call of `upload` with its condition and what is seen of it;
`uploadStep_move` says the step function does nothing else. Invariants of the worker pool are
proved over moves and never unfold a step function.
-/
namespace GitLfsDelta

variable {n : Nat} {H : Hashes} {cut : Cutter} {source : Bytes} {urlError : Option String}
  {request : UploadRequest}

/-- Before the worker pool. -/
def Producer.Before : Producer → Prop
  | .starting | .beginning _ _ | .reopening _ _ => True
  | _ => False

/-- A retried request has an attempt left. -/
theorem receivePost_again {α β : Type} {doing : String} {decode : Except String α → Except BackendError β}
    {attempt : Nat} {reply : Reply α} (h : receivePost doing decode attempt reply = .again) :
    attempt < 2 := by
  unfold receivePost at h
  split at h
  · split at h
    · rename_i hlt; exact hlt
    · cases h
  · split at h
    · cases h
    split at h
    · rename_i hlt; exact hlt.2
    · cases h

theorem uploadChunk_again {attempt : Nat} {reply : Reply Unit} (h : uploadChunk attempt reply = .again) :
    attempt < 2 := by
  have hnext : ∀ e, nextPut attempt e = .again → attempt < 2 := by
    intro e he
    unfold nextPut at he
    split at he
    · omega
    · cases he
  unfold uploadChunk at h
  split at h
  · exact hnext _ h
  · split at h
    · cases h
    split at h
    · exact hnext _ h
    · cases h

/-- Every move of a call, as `state ⟶ state`, and what is seen of it. -/
inductive UploadMove (H : Hashes) (cut : Cutter) (source : Bytes) (request : UploadRequest) :
    UploadState n → Option (UploadEvent n) → UploadState n → Prop
  -- before the scope
  | refuse {s e} : s.producer.Before → UploadMove H cut source request s none (s.fail e)
  | start {s m} : s.producer = .starting → (ChunkStream.new cut source .fastCdcV1).finish H = .ok m →
      UploadMove H cut source request s none { s with producer := .beginning m 0 }
  | rebegin {s m attempt} : s.producer = .beginning m attempt → attempt < 2 →
      UploadMove H cut source request s none { s with producer := .beginning m (attempt + 1) }
  | reject {s m attempt plan e} : s.producer = .beginning m attempt → acceptPlan m plan = .error e →
      UploadMove H cut source request s none ({ s with plan := some plan }.fail e)
  | plan {s m attempt plan} : s.producer = .beginning m attempt → acceptPlan m plan = .ok () →
      UploadMove H cut source request s none
        { s with plan := some plan, producer := .reopening m plan }
  | spawn {s m plan} : s.producer = .reopening m plan →
      plan.missing.dedup.length = plan.missing.length →
      UploadMove H cut source request s none { s with
        producer := .pulling (ChunkStream.new cut source .fastCdcV1) 0
        jobsOpen := true
        workers := fun _ => .waiting }
  -- the loop
  | exhausted {s stream index} : s.producer = .pulling stream index → stream.inner = [] →
      UploadMove H cut source request s none (s.close none)
  | broken {s stream index e} : s.producer = .pulling stream index →
      UploadMove H cut source request s none (s.close (some e))
  | skip {s stream stream' index chunk} : s.producer = .pulling stream index →
      stream.next H = (some (.ok chunk), stream') → index ∉ s.missing →
      UploadMove H cut source request s none { s with producer := .polling stream' index }
  | offer {s stream stream' index chunk} : s.producer = .pulling stream index →
      stream.next H = (some (.ok chunk), stream') → index ∈ s.missing →
      UploadMove H cut source request s none { s with producer := .sending stream' index chunk.data }
  | abandon {s stream index bytes e} : s.producer = .sending stream index bytes → s.allStopped = true →
      UploadMove H cut source request s none (s.close (some e))
  | hand {s stream index bytes} : s.producer = .sending stream index bytes → s.allStopped = false →
      s.jobs.length < n → UploadMove H cut source request s none { s with
        jobs := s.jobs ++ [(index, bytes)]
        producer := .polling stream index }
  | heed {s stream index e rest} : s.producer = .polling stream index → s.errors = e :: rest →
      UploadMove H cut source request s none ({ s with errors := rest }.close (some e))
  | calm {s stream index} : s.producer = .polling stream index → s.errors = [] →
      UploadMove H cut source request s none { s with producer := .pulling stream (index + 1) }
  -- after the scope
  | blame {s e errors} : s.producer = .joining → s.allStopped = true →
      (s.producerError = none → s.errors ≠ []) →
      UploadMove H cut source request s none ({ s with errors := errors }.fail e)
  | finalize {s} : s.producer = .joining → s.allStopped = true → s.producerError = none → s.errors = [] →
      UploadMove H cut source request s (some .finalize) { s with producer := .finalizing 0 }
  | unfinalized {s attempt e event} : s.producer = .finalizing attempt →
      (∀ x, event = some x → ∃ reply next, x = .finalized reply next) →
      UploadMove H cut source request s event (s.fail e)
  | refinalize {s attempt reply} : s.producer = .finalizing attempt → attempt < 2 →
      UploadMove H cut source request s (some (.finalized reply .again))
        { s with producer := .finalizing (attempt + 1) }
  | complete {s attempt reply} : s.producer = .finalizing attempt →
      finalizeUpload attempt reply = .done (.ok ()) →
      UploadMove H cut source request s (some (.finalized reply (.done (.ok ()))))
        { s with producer := .returned (.ok request.size) }
  -- the workers
  | take {s w index bytes rest} : s.workers w = .waiting → s.jobs = (index, bytes) :: rest →
      UploadMove H cut source request s none { s with
        jobs := rest
        workers := Function.update s.workers w (.putting index bytes 0) }
  | retire {s w} : s.workers w = .waiting → s.jobs = [] → s.jobsOpen = false →
      UploadMove H cut source request s none
        { s with workers := Function.update s.workers w .stopped }
  | unsendable {s w index bytes attempt e} : s.workers w = .putting index bytes attempt →
      UploadMove H cut source request s (some (.unsendable w index e))
        { s with workers := Function.update s.workers w (.failing e) }
  | put {s w index bytes attempt reply} : s.workers w = .putting index bytes attempt →
      UploadMove H cut source request s
        (some (.put w index bytes reply (uploadChunk attempt reply))) { s with
          workers := Function.update s.workers w
            ((uploadChunk attempt reply).putter index bytes attempt) }
  | report {s w e} : s.workers w = .failing e → UploadMove H cut source request s none { s with
      errors := s.errors ++ [e]
      workers := Function.update s.workers w .leaving }
  | leave {s w} : s.workers w = .leaving → UploadMove H cut source request s none
      { s with workers := Function.update s.workers w .stopped }

variable {s s' : UploadState n}

theorem acceptSource_ok {opened read : Except String Unit} {m : ObjectManifest}
    (h : acceptSource H cut source request opened read = .ok m) :
    (ChunkStream.new cut source .fastCdcV1).finish H = .ok m := by
  unfold acceptSource at h
  split at h
  · cases h
  · cases h
  · split at h
    · cases h
    rename_i m' hfinish
    split at h
    · cases h
    · cases h
      exact hfinish

theorem pull_move {stream : ChunkStream} {index : Nat} (hp : s.producer = .pulling stream index) :
    UploadMove H cut source request s none (s.pull H stream index) := by
  unfold UploadState.pull
  split
  · rename_i hnext
    refine .exhausted hp ?_
    unfold ChunkStream.next at hnext
    split at hnext
    · rename_i hnil; exact hnil
    · split at hnext <;> cases hnext
  · exact .broken hp
  · rename_i chunk stream' hnext
    split
    · exact .broken hp
    split
    · rename_i hmissing
      exact .offer hp hnext hmissing
    · rename_i hmissing
      exact .skip hp hnext hmissing

/-- Whatever is done at the end of the scope, it is seen only if it is `finalize_upload`. -/
theorem uploadEvent_fail (e : BackendError) (errors : List BackendError) :
    uploadEvent s (.producer .go) ({ s with errors := errors }.fail e) = none := by
  simp only [uploadEvent, UploadState.fail]
  split
  · rename_i heq
    cases heq
  · rfl

theorem settle_move (hp : s.producer = .joining) (hall : s.allStopped = true) :
    UploadMove H cut source request s (uploadEvent s (.producer .go) s.settle) s.settle := by
  unfold UploadState.settle
  split
  · rename_i e herror
    rw [show s.fail e = { s with errors := s.errors }.fail e from rfl, uploadEvent_fail]
    apply UploadMove.blame hp hall
    intro hnone
    rw [herror] at hnone
    cases hnone
  · rename_i e rest hnone herrors
    rw [uploadEvent_fail]
    apply UploadMove.blame hp hall
    intro _
    rw [herrors]
    exact List.cons_ne_nil e rest
  · rename_i hnone herrors
    simp only [uploadEvent, hp]
    exact .finalize hp hall hnone herrors

theorem producerStep_move {event : ProducerEvent}
    (h : producerStep H cut source urlError request s s.producer event = some s') :
    UploadMove H cut source request s (uploadEvent s (.producer event) s') s' := by
  cases hp : s.producer with
  | starting =>
    have hbefore : s.producer.Before := by rw [hp]; trivial
    rw [hp] at h
    cases event with
    | go =>
      simp only [producerStep] at h
      split at h
      · cases h
        simp only [uploadEvent, hp]
        exact .refuse hbefore
      · cases h
    | source opened read =>
      simp only [producerStep] at h
      split at h
      · cases h
      split at h
      · cases h
        exact .refuse hbefore
      · rename_i m hsource
        cases h
        exact .start hp (acceptSource_ok hsource)
    | _ => cases h
  | beginning m attempt =>
    have hbefore : s.producer.Before := by rw [hp]; trivial
    rw [hp] at h
    cases event with
    | begun reply =>
      simp only [producerStep] at h
      split at h
      · rename_i hagain
        cases h
        exact .rebegin hp (receivePost_again hagain)
      · cases h
        exact .refuse hbefore
      · rename_i plan hdone
        split at h
        · rename_i e hplan
          cases h
          exact .reject hp hplan
        · rename_i hplan
          cases h
          exact .plan hp hplan
    | _ => cases h
  | reopening m plan =>
    have hbefore : s.producer.Before := by rw [hp]; trivial
    rw [hp] at h
    cases event with
    | reopen result =>
      simp only [producerStep] at h
      split at h
      · cases h
        exact .refuse hbefore
      split at h
      · cases h
        exact .refuse hbefore
      · rename_i hdistinct
        cases h
        exact .spawn hp (not_not.1 hdistinct)
    | _ => cases h
  | pulling stream index =>
    rw [hp] at h
    cases event with
    | go =>
      simp only [producerStep, Option.some.injEq] at h
      subst h
      simp only [uploadEvent, hp]
      exact pull_move hp
    | unreadable e =>
      simp only [producerStep, Option.some.injEq] at h
      subst h
      exact .broken hp
    | _ => cases h
  | sending stream index bytes =>
    rw [hp] at h
    cases event with
    | go =>
      simp only [producerStep] at h
      split at h
      · rename_i hall
        cases h
        simp only [uploadEvent, hp]
        exact .abandon hp hall
      split at h
      · rename_i hall hroom
        cases h
        simp only [uploadEvent, hp]
        exact .hand hp (Bool.not_eq_true _ ▸ hall) hroom
      · cases h
    | _ => cases h
  | polling stream index =>
    rw [hp] at h
    cases event with
    | go =>
      simp only [producerStep] at h
      split at h
      · rename_i e rest herrors
        cases h
        simp only [uploadEvent, hp]
        exact .heed hp herrors
      · rename_i herrors
        cases h
        simp only [uploadEvent, hp]
        exact .calm hp herrors
    | _ => cases h
  | joining =>
    rw [hp] at h
    cases event with
    | go =>
      simp only [producerStep] at h
      split at h
      · rename_i hall
        cases h
        exact settle_move hp hall
      · cases h
    | _ => cases h
  | finalizing attempt =>
    rw [hp] at h
    cases event with
    | go =>
      simp only [producerStep] at h
      split at h
      · cases h
        simp only [uploadEvent, hp]
        exact .unfinalized hp nofun
      · cases h
    | finalized reply =>
      simp only [producerStep] at h
      split at h
      · cases h
      simp only [uploadEvent, hp]
      split at h
      · rename_i hagain
        cases h
        rw [hagain]
        exact .refinalize hp (receivePost_again hagain)
      · rename_i e hdone
        cases h
        rw [hdone]
        apply UploadMove.unfinalized hp
        intro x hx
        cases hx
        exact ⟨reply, _, rfl⟩
      · rename_i hdone
        cases h
        rw [hdone]
        exact .complete hp hdone
    | _ => cases h
  | returned result =>
    rw [hp] at h
    cases event <;> cases h

theorem putterStep_move {w : Fin n} {event : PutterEvent}
    (h : putterStep urlError s w (s.workers w) event = some s') :
    UploadMove H cut source request s (uploadEvent s (.worker w event) s') s' := by
  cases hw : s.workers w with
  | waiting =>
    rw [hw] at h
    cases event with
    | go =>
      simp only [putterStep] at h
      simp only [uploadEvent, hw]
      split at h
      · rename_i index bytes rest hjobs
        cases h
        exact .take hw hjobs
      · rename_i hjobs
        split at h
        · cases h
        · rename_i hopen
          cases h
          exact .retire hw hjobs (Bool.not_eq_true _ ▸ hopen)
    | reply reply => cases h
  | putting index bytes attempt =>
    rw [hw] at h
    cases event with
    | go =>
      simp only [putterStep] at h
      split at h
      · cases h
        simp only [uploadEvent, hw, Function.update_self]
        exact .unsendable hw
      · cases h
    | reply reply =>
      simp only [putterStep] at h
      split at h
      · cases h
      · cases h
        simp only [uploadEvent, hw]
        exact .put hw
  | failing e =>
    rw [hw] at h
    cases event with
    | go =>
      simp only [putterStep, Option.some.injEq] at h
      subst h
      simp only [uploadEvent, hw]
      exact .report hw
    | reply reply => cases h
  | leaving =>
    rw [hw] at h
    cases event with
    | go =>
      simp only [putterStep, Option.some.injEq] at h
      subst h
      simp only [uploadEvent, hw]
      exact .leave hw
    | reply reply => cases h
  | stopped =>
    rw [hw] at h
    cases event <;> cases h

/-- **Every step is one of the moves**, and what is seen of it is what the move says. -/
theorem uploadStep_move {childUrl : String → Option String} {l : UploadLabel n}
    (h : uploadStep H cut source childUrl request s l = some s') :
    UploadMove H cut source request s (uploadEvent s l s') s' := by
  cases l with
  | producer event => exact producerStep_move h
  | worker w event => exact putterStep_move h

end GitLfsDelta
