import GitLfsDelta.L5Client.UploadPool
import Mathlib.Algebra.Order.BigOperators.Group.Finset

/-!
# Calls of `upload`

The producer around the worker pool: before the scope nothing is sent; in it the pool has passed as
many chunks as the producer; after it the chunks are delivered, or there is an error to return.

* `upload_loses_nothing`: what an `Ok` means, what happens after a chunk has failed, which plans are
  refused, and that every call ends and no producer waits for workers that are gone.
-/
namespace GitLfsDelta

variable {n : Nat} {H : Hashes} {cut : Cutter} {source : Bytes} {request : UploadRequest}
  {raws : List RawChunk} {s s' : UploadState n} {log : UploadLog n} {w : Fin n}

/-! ## The call -/

/-- Within `thread::scope`. -/
def Producer.InScope : Producer → Prop
  | .pulling _ _ | .sending _ _ _ | .polling _ _ | .joining => True
  | _ => False

/-- How far the producer is: it has passed `k` chunks, all of them if it ended without an error. -/
def Producer.Paced (raws : List RawChunk) (missing : List Nat) (jobsOpen : Bool)
    (error : Option BackendError) (k : Nat) : Producer → Prop
  | .pulling stream i => k = i ∧ stream.inner = raws.drop i ∧ jobsOpen = true ∧ error = none
  | .sending stream i bytes => k = i ∧ stream.inner = raws.drop (i + 1) ∧ jobsOpen = true ∧
      error = none ∧ i ∈ missing ∧ chunkBytes raws i = some bytes
  | .polling stream i => k = i + 1 ∧ stream.inner = raws.drop (i + 1) ∧ jobsOpen = true ∧ error = none
  | .joining => jobsOpen = false ∧ (error = none → raws.length ≤ k)
  | _ => False

/-- The client has agreed to the plan. -/
def UploadState.Accepted (H : Hashes) (cut : Cutter) (source : Bytes) (s : UploadState n) : Prop :=
  ∃ m plan, (ChunkStream.new cut source .fastCdcV1).finish H = .ok m ∧ s.plan = some plan ∧
    PlanAccepted m plan.missing

/-- What is known of the manifest and the plan before the scope. -/
def Producer.Planned (H : Hashes) (cut : Cutter) (source : Bytes) (plan : Option BeginUploadResponse) :
    Producer → Prop
  | .beginning m _ => (ChunkStream.new cut source .fastCdcV1).finish H = .ok m
  | .reopening m p => (ChunkStream.new cut source .fastCdcV1).finish H = .ok m ∧ plan = some p ∧
      acceptPlan m p = .ok ()
  | _ => True

/-- What has been seen outside the scope. -/
def Producer.Outcome (raws : List RawChunk) (request : UploadRequest) (missing : List Nat)
    (log : UploadLog n) : Producer → Prop
  | .starting | .beginning _ _ | .reopening _ _ => log = []
  | .finalizing _ => Finalized raws missing log []
  | .returned (.ok size) => size = request.size ∧ ∃ status body, status.isSuccess = true ∧
      Finalized raws missing log [.finalized (.response status body) (.done (.ok ()))]
  | .returned (.error _) => (∀ x ∈ log, x.OfWorker) ∨
      ∃ last, (∀ x ∈ last, ∃ reply next, x = .finalized reply next) ∧ Finalized raws missing log last
  | _ => True

structure UploadInv (H : Hashes) (cut : Cutter) (source : Bytes) (request : UploadRequest)
    (s : UploadState n) (log : UploadLog n) : Prop where
  idle : s.producer.Before → s.jobs = [] ∧ s.producerError = none
  outside : ¬ s.producer.InScope → ∀ w, s.workers w = .stopped
  planned : s.producer.Planned H cut source s.plan
  accepted : s.producer.InScope ∨ log ≠ [] → s.Accepted H cut source
  scope : s.producer.InScope → ∃ k fate,
    s.producer.Paced (cut source) s.missing s.jobsOpen s.producerError k ∧ Pool (cut source) s log k fate
  outcome : s.producer.Outcome (cut source) request s.missing log

theorem Producer.InScope.not_before {p : Producer} (h : p.InScope) : ¬ p.Before := by
  intro hb
  cases p with
  | pulling => exact hb
  | sending => exact hb
  | polling => exact hb
  | joining => exact hb
  | _ => exact h

theorem Producer.InScope.planned {p : Producer} (h : p.InScope) (plan : Option BeginUploadResponse) :
    p.Planned H cut source plan := by
  cases p with
  | beginning => exact h.elim
  | reopening => exact h.elim
  | _ => trivial

theorem Producer.InScope.outcome {p : Producer} (h : p.InScope) (missing : List Nat) :
    p.Outcome raws request missing log := by
  cases p with
  | pulling => trivial
  | sending => trivial
  | polling => trivial
  | joining => trivial
  | _ => exact h.elim

theorem Producer.Before.unlogged {p : Producer} {missing : List Nat} (h : p.Before)
    (ho : p.Outcome raws request missing log) : log = [] := by
  cases p with
  | starting => exact ho
  | beginning => exact ho
  | reopening => exact ho
  | _ => exact h.elim

theorem uploadInv_initial : UploadInv H cut source request (.initial n) [] where
  idle _ := ⟨rfl, rfl⟩
  outside _ _ := rfl
  planned := trivial
  accepted h := by
    rcases h with h | h
    · exact h.elim
    · exact absurd rfl h
  scope h := h.elim
  outcome := rfl

theorem UploadInv.busy (h : UploadInv H cut source request s log) (hw : s.workers w ≠ .stopped) :
    s.producer.InScope := by
  by_contra hout
  exact hw (h.outside hout w)

/-- A move within the scope. -/
theorem UploadInv.within (h : UploadInv H cut source request s log) (hin : s.producer.InScope)
    {log' : UploadLog n} {k : Nat} {fate : Nat → Fate n} (hpool : Pool (cut source) s' log' k fate)
    (hpaced : s'.producer.Paced (cut source) s'.missing s'.jobsOpen s'.producerError k)
    (hin' : s'.producer.InScope) (hplan : s'.plan = s.plan) :
    UploadInv H cut source request s' log' where
  idle hb := absurd hb hin'.not_before
  outside hout := absurd hin' hout
  planned := hin'.planned s'.plan
  accepted _ := by
    unfold UploadState.Accepted
    rw [hplan]
    exact h.accepted (.inl hin)
  scope _ := ⟨k, fate, hpaced, hpool⟩
  outcome := hin'.outcome s'.missing

/-- A move before the scope, to a point still before it. -/
theorem UploadInv.approach (h : UploadInv H cut source request s log) (hb : s.producer.Before)
    {p : Producer} {plan : Option BeginUploadResponse} (hb' : p.Before)
    (hplanned : p.Planned H cut source plan) :
    UploadInv H cut source request { s with plan := plan, producer := p } log := by
  have hlog := hb.unlogged h.outcome
  refine ⟨fun _ => h.idle hb, fun _ => h.outside fun hin => hin.not_before hb, hplanned, ?_, ?_, ?_⟩
  · intro hcase
    rcases hcase with hin | hne
    · exact absurd hb' hin.not_before
    · exact absurd hlog hne
  · intro hin
    exact absurd hb' hin.not_before
  · subst hlog
    cases p with
    | starting => rfl
    | beginning => rfl
    | reopening => rfl
    | _ => exact hb'.elim

/-- The call is refused before the scope. -/
theorem UploadInv.refused (h : UploadInv H cut source request s log) (hb : s.producer.Before)
    (plan : Option BeginUploadResponse) (e : BackendError) :
    UploadInv H cut source request ({ s with plan := plan }.fail e) log := by
  have hlog := hb.unlogged h.outcome
  subst hlog
  refine ⟨nofun, fun _ => h.outside fun hin => hin.not_before hb, trivial, ?_, nofun, .inl nofun⟩
  intro hcase
  rcases hcase with hin | hne
  · exact hin.elim
  · exact absurd rfl hne

/-- The scope begins. -/
theorem UploadInv.spawn (h : UploadInv H cut source request s log) {m : ObjectManifest}
    {plan : BeginUploadResponse} (hp : s.producer = .reopening m plan)
    (hdistinct : plan.missing.dedup.length = plan.missing.length) :
    UploadInv H cut source request { s with
      producer := .pulling (ChunkStream.new cut source .fastCdcV1) 0
      jobsOpen := true
      workers := fun _ => .waiting } log := by
  have hb : s.producer.Before := by rw [hp]; trivial
  obtain ⟨hjobs, herror⟩ := h.idle hb
  obtain rfl := hb.unlogged h.outcome
  have hplanned := h.planned
  rw [hp] at hplanned
  obtain ⟨hfinish, hplan, haccept⟩ := hplanned
  exact ⟨nofun, fun hout => absurd trivial hout, trivial,
    fun _ => ⟨m, plan, hfinish, hplan, acceptPlan_distinct haccept hdistinct⟩,
    fun _ => ⟨0, _, ⟨rfl, rfl, rfl, herror⟩, pool_spawned hjobs fun _ => rfl⟩, trivial⟩

/-- A worker's move keeps what is known of the producer. -/
theorem UploadInv.work (h : UploadInv H cut source request s log) (hw : s.workers w ≠ .stopped)
    {jobs : List (Nat × Bytes)} {errors : List BackendError} {workers : Fin n → Putter}
    {log' : UploadLog n}
    (hpool : ∀ k fate, Pool (cut source) s log k fate → ∃ fate', Pool (cut source)
      { s with jobs := jobs, errors := errors, workers := workers } log' k fate') :
    UploadInv H cut source request { s with jobs := jobs, errors := errors, workers := workers } log' := by
  have hin := h.busy hw
  obtain ⟨k, fate, hpaced, hold⟩ := h.scope hin
  obtain ⟨fate', hnew⟩ := hpool k fate hold
  exact h.within hin hnew hpaced hin rfl

/-! ### After the scope -/

theorem UploadState.allStopped_iff : s.allStopped = true ↔ ∀ w, s.workers w = .stopped := by
  simp [UploadState.allStopped]

theorem Finalized.seen {missing : List Nat} (h : Finalized raws missing log []) (last : UploadLog n) :
    Finalized raws missing (log ++ last) last := by
  obtain ⟨puts, retries, rfl, hdelivered, hretries⟩ := h
  exact ⟨puts, retries, by simp, hdelivered, hretries⟩

theorem Finalized.retried {missing : List Nat} (h : Finalized raws missing log []) (reply : Reply Unit) :
    Finalized raws missing (log ++ [.finalized reply .again]) [] := by
  obtain ⟨puts, retries, rfl, hdelivered, hretries⟩ := h
  refine ⟨puts, retries ++ [.finalized reply .again], by simp, hdelivered, ?_⟩
  intro x hx
  rcases List.mem_append.1 hx with hx | hx
  · exact hretries x hx
  · exact ⟨reply, List.mem_singleton.1 hx⟩

theorem Finalized.ne_nil {missing : List Nat} {last : UploadLog n} (h : Finalized raws missing log last) :
    log ≠ [] := by
  obtain ⟨puts, retries, rfl, -⟩ := h
  simp

/-- A move after the scope. -/
theorem uploadInv_after (errors : List BackendError) (hall : ∀ w, s.workers w = .stopped)
    (haccepted : s.Accepted H cut source) {p : Producer} {log' : UploadLog n}
    (hp : ¬ p.Before ∧ ¬ p.InScope) (houtcome : p.Outcome (cut source) request s.missing log') :
    UploadInv H cut source request { s with errors := errors, producer := p } log' := by
  refine ⟨fun hb => absurd hb hp.1, fun _ => hall, ?_, fun _ => haccepted, fun hin => absurd hin hp.2,
    houtcome⟩
  cases p with
  | beginning => exact absurd trivial hp.1
  | reopening => exact absurd trivial hp.1
  | _ => trivial

/-- The scope ends and no error is found. -/
theorem UploadInv.finalize (h : UploadInv H cut source request s log) (hn : 0 < n)
    (hp : s.producer = .joining) (hall : ∀ w, s.workers w = .stopped) (herror : s.producerError = none)
    (herrors : s.errors = []) :
    UploadInv H cut source request { s with producer := .finalizing 0 } (log ++ [.finalize]) := by
  have hin : s.producer.InScope := by rw [hp]; trivial
  have haccepted := h.accepted (.inl hin)
  obtain ⟨k, fate, hpaced, hpool⟩ := h.scope hin
  rw [hp] at hpaced
  have hk : ∀ i ∈ s.missing, i < k := by
    obtain ⟨m, plan, hfinish, hplan, hrange, -⟩ := haccepted
    intro i hi
    rw [UploadState.missing, hplan] at hi
    have hlt := hrange i hi
    rw [finish_length hfinish] at hlt
    exact Nat.lt_of_lt_of_le hlt (hpaced.2 herror)
  have hdelivered := hpool.delivered hn hall herror herrors hk
  refine uploadInv_after s.errors hall haccepted ⟨id, id⟩ ?_
  exact ⟨log, [], rfl, hdelivered, nofun⟩

/-- The loop is left with an error. -/
theorem UploadInv.interrupt (h : UploadInv H cut source request s log) {p : Producer}
    (hp : s.producer = p) (hin : p.InScope) (errors : List BackendError) (e : BackendError) :
    UploadInv H cut source request ({ s with errors := errors }.close (some e)) log := by
  subst hp
  obtain ⟨k, fate, -, hpool⟩ := h.scope hin
  have herror : some e ≠ none := nofun
  exact h.within hin (hpool.close errors (.inl herror)) ⟨rfl, fun hnone => absurd hnone herror⟩
    trivial rfl

/-- **Every move keeps the invariant.** -/
theorem UploadInv.move {event : Option (UploadEvent n)} (h : UploadInv H cut source request s log)
    (hn : 0 < n) (hm : UploadMove H cut source request s event s') :
    UploadInv H cut source request s' (log ++ event.toList) := by
  have hsame : log ++ (none : Option (UploadEvent n)).toList = log := List.append_nil log
  -- in the scope, the producer and the pool
  have hscope : ∀ {p : Producer}, s.producer = p → p.InScope → ∃ k fate,
      p.Paced (cut source) s.missing s.jobsOpen s.producerError k ∧ Pool (cut source) s log k fate := by
    intro p hp hin
    obtain ⟨k, fate, hpaced, hpool⟩ := h.scope (by rw [hp]; exact hin)
    exact ⟨k, fate, by rwa [hp] at hpaced, hpool⟩
  cases hm with
  | refuse hb =>
    rw [hsame]
    exact h.refused hb s.plan _
  | @start m hp hfinish =>
    rw [hsame]
    exact h.approach (p := .beginning m 0) (by rw [hp]; trivial) trivial hfinish
  | @rebegin m attempt hp _ =>
    have hplanned := h.planned
    rw [hp] at hplanned
    rw [hsame]
    exact h.approach (p := .beginning m (attempt + 1)) (by rw [hp]; trivial) trivial hplanned
  | reject hp _ =>
    rw [hsame]
    exact h.refused (by rw [hp]; trivial) (some _) _
  | @plan m attempt plan hp haccept =>
    have hplanned := h.planned
    rw [hp] at hplanned
    rw [hsame]
    exact h.approach (p := .reopening m plan) (by rw [hp]; trivial) trivial ⟨hplanned, rfl, haccept⟩
  | spawn hp hdistinct =>
    rw [hsame]
    exact h.spawn hp hdistinct
  | exhausted hp hnil =>
    obtain ⟨k, fate, ⟨rfl, hinner, -, herror⟩, hpool⟩ := hscope hp trivial
    have hlength : (cut source).length ≤ k := by
      rw [hnil] at hinner
      exact List.drop_eq_nil_iff.1 hinner.symm
    rw [hsame]
    exact h.within (by rw [hp]; trivial) (hpool.close s.errors (.inr ⟨rfl, herror⟩)) ⟨rfl, fun _ => hlength⟩
      trivial rfl
  | broken hp =>
    rw [hsame]
    exact h.interrupt hp trivial s.errors _
  | skip hp hnext hmissing =>
    obtain ⟨k, fate, ⟨rfl, hinner, hopen, herror⟩, hpool⟩ := hscope hp trivial
    rw [hsame]
    exact h.within (by rw [hp]; trivial) (hpool.skip hmissing).moved
      ⟨rfl, (next_drop hnext hinner).1, hopen, herror⟩ trivial rfl
  | offer hp hnext hmissing =>
    obtain ⟨k, fate, ⟨rfl, hinner, hopen, herror⟩, hpool⟩ := hscope hp trivial
    obtain ⟨hrest, hbytes⟩ := next_drop hnext hinner
    rw [hsame]
    exact h.within (by rw [hp]; trivial) hpool.moved
      ⟨rfl, hrest, hopen, herror, hmissing, hbytes⟩ trivial rfl
  | abandon hp hall =>
    rw [hsame]
    exact h.interrupt hp trivial s.errors _
  | hand hp hall hroom =>
    obtain ⟨k, fate, ⟨rfl, hinner, hopen, herror, hmissing, hbytes⟩, hpool⟩ := hscope hp trivial
    rw [hsame]
    exact h.within (by rw [hp]; trivial) (hpool.hand hmissing hbytes hopen)
      ⟨rfl, hinner, hopen, herror⟩ trivial rfl
  | heed hp herrors =>
    rw [hsame]
    exact h.interrupt hp trivial _ _
  | calm hp herrors =>
    obtain ⟨k, fate, ⟨rfl, hinner, hopen, herror⟩, hpool⟩ := hscope hp trivial
    rw [hsame]
    exact h.within (by rw [hp]; trivial) hpool.moved ⟨rfl, hinner, hopen, herror⟩ trivial rfl
  | blame hp hall _ =>
    have hin : s.producer.InScope := by rw [hp]; trivial
    obtain ⟨k, fate, -, hpool⟩ := h.scope hin
    rw [hsame]
    exact uploadInv_after _ (UploadState.allStopped_iff.1 hall) (h.accepted (.inl hin)) ⟨id, id⟩
      (.inl hpool.ofWorker)
  | finalize hp hall herror herrors =>
    exact h.finalize hn hp (UploadState.allStopped_iff.1 hall) herror herrors
  | @unfinalized attempt e event hp hevent =>
    have hdone := h.outcome
    rw [hp] at hdone
    refine uploadInv_after s.errors (h.outside (by rw [hp]; exact id))
      (h.accepted (.inr hdone.ne_nil)) ⟨id, id⟩ (.inr ⟨event.toList, ?_, hdone.seen _⟩)
    intro x hx
    exact hevent x (Option.mem_toList.1 hx)
  | @refinalize attempt reply hp hlt =>
    have hdone := h.outcome
    rw [hp] at hdone
    exact uploadInv_after s.errors (h.outside (by rw [hp]; exact id))
      (h.accepted (.inr hdone.ne_nil)) ⟨id, id⟩ (hdone.retried reply)
  | complete hp hok =>
    have hdone := h.outcome
    rw [hp] at hdone
    obtain ⟨status, body, rfl, hsuccess⟩ := receivePost_ok hok
    exact uploadInv_after s.errors (h.outside (by rw [hp]; exact id))
      (h.accepted (.inr hdone.ne_nil)) ⟨id, id⟩ ⟨rfl, status, body, hsuccess, hdone.seen _⟩
  | take hw hjobs =>
    rw [hsame]
    exact h.work (by rw [hw]; nofun) fun k fate hpool => ⟨_, hpool.take hw hjobs⟩
  | retire hw hjobs hopen =>
    rw [hsame]
    refine h.work (by rw [hw]; nofun) fun k fate hpool => ⟨fate, hpool.depart ?_ ?_ ?_⟩
    · rw [hw]; nofun
    · exact .inr ⟨rfl, .inr ⟨hopen, hjobs⟩⟩
    · rw [hw]
      simp
  | unsendable hw =>
    exact h.work (by rw [hw]; nofun) fun k fate hpool => ⟨fate, hpool.unsendable _ hw⟩
  | put hw => exact h.work (by rw [hw]; nofun) fun k fate hpool => ⟨fate, hpool.put _ hw⟩
  | report hw =>
    rw [hsame]
    refine h.work (by rw [hw]; nofun) fun k fate hpool => ⟨fate, hpool.depart ?_ ?_ ?_⟩
    · rw [hw]; nofun
    · exact .inl ⟨rfl, hpool.blamed _ (.inl ⟨_, hw⟩)⟩
    · simp
  | leave hw =>
    rw [hsame]
    refine h.work (by rw [hw]; nofun) fun k fate hpool => ⟨fate, hpool.depart ?_ ?_ ?_⟩
    · rw [hw]; nofun
    · exact .inr ⟨rfl, .inl (hpool.blamed _ (.inr hw))⟩
    · rw [hw]
      simp

/-! ## Every call ends -/

/-- The steps a worker may take for what it holds. -/
def Putter.cost : Putter → Nat
  | .waiting | .leaving => 1
  | .putting _ _ attempt => 3 + (3 - attempt)
  | .failing _ => 2
  | .stopped => 0

/-- The steps that are left to the producer, with `length` chunks in the source; those of a chunk
and of its worker are counted until the chunk is in the queue. -/
def Producer.cost (n length : Nat) : Producer → Nat
  | .starting => 10 * length + n + 12
  | .beginning _ attempt => 10 * length + n + 8 + (3 - attempt)
  | .reopening _ _ => 10 * length + n + 7
  | .pulling stream _ => 10 * stream.inner.length + 6
  | .sending stream _ _ => 10 * stream.inner.length + 14
  | .polling stream _ => 10 * stream.inner.length + 7
  | .joining => 5
  | .finalizing attempt => 1 + (3 - attempt)
  | .returned _ => 0

/-- A bound on the steps that are left. -/
def UploadState.work (length : Nat) (s : UploadState n) : Nat :=
  s.producer.cost n length + 6 * s.jobs.length + ∑ w, (s.workers w).cost

/-- The bound when a worker changes. -/
theorem work_update {q : Putter} {jobs : List (Nat × Bytes)} {errors : List BackendError} {length : Nat}
    (hlt : 6 * jobs.length + q.cost < 6 * s.jobs.length + (s.workers w).cost) :
    { s with jobs := jobs, errors := errors, workers := Function.update s.workers w q }.work length <
      s.work length := by
  have hsum := LTS.sum_update Putter.cost s.workers w q
  simp only [UploadState.work]
  omega

theorem cost_uploadChunk (i : Nat) (bytes : Bytes) (attempt : Nat) (reply : Reply Unit) :
    ((uploadChunk attempt reply).putter i bytes attempt).cost < (Putter.putting i bytes attempt).cost := by
  cases hnext : uploadChunk attempt reply with
  | again =>
    have hlt := uploadChunk_again hnext
    simp only [Attempt.putter, Putter.cost]
    omega
  | done result =>
    cases result with
    | ok u =>
      simp only [Attempt.putter, Putter.cost]
      omega
    | error e =>
      simp only [Attempt.putter, Putter.cost]
      omega

theorem Producer.Before.cost_pos {p : Producer} (h : p.Before) (length : Nat) : 0 < p.cost n length := by
  cases p with
  | starting => exact Nat.succ_pos _
  | beginning =>
    simp only [Producer.cost]
    omega
  | reopening => exact Nat.succ_pos _
  | _ => exact h.elim

/-- **Every move lowers the bound.** -/
theorem UploadMove.work_lt {event : Option (UploadEvent n)} (hm : UploadMove H cut source request s event s') :
    s'.work (cut source).length < s.work (cut source).length := by
  cases hm with
  | refuse hb =>
    have hpos := hb.cost_pos (n := n) (cut source).length
    have hzero : ∀ r, (Producer.returned r).cost n (cut source).length = 0 := fun _ => rfl
    simp only [UploadState.work, UploadState.fail, hzero]
    omega
  | start hp _ =>
    simp only [UploadState.work, hp, Producer.cost]
    omega
  | rebegin hp hlt =>
    simp only [UploadState.work, hp, Producer.cost]
    omega
  | reject hp _ =>
    simp only [UploadState.work, UploadState.fail, hp, Producer.cost]
    omega
  | plan hp _ =>
    simp only [UploadState.work, hp, Producer.cost]
    omega
  | spawn hp _ =>
    have hsum : ∑ _w : Fin n, Putter.waiting.cost = n := by simp [Putter.cost]
    simp only [UploadState.work, hp, Producer.cost, ChunkStream.new, hsum]
    omega
  | exhausted hp _ =>
    simp only [UploadState.work, UploadState.close, hp, Producer.cost]
    omega
  | broken hp =>
    simp only [UploadState.work, UploadState.close, hp, Producer.cost]
    omega
  | skip hp hnext _ =>
    obtain ⟨raw, hinner, -⟩ := next_ok hnext
    simp only [UploadState.work, hp, Producer.cost, hinner, List.length_cons]
    omega
  | offer hp hnext _ =>
    obtain ⟨raw, hinner, -⟩ := next_ok hnext
    simp only [UploadState.work, hp, Producer.cost, hinner, List.length_cons]
    omega
  | abandon hp _ =>
    simp only [UploadState.work, UploadState.close, hp, Producer.cost]
    omega
  | hand hp _ _ =>
    simp only [UploadState.work, hp, Producer.cost, List.length_append, List.length_singleton]
    omega
  | heed hp _ =>
    simp only [UploadState.work, UploadState.close, hp, Producer.cost]
    omega
  | calm hp _ =>
    simp only [UploadState.work, hp, Producer.cost]
    omega
  | blame hp _ _ =>
    simp only [UploadState.work, UploadState.fail, hp, Producer.cost]
    omega
  | finalize hp _ _ _ =>
    simp only [UploadState.work, hp, Producer.cost]
    omega
  | unfinalized hp _ =>
    simp only [UploadState.work, UploadState.fail, hp, Producer.cost]
    omega
  | refinalize hp hlt =>
    simp only [UploadState.work, hp, Producer.cost]
    omega
  | complete hp _ =>
    simp only [UploadState.work, hp, Producer.cost]
    omega
  | take hw hjobs =>
    apply work_update
    simp only [hw, hjobs, Putter.cost, List.length_cons]
    omega
  | retire hw _ _ =>
    apply work_update
    simp only [hw, Putter.cost]
    omega
  | unsendable hw =>
    apply work_update
    simp only [hw, Putter.cost]
    omega
  | @put w i bytes attempt reply hw =>
    have hlt := cost_uploadChunk i bytes attempt reply
    apply work_update
    rw [hw]
    omega
  | report hw =>
    apply work_update
    simp only [hw, Putter.cost]
    omega
  | leave hw =>
    apply work_update
    simp only [hw, Putter.cost]
    omega

/-! ## No thread waits for one that is gone -/

variable {childUrl : String → Option String}

/-- A worker that is neither through nor waiting for the producer has a step. -/
theorem putter_enabled (urlError : Option String) (hw : s.workers w ≠ .stopped)
    (hqueue : s.jobs ≠ [] ∨ s.jobsOpen = false) :
    ∃ event s', putterStep urlError s w (s.workers w) event = some s' := by
  cases hq : s.workers w with
  | waiting =>
    cases hjobs : s.jobs with
    | cons x rest => exact ⟨.go, _, by simp only [putterStep, hjobs]; rfl⟩
    | nil =>
      have hclosed : s.jobsOpen = false := hqueue.resolve_left fun hne => hne hjobs
      exact ⟨.go, _, by simp only [putterStep, hjobs, hclosed]; rfl⟩
  | putting i bytes attempt =>
    cases urlError with
    | none => exact ⟨.reply (.failed ""), _, rfl⟩
    | some e => exact ⟨.go, _, rfl⟩
  | failing e => exact ⟨.go, _, rfl⟩
  | leaving => exact ⟨.go, _, rfl⟩
  | stopped => exact absurd hq hw

/-- Where no worker is needed, the producer has a step. -/
theorem producer_enabled (urlError : Option String)
    (hsending : ∀ stream i bytes, s.producer = .sending stream i bytes →
      s.allStopped = true ∨ s.jobs.length < n)
    (hjoining : s.producer = .joining → s.allStopped = true)
    (hne : ∀ r, s.producer ≠ .returned r) :
    ∃ event s', producerStep H cut source urlError request s s.producer event = some s' := by
  cases hp : s.producer with
  | starting =>
    cases haction : request.action with
    | none => exact ⟨.go, _, by simp only [producerStep, haction]; rfl⟩
    | some action =>
      have hsource : acceptSource H cut source request (.error "") (.ok ()) =
          .error (failure ("could not open upload source: " ++ "")) := rfl
      exact ⟨.source (.error "") (.ok ()), s.fail (failure ("could not open upload source: " ++ "")),
        by simp only [producerStep, haction, hsource]; rfl⟩
  | beginning m attempt =>
    cases hreply : beginUpload attempt (.failed "") with
    | again =>
      exact ⟨.begun (.failed ""), { s with producer := .beginning m (attempt + 1) },
        by simp only [producerStep, hreply]⟩
    | done result =>
      cases result with
      | error e => exact ⟨.begun (.failed ""), s.fail e, by simp only [producerStep, hreply]⟩
      | ok plan =>
        cases haccept : acceptPlan m plan with
        | error e =>
          exact ⟨.begun (.failed ""), { s with plan := some plan }.fail e,
            by simp only [producerStep, hreply, haccept]⟩
        | ok u =>
          exact ⟨.begun (.failed ""), { s with plan := some plan, producer := .reopening m plan },
            by simp only [producerStep, hreply, haccept]⟩
  | reopening m plan => exact ⟨.reopen (.error ""), _, rfl⟩
  | pulling stream i => exact ⟨.go, _, rfl⟩
  | sending stream i bytes =>
    rcases hsending stream i bytes hp with hall | hroom
    · exact ⟨.go, _, by simp only [producerStep, hall]; rfl⟩
    · cases hall : s.allStopped with
      | true => exact ⟨.go, _, by simp only [producerStep, hall]; rfl⟩
      | false => exact ⟨.go, _, by simp only [producerStep, hall, hroom, if_true]; rfl⟩
  | polling stream i =>
    cases herrors : s.errors with
    | nil => exact ⟨.go, _, by simp only [producerStep, herrors]; rfl⟩
    | cons e rest => exact ⟨.go, _, by simp only [producerStep, herrors]; rfl⟩
  | joining => exact ⟨.go, _, by simp only [producerStep, hjoining hp]; rfl⟩
  | finalizing attempt =>
    cases urlError with
    | some e => exact ⟨.go, _, rfl⟩
    | none =>
      cases hreply : finalizeUpload attempt (.failed "") with
      | again =>
        exact ⟨.finalized (.failed ""), { s with producer := .finalizing (attempt + 1) },
          by simp only [producerStep, hreply]; rfl⟩
      | done result =>
        cases result with
        | error e => exact ⟨.finalized (.failed ""), s.fail e, by simp only [producerStep, hreply]; rfl⟩
        | ok u =>
          exact ⟨.finalized (.failed ""), { s with producer := .returned (.ok request.size) },
            by simp only [producerStep, hreply]; rfl⟩
  | returned r => exact absurd hp (hne r)

/-- While the call has not returned, some thread has a step. -/
theorem UploadInv.enabled (h : UploadInv H cut source request s log) (hn : 0 < n)
    (hne : ∀ r, s.producer ≠ .returned r) :
    ∃ l s', uploadStep H cut source childUrl request s l = some s' := by
  have hproducer : (∃ event s', producerStep H cut source
      (request.action.bind fun a => childUrl a.href) request s s.producer event = some s') →
      ∃ l s', uploadStep H cut source childUrl request s l = some s' := by
    intro henabled
    obtain ⟨event, s', hst⟩ := henabled
    exact ⟨.producer event, s', hst⟩
  cases hall : s.allStopped with
  | true =>
    exact hproducer (producer_enabled _ (fun _ _ _ _ => .inl hall) (fun _ => hall) hne)
  | false =>
    by_cases hqueue : s.jobs ≠ [] ∨ s.jobsOpen = false
    · -- a worker can take a chunk, or learn that there are no more
      obtain ⟨w, hw⟩ : ∃ w, s.workers w ≠ .stopped := by
        by_contra hnone
        rw [UploadState.allStopped_iff.2 fun w => not_not.1 fun hw => hnone ⟨w, hw⟩] at hall
        cases hall
      obtain ⟨event, s', hst⟩ :=
        putter_enabled (request.action.bind fun a => childUrl a.href) hw hqueue
      exact ⟨.worker w event, s', hst⟩
    · obtain ⟨hjobs, hopen⟩ := not_or.1 hqueue
      apply hproducer
      refine producer_enabled _ (fun _ _ _ _ => .inr ?_) (fun hp => ?_) hne
      · rw [not_not.1 hjobs]
        exact hn
      · obtain ⟨k, fate, hpaced, -⟩ := h.scope (by rw [hp]; trivial)
        rw [hp] at hpaced
        exact absurd hpaced.1 hopen

theorem upload_inv (H : Hashes) (cut : Cutter) (source : Bytes) (childUrl : String → Option String)
    (request : UploadRequest) (hn : 0 < n) :
    ((upload H cut source childUrl request n).record uploadEvent).Inductive fun x =>
      UploadInv H cut source request x.1 x.2 where
  init x hx := by
    obtain ⟨hs, hlog⟩ := hx
    rw [show x.1 = .initial n from hs, hlog]
    exact uploadInv_initial
  step x l x' hx hst := by
    obtain ⟨hstep, hlog⟩ := LTS.record_step.1 hst
    rw [hlog]
    exact hx.move hn (uploadStep_move hstep)

/-- What has been seen is of the workers, or the chunks were delivered first. -/
theorem UploadInv.seen (h : UploadInv H cut source request s log) :
    (∀ x ∈ log, x.OfWorker) ∨ ∃ last, (∀ x ∈ last, ∃ reply next, x = .finalized reply next) ∧
      Finalized (cut source) s.missing log last := by
  have hscope : s.producer.InScope → ∀ x ∈ log, x.OfWorker := by
    intro hin
    obtain ⟨k, fate, -, hpool⟩ := h.scope hin
    exact hpool.ofWorker
  have hbefore : s.producer.Before → ∀ x ∈ log, x.OfWorker := by
    intro hb
    rw [hb.unlogged h.outcome]
    nofun
  have houtcome := h.outcome
  cases hp : s.producer with
  | finalizing attempt =>
    rw [hp] at houtcome
    exact .inr ⟨[], nofun, houtcome⟩
  | returned result =>
    rw [hp] at houtcome
    cases result with
    | error e => exact houtcome
    | ok size =>
      obtain ⟨-, status, body, -, hdone⟩ := houtcome
      refine .inr ⟨_, fun x hx => ?_, hdone⟩
      exact ⟨_, _, List.mem_singleton.1 hx⟩
  | starting => exact .inl (hbefore (by rw [hp]; trivial))
  | beginning => exact .inl (hbefore (by rw [hp]; trivial))
  | reopening => exact .inl (hbefore (by rw [hp]; trivial))
  | pulling => exact .inl (hscope (by rw [hp]; trivial))
  | sending => exact .inl (hscope (by rw [hp]; trivial))
  | polling => exact .inl (hscope (by rw [hp]; trivial))
  | joining => exact .inl (hscope (by rw [hp]; trivial))

/-- **The worker pool of an upload loses neither a chunk nor an error.** For every plan, every
number of workers, every order of steps and all answers, with a source that does not change:

* an `Ok` means that every chunk the plan lists was sent by one worker, with its bytes, and
  answered with success, that no other was sent, and that `finalize_upload` was called after that and
  succeeded;
* once a chunk has failed for good, `finalize_upload` is not called and an `Err` is returned;
* under a plan with an index outside the manifest or a duplicate nothing is sent, and an `Err` is
  returned;
* until the call has returned, some thread has a step, and the producer itself if no worker is
  left; and the call takes at most `work` steps. -/
theorem upload_loses_nothing (H : Hashes) (cut : Cutter) (source : Bytes)
    (childUrl : String → Option String) (request : UploadRequest) (n : Nat) (hn : 0 < n)
    (s : UploadState n) (log : UploadLog n)
    (hr : ((upload H cut source childUrl request n).record uploadEvent).Reachable (s, log)) :
    (∀ size, s.producer = .returned (.ok size) → size = request.size ∧
      ∃ plan status body, s.plan = some plan ∧ status.isSuccess = true ∧
        Finalized (cut source) plan.missing log [.finalized (.response status body) (.done (.ok ()))]) ∧
    (PutFailed log → .finalize ∉ log ∧ ∀ r, s.producer = .returned r → ∃ e, r = .error e) ∧
    (∀ m plan, (ChunkStream.new cut source .fastCdcV1).finish H = .ok m → s.plan = some plan →
      ¬ PlanAccepted m plan.missing →
      log = [] ∧ ∀ r, s.producer = .returned r → ∃ e, r = .error e) ∧
    ((∀ r, s.producer ≠ .returned r) →
      (∃ l s', uploadStep H cut source childUrl request s l = some s') ∧
      ((∀ w, s.workers w = .stopped) →
        ∃ event s', uploadStep H cut source childUrl request s (.producer event) = some s')) ∧
    ∀ ls x', ((upload H cut source childUrl request n).record uploadEvent).Run (s, log) ls x' →
      ls.length ≤ s.work (cut source).length := by
  have hi := (upload_inv H cut source childUrl request hn).reachable hr
  -- an `Ok` is the only result that is no `Err`
  have herr : ∀ {r}, (∀ size, r ≠ .ok size) → s.producer = .returned r → ∃ e, r = .error e := by
    intro r hok _
    cases r with
    | ok size => exact absurd rfl (hok size)
    | error e => exact ⟨e, rfl⟩
  have hok : ∀ size, s.producer = .returned (.ok size) → size = request.size ∧
      ∃ status body, status.isSuccess = true ∧ Finalized (cut source) s.missing log
        [.finalized (.response status body) (.done (.ok ()))] := by
    intro size hp
    have houtcome := hi.outcome
    rw [hp] at houtcome
    exact houtcome
  refine ⟨fun size hp => ?_, fun hfail => ?_, fun m plan hfinish hplan hbad => ?_, fun hne => ?_, ?_⟩
  · obtain ⟨hsize, status, body, hsuccess, hdone⟩ := hok size hp
    obtain ⟨m, plan, -, hplan, -⟩ := hi.accepted (.inr hdone.ne_nil)
    rw [show s.missing = plan.missing by rw [UploadState.missing, hplan]] at hdone
    exact ⟨hsize, plan, status, body, hplan, hsuccess, hdone⟩
  · rcases hi.seen with hworkers | ⟨last, hlast, hdone⟩
    · refine ⟨finalize_notMem hworkers, fun r hp => herr (fun size heq => ?_) hp⟩
      rw [heq] at hp
      obtain ⟨-, status, body, -, puts, retries, hlog, -⟩ := hok size hp
      refine finalize_notMem hworkers ?_
      rw [hlog]
      exact List.mem_append_right _ List.mem_cons_self
    · exact absurd hfail (hdone.not_failed hlast)
  · have hnil : log = [] := by
      by_contra hne
      obtain ⟨m', plan', hfinish', hplan', haccepted⟩ := hi.accepted (.inr hne)
      rw [hfinish] at hfinish'
      rw [hplan] at hplan'
      cases hfinish'
      cases hplan'
      exact hbad haccepted
    refine ⟨hnil, fun r hp => herr (fun size heq => ?_) hp⟩
    rw [heq] at hp
    obtain ⟨-, status, body, -, hdone⟩ := hok size hp
    exact hdone.ne_nil hnil
  · refine ⟨hi.enabled hn hne, fun hall => ?_⟩
    have hstopped := UploadState.allStopped_iff.2 hall
    exact producer_enabled _ (fun _ _ _ _ => .inl hstopped) (fun _ => hstopped) hne
  · intro ls x' hrun
    exact hrun.length_le (fun x => x.1.work (cut source).length) fun x l y hst =>
      (uploadStep_move (LTS.record_step.1 hst).1).work_lt

namespace Sample

def uploaded : UploadRequest := ⟨hashes.sha256 [0x61], 1, [0x61], some ⟨"https://host/objects", []⟩⟩

section

variable {H : Hashes} {b : Bytes}

/-- Twice the bytes `b`, which are of the maximum chunk size. -/
def cutTwice (b : Bytes) : Cutter := fun _ => [⟨0, b⟩, ⟨8388608, b⟩]

def manifestTwice (H : Hashes) (b : Bytes) : ObjectManifest :=
  ⟨.v1, .fastCdcV1, H.sha256 (b ++ b), 16777216, [⟨H.blake3 b, 0, 8388608⟩, ⟨H.blake3 b, 8388608, 8388608⟩]⟩

def uploadedTwice (H : Hashes) (b : Bytes) : UploadRequest :=
  ⟨H.sha256 (b ++ b), 16777216, [0x61], some ⟨"https://host/objects", []⟩⟩

theorem accept_part (hb : b.length = 8388608) (s : ChunkStream) (offset : UInt64) :
    s.accept H ⟨offset, b⟩ = .ok (⟨⟨H.blake3 b, offset, 8388608⟩, b⟩, { s with
      inner := s.inner.tail
      hashed := s.hashed ++ b
      descriptors := s.descriptors ++ [⟨H.blake3 b, offset, 8388608⟩]
      objectSize := s.objectSize + 8388608 }) := by
  rw [ChunkStream.accept, hb]
  rfl

theorem next_part (hb : b.length = 8388608) {s : ChunkStream} {offset : UInt64} {rest : List RawChunk}
    (h : s.inner = ⟨offset, b⟩ :: rest) :
    s.next H = (some (.ok ⟨⟨H.blake3 b, offset, 8388608⟩, b⟩), { s with
      inner := s.inner.tail
      hashed := s.hashed ++ b
      descriptors := s.descriptors ++ [⟨H.blake3 b, offset, 8388608⟩]
      objectSize := s.objectSize + 8388608 }) := by
  simp [ChunkStream.next, h, accept_part hb]

theorem finish_twice (hb : b.length = 8388608) (source : Bytes) :
    (ChunkStream.new (cutTwice b) source .fastCdcV1).finish H = .ok (manifestTwice H b) := by
  unfold ChunkStream.finish
  simp only [ChunkStream.new, cutTwice, ChunkStream.pullAll, accept_part hb]
  rfl

theorem source_twice (hb : b.length = 8388608) (source : Bytes) :
    acceptSource H (cutTwice b) source (uploadedTwice H b) (.ok ()) (.ok ()) = .ok (manifestTwice H b) := by
  simp [acceptSource, finish_twice hb, manifestTwice, uploadedTwice]

variable {cut : Cutter} {source : Bytes} {childUrl : String → Option String} {request : UploadRequest}
  {s s' : UploadState n}

/-- The producer pulls a chunk that is missing. -/
theorem pulled_chunk {stream stream' : ChunkStream} {index : Nat} {chunk : Chunk} (missing : List Nat)
    (hp : s.producer = .pulling stream index) (hnext : stream.next H = (some (.ok chunk), stream'))
    (hindex : index < 2 ^ 32) (hmissing : s.missing = missing) (hm : index ∈ missing) :
    uploadStep H cut source childUrl request s (.producer .go) =
      some { s with producer := .sending stream' index chunk.data } := by
  simp [uploadStep, hp, producerStep, UploadState.pull, hnext, hmissing, hm]
  omega

theorem recorded_step {l : UploadLabel n} {log : UploadLog n}
    (h : uploadStep H cut source childUrl request s l = some s') :
    ((upload H cut source childUrl request n).record uploadEvent).step (s, log) l
      (s', log ++ (uploadEvent s l s').toList) :=
  ⟨h, rfl⟩

/-- Two workers and two chunks: the `PUT` of the second is done before the first is answered, and that
is answered with 503 once. -/
theorem twice_overtaken (hb : b.length = 8388608) (source : Bytes) :
    ∃ (s s' : UploadState 2) (log log' : UploadLog 2) (ls : List (UploadLabel 2)),
      ((upload H (cutTwice b) source (fun _ => none) (uploadedTwice H b) 2).record uploadEvent).Reachable
        (s, log) ∧
      (s.workers first = .putting 0 b 0 ∧ s.workers second = .waiting ∧ s.jobs = []) ∧
      ((upload H (cutTwice b) source (fun _ => none) (uploadedTwice H b) 2).record uploadEvent).Run
        (s, log) ls (s', log') ∧
      s'.producer = .returned (.ok 16777216) := by
  have hsource : uploadStep H (cutTwice b) source (fun _ => none) (uploadedTwice H b) (.initial 2)
      (.producer (.source (.ok ()) (.ok ()))) =
        some { (.initial 2 : UploadState 2) with producer := .beginning (manifestTwice H b) 0 } := by
    simp only [uploadStep, UploadState.initial, producerStep, source_twice hb]
    rfl
  exact ⟨_, _, _, _, [.worker first (.reply (.response ⟨503, "503 Service Unavailable"⟩ (.ok ()))),
      .worker first (.reply (.response ⟨204, "204 No Content"⟩ (.ok ()))), .producer .go, .producer .go,
      .worker second .go, .worker first .go, .producer .go,
      .producer (.finalized (.response ⟨200, "200 OK"⟩ (.ok ())))],
    ⟨(.initial 2, []), [.producer (.source (.ok ()) (.ok ())),
      .producer (.begun (.response ⟨200, "200 OK"⟩ (.ok ⟨1, 7, [0, 1]⟩))), .producer (.reopen (.ok ())),
      .producer .go, .producer .go, .producer .go, .producer .go, .producer .go, .worker first .go,
      .worker second .go, .worker second (.reply (.response ⟨204, "204 No Content"⟩ (.ok ())))], ⟨rfl, rfl⟩,
      .cons (recorded_step hsource) (.cons (recorded_step rfl) (.cons (recorded_step rfl)
        (.cons (recorded_step (pulled_chunk [0, 1] rfl (next_part hb rfl) (by decide) rfl (by decide)))
        (.cons (recorded_step rfl) (.cons (recorded_step rfl)
        (.cons (recorded_step (pulled_chunk [0, 1] rfl (next_part hb rfl) (by decide) rfl (by decide)))
        (.cons (recorded_step rfl) (.cons (recorded_step rfl) (.cons (recorded_step rfl)
        (.cons (recorded_step rfl) (.nil _)))))))))))⟩, ⟨rfl, rfl, rfl⟩,
      .cons (recorded_step rfl) (.cons (recorded_step rfl) (.cons (recorded_step rfl)
        (.cons (recorded_step rfl) (.cons (recorded_step rfl) (.cons (recorded_step rfl)
        (.cons (recorded_step rfl) (.cons (recorded_step rfl) (.nil _)))))))), rfl⟩

end

end Sample

open Sample in
/-- Twice 8 MiB of zeros: the call returns `Ok`, and both chunks were delivered. -/
theorem upload_loses_nothing_retried :
    ∃ (s : UploadState 2) (log : UploadLog 2),
      ((upload zeroHashes (cutTwice zeros) (zeros ++ zeros) (fun _ => none) (uploadedTwice zeroHashes zeros)
        2).record uploadEvent).Reachable (s, log) ∧
      s.producer = .returned (.ok 16777216) ∧ ∃ plan status body, s.plan = some plan ∧
        status.isSuccess = true ∧ Finalized (cutTwice zeros (zeros ++ zeros)) plan.missing log
          [.finalized (.response status body) (.done (.ok ()))] := by
  obtain ⟨_, s, _, log, _, hr, -, hrun, hp⟩ := twice_overtaken (H := zeroHashes) zeros_length (zeros ++ zeros)
  exact ⟨s, log, hr.run hrun, hp, ((upload_loses_nothing zeroHashes (cutTwice zeros) (zeros ++ zeros)
    (fun _ => none) (uploadedTwice zeroHashes zeros) 2 (by decide) s log (hr.run hrun)).1 _ hp).2⟩

end GitLfsDelta
