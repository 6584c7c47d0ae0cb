import Mathlib.Algebra.Order.BigOperators.Group.Finset
import Mathlib.Order.Interval.Finset.Nat
import GitLfsDelta.L5Client.Integrity
import GitLfsDelta.L5Client.Moves

/-!
# The download pipeline

The coordinator of `download` never has more than `n` chunks on their way: it sends `n` jobs,
then one for each chunk it writes. Both channels have room for `n`, so no send ever waits for
long, and while a chunk is missing some worker has it, or the channels have.

`Trace` records what a run has written, and which chunks failed.

* `pipeline_ordered`: the window, the place of every chunk in it, what has been written, that
  some step is always enabled, what is returned when a chunk failed, and that no send is ever
  blocked and every call ends.
-/
namespace GitLfsDelta

variable {n : Nat} {H : Hashes} {urlError : Option String} {request : DownloadRequest}

variable {s s' : Pipeline n}

/-! ## Chunks on their way -/

/-- The index a worker is busy with. -/
def Worker.job : Worker → Multiset Nat
  | .fetching i _ _ | .sending i _ => {i}
  | _ => 0

@[simp] theorem Worker.job_waiting : Worker.waiting.job = 0 := rfl

@[simp] theorem Worker.job_stopped : Worker.stopped.job = 0 := rfl

@[simp] theorem Worker.job_fetching (i : Nat) (d : ChunkDescriptor) (f : Fetch) :
    (Worker.fetching i d f).job = {i} := rfl

@[simp] theorem Worker.job_sending (i : Nat) (result : Except BackendError Bytes) :
    (Worker.sending i result).job = {i} := rfl

/-- The indexes in the channel of jobs, in the workers and in the channel of results. -/
def Pipeline.inFlight (s : Pipeline n) : Multiset Nat :=
  (s.jobs.map Prod.fst : List Nat) + ∑ w, (s.workers w).job + (s.completed.map Prod.fst : List Nat)

theorem mem_inFlight {s : Pipeline n} {w : Fin n} {i : Nat} (hi : i ∈ (s.workers w).job) :
    i ∈ s.inFlight := by
  have hle : (s.workers w).job ≤ ∑ v, (s.workers v).job :=
    Finset.single_le_sum (fun _ _ => Multiset.zero_le _) (Finset.mem_univ w)
  exact Multiset.mem_add.2 (.inl (Multiset.mem_add.2 (.inr (Multiset.mem_of_le hle hi))))

theorem card_inFlight (s : Pipeline n) :
    s.inFlight.card = s.jobs.length + (∑ w, (s.workers w).job).card + s.completed.length := by
  simp [Pipeline.inFlight]

/-- The window of chunks between the next one to write and the next one to schedule: each of
them, and nothing else, is in exactly one place. -/
structure Window (n : Nat) (inFlight : Multiset Nat) (p : Progress) : Prop where
  written : p.nextWrite ≤ p.nextScheduled
  scheduled : p.nextScheduled ≤ p.manifest.chunks.length
  bound : p.nextScheduled ≤ p.nextWrite + n
  places : ∀ i, inFlight.count i + (if (p.pending i).isSome then 1 else 0) =
    if p.nextWrite ≤ i ∧ i < p.nextScheduled then 1 else 0

theorem Window.mem {b : Multiset Nat} {p : Progress} (h : Window n b p) {i : Nat} (hi : i ∈ b) :
    p.nextWrite ≤ i ∧ i < p.nextScheduled := by
  have hpos := Multiset.count_pos.2 hi
  have hpl := h.places i
  by_contra hout
  rw [if_neg hout] at hpl
  omega

/-- The chunks on their way fit in the window. -/
theorem Window.card {b : Multiset Nat} {p : Progress} (h : Window n b p) :
    b.card ≤ p.nextScheduled - p.nextWrite := by
  have hsum : ∑ i ∈ Finset.Ico p.nextWrite p.nextScheduled, b.count i = b.card :=
    Multiset.sum_count_eq_card fun i hi => Finset.mem_Ico.2 (h.mem hi)
  rw [← hsum, ← Nat.card_Ico, Finset.card_eq_sum_ones]
  refine Finset.sum_le_sum fun i hi => ?_
  have hpl := h.places i
  rw [if_pos (Finset.mem_Ico.1 hi)] at hpl
  omega

theorem Window.schedule {b : Multiset Nat} {p : Progress} (h : Window n b p)
    (hlt : p.nextScheduled < p.manifest.chunks.length) (hn : p.nextScheduled < p.nextWrite + n) :
    Window n (b + {p.nextScheduled}) { p with nextScheduled := p.nextScheduled + 1 } where
  written := Nat.le_succ_of_le h.written
  scheduled := hlt
  bound := hn
  places i := by
    have hpl := h.places i
    have hw := h.written
    simp only [Multiset.count_add, Multiset.count_singleton]
    by_cases e : i = p.nextScheduled
    · have hold : ¬ (p.nextWrite ≤ i ∧ i < p.nextScheduled) := by omega
      have hnew : p.nextWrite ≤ i ∧ i < p.nextScheduled + 1 := by omega
      rw [if_neg hold] at hpl
      rw [if_pos e, if_pos hnew]
      omega
    · have hsame : (p.nextWrite ≤ i ∧ i < p.nextScheduled + 1) ↔
          p.nextWrite ≤ i ∧ i < p.nextScheduled := by omega
      rw [if_neg e, if_congr hsame rfl rfl, ← hpl]
      omega

theorem Window.receive {b : Multiset Nat} {p : Progress} {i : Nat} (h : Window n (b + {i}) p)
    (bytes : Bytes) :
    Window n b { p with pending := Function.update p.pending i (some bytes) } where
  written := h.written
  scheduled := h.scheduled
  bound := h.bound
  places j := by
    have hpl := h.places j
    simp only [Multiset.count_add, Multiset.count_singleton] at hpl
    by_cases e : j = i
    · subst e
      rw [if_pos rfl] at hpl
      simp only [Function.update_self, Option.isSome_some, if_true]
      split_ifs at hpl ⊢ <;> omega
    · rw [if_neg e] at hpl
      simp only [Function.update_of_ne e]
      exact hpl

theorem Window.write {b : Multiset Nat} {p : Progress} (h : Window n b p) {bytes : Bytes}
    (hb : p.pending p.nextWrite = some bytes) :
    Window n b { p with
      nextWrite := p.nextWrite + 1
      pending := Function.update p.pending p.nextWrite none } := by
  have hnext : p.nextWrite < p.nextScheduled := by
    have hpl := h.places p.nextWrite
    have hout : ¬ p.nextWrite < p.nextScheduled →
        ¬ (p.nextWrite ≤ p.nextWrite ∧ p.nextWrite < p.nextScheduled) := fun hge hin => hge hin.2
    by_contra hge
    rw [hb, if_neg (hout hge)] at hpl
    simp at hpl
  refine ⟨hnext, h.scheduled, ?_, fun i => ?_⟩
  · have := h.bound
    simp only
    omega
  · have hpl := h.places i
    by_cases e : i = p.nextWrite
    · subst e
      have hpast : ¬ (p.nextWrite + 1 ≤ p.nextWrite ∧ p.nextWrite < p.nextScheduled) := by omega
      have hin : p.nextWrite ≤ p.nextWrite ∧ p.nextWrite < p.nextScheduled := ⟨le_refl _, hnext⟩
      rw [hb, if_pos hin] at hpl
      simp only [Function.update_self, Option.isSome_none, Bool.false_eq_true, if_false]
      rw [if_neg hpast]
      simpa using hpl
    · have hsame : (p.nextWrite + 1 ≤ i ∧ i < p.nextScheduled) ↔
          p.nextWrite ≤ i ∧ i < p.nextScheduled := by omega
      simp only [Function.update_of_ne e]
      rw [hpl, if_congr hsame rfl rfl]

/-! What each move does to the chunks on their way. -/

theorem inFlight_schedule (i : Nat) (d : ChunkDescriptor) (c : Coordinator) :
    { s with jobs := s.jobs ++ [(i, d)], coordinator := c }.inFlight = s.inFlight + {i} := by
  simp only [Pipeline.inFlight, List.map_append, List.map_cons, List.map_nil, ← Multiset.coe_add,
    Multiset.coe_singleton]
  ac_rfl

theorem inFlight_receive {i : Nat} {result : Except BackendError Bytes}
    {rest : List (Nat × Except BackendError Bytes)} (hq : s.completed = (i, result) :: rest)
    (c : Coordinator) : s.inFlight = { s with completed := rest, coordinator := c }.inFlight + {i} := by
  simp only [Pipeline.inFlight, hq, List.map_cons, ← Multiset.cons_coe, ← Multiset.singleton_add]
  ac_rfl

theorem inFlight_take {w : Fin n} {i : Nat} {d : ChunkDescriptor}
    {rest : List (Nat × ChunkDescriptor)} (hw : s.workers w = .waiting)
    (hjobs : s.jobs = (i, d) :: rest) :
    { s with
      jobs := rest
      workers := Function.update s.workers w (.fetching i d .reading) }.inFlight = s.inFlight := by
  have hsum := LTS.sum_update Worker.job s.workers w (.fetching i d .reading)
  rw [hw, Worker.job_waiting, Worker.job_fetching, add_zero] at hsum
  simp only [Pipeline.inFlight, hsum, hjobs, List.map_cons, ← Multiset.cons_coe, ← Multiset.singleton_add]
  ac_rfl

theorem inFlight_send {w : Fin n} {i : Nat} {result : Except BackendError Bytes}
    (hw : s.workers w = .sending i result) :
    { s with
      completed := s.completed ++ [(i, result)]
      workers := Function.update s.workers w .waiting }.inFlight = s.inFlight := by
  have hsum := LTS.sum_update Worker.job s.workers w .waiting
  rw [hw, Worker.job_sending, Worker.job_waiting, add_zero] at hsum
  simp only [Pipeline.inFlight, ← hsum, List.map_append, List.map_cons, List.map_nil,
    ← Multiset.coe_add, Multiset.coe_singleton]
  ac_rfl

/-- A worker that keeps its job, or has none before and after. -/
theorem inFlight_keep {w : Fin n} {q : Worker} (hq : q.job = (s.workers w).job) (cache : Cache)
    (published : List (ChunkId × Bytes)) :
    { s with
      cache := cache
      published := published
      workers := Function.update s.workers w q }.inFlight = s.inFlight := by
  have hsum := LTS.sum_update Worker.job s.workers w q
  rw [hq] at hsum
  simp only [Pipeline.inFlight, add_right_cancel hsum]

/-! ## The past of a run -/

/-- What a run has done so far. -/
structure Trace where
  /-- The indexes written and hashed, in this order. -/
  wrote : List Nat
  /-- The chunks for which `read_or_fetch_chunk` returned an error. -/
  failures : List (Nat × BackendError)
  /-- The first of them whose result the coordinator received. -/
  received : Option (Nat × BackendError)
  /-- The error of a write to the temporary file. -/
  unwritten : Option BackendError

def Trace.empty : Trace := ⟨[], [], none, none⟩

/-- Note the failure of a worker that has just returned from `read_or_fetch_chunk`. -/
def Trace.note (t : Trace) : Worker → Trace
  | .sending i (.error e) => { t with failures := t.failures ++ [(i, e)] }
  | _ => t

def Trace.next (t : Trace) (s : Pipeline n) (l : DownloadEvent n) (s' : Pipeline n) : Trace :=
  match l with
  | .coordinator .go =>
    match s.coordinator, s.completed with
    | .receiving p, (i, .error e) :: _ =>
      if p.nextWrite < p.manifest.chunks.length then { t with received := t.received.or (some (i, e)) }
      else t
    | _, _ => t
  | .coordinator (.write result) =>
    match s.coordinator, result with
    | .draining p, .ok () => { t with wrote := t.wrote ++ [p.nextWrite] }
    | .draining _, .error e =>
      { t with unwritten := some (failure ("could not reconstruct download: " ++ e)) }
    | _, _ => t
  | .worker w _ =>
    match s.workers w with
    | .fetching _ _ _ => t.note (s'.workers w)
    | _ => t
  | _ => t

/-- The call of `download` with its past. -/
def tracedDownload (H : Hashes) (childUrl : String → Option String) (request : DownloadRequest)
    (n : Nat) : LTS (Pipeline n × Trace) (DownloadEvent n) :=
  (download H childUrl request n).annotate .empty Trace.next

/-! ## The invariant -/

/-- A failed result is on its way to the coordinator. -/
def Pipeline.Carries (s : Pipeline n) (x : Nat × BackendError) : Prop :=
  (∃ w, s.workers w = .sending x.1 (.error x.2)) ∨ (x.1, .error x.2) ∈ s.completed

/-- In the loops. -/
structure Looping (s : Pipeline n) (t : Trace) (p : Progress) : Prop where
  jobsOpen : s.jobsOpen = true
  alive : ∀ w, (s.workers w).isStopped = false
  window : Window n s.inFlight p
  wrote : t.wrote = List.range p.nextWrite
  received : t.received = none
  failures : ∀ x ∈ t.failures, s.Carries x

/-- How far the coordinator has scheduled at each point of the loops. -/
def Coordinator.Paced (n : Nat) : Coordinator → Prop
  | .priming p => p.nextWrite = 0 ∧ p.pending 0 = none ∧ p.nextScheduled ≤ n
  | .receiving p => p.nextScheduled = min p.manifest.chunks.length (p.nextWrite + n) ∧
      p.pending p.nextWrite = none
  | .draining p => p.nextScheduled = min p.manifest.chunks.length (p.nextWrite + n)
  | .scheduling p => p.nextScheduled + 1 = p.nextWrite + n ∧
      p.nextScheduled < p.manifest.chunks.length
  | _ => True

/-- The error is that of the first failed result, and nothing from this chunk on was written;
or it is that of a write. -/
def Trace.Blames (t : Trace) (e : BackendError) : Prop :=
  (∃ i, t.received = some (i, e) ∧ ∀ j ∈ t.wrote, j < i) ∨ t.received = none ∧ t.unwritten = some e

/-- What the outcome of the scope says about the chunks. -/
def Coordinator.Explains (inFlight : Multiset Nat) (t : Trace) : Coordinator → Prop
  | .starting | .creating _ => t = .empty
  | .joining _ (.ok ()) => inFlight = 0 ∧ t.failures = [] ∧ t.received = none
  | .joining _ (.error e) => t.Blames e
  | .finishing _ | .returned (.ok _) => t.failures = [] ∧ t.received = none
  | .returned (.error e) => (t.failures = [] ∧ t.received = none) ∨ t.Blames e
  | _ => True

structure SchedInv (s : Pipeline n) (t : Trace) : Prop where
  loops : ∀ p, s.coordinator.progress? = some p → Looping s t p
  paced : s.coordinator.Paced n
  load : s.inFlight.card ≤ n
  closed : ∀ m r, s.coordinator = .joining m r → s.jobsOpen = false
  outside : s.coordinator.Outside → ∀ w, s.workers w = .stopped
  outcome : s.coordinator.Explains s.inFlight t

variable {t t' : Trace}

theorem inFlight_initial (cache : Cache) : (Pipeline.initial n cache).inFlight = 0 := by
  simp [Pipeline.inFlight, Pipeline.initial, Worker.job]

theorem schedInv_initial (cache : Cache) : SchedInv (.initial n cache) .empty where
  loops _ h := nomatch h
  paced := trivial
  load := by rw [inFlight_initial]; exact Nat.zero_le n
  closed _ _ h := nomatch h
  outside _ _ := rfl
  outcome := rfl

/-! ## The workers keep the invariant -/

theorem SchedInv.worker (h : SchedInv s t) {w : Fin n} (hw : s.workers w ≠ .stopped)
    (hc : s'.coordinator = s.coordinator) (ho : s'.jobsOpen = s.jobsOpen)
    (hf : s'.inFlight = s.inFlight)
    (hlive : s.jobsOpen = true → (∀ v, (s.workers v).isStopped = false) →
      ∀ v, (s'.workers v).isStopped = false)
    (hcarry : ∀ x, s.Carries x → s'.Carries x)
    (ht : t' = t ∨ ∃ x, s'.Carries x ∧ s.inFlight ≠ 0 ∧ t' = { t with failures := t.failures ++ [x] }) :
    SchedInv s' t' := by
  have hin : ¬ s.coordinator.Outside := fun hout => hw (h.outside hout w)
  refine ⟨fun p hp => ?_, hc ▸ h.paced, hf ▸ h.load, fun m r hj => ?_, fun hout => ?_, ?_⟩
  · rw [hc] at hp
    have hl := h.loops p hp
    have hwindow : Window n s'.inFlight p := hf ▸ hl.window
    have hopen := ho.trans hl.jobsOpen
    have halive := hlive hl.jobsOpen hl.alive
    rcases ht with rfl | ⟨x, hx, -, rfl⟩
    · exact ⟨hopen, halive, hwindow, hl.wrote, hl.received, fun x hx => hcarry x (hl.failures x hx)⟩
    · refine ⟨hopen, halive, hwindow, hl.wrote, hl.received, fun y hy => ?_⟩
      rcases List.mem_append.1 hy with hy | hy
      · exact hcarry y (hl.failures y hy)
      · rw [List.mem_singleton] at hy
        exact hy ▸ hx
  · rw [ho]
    exact h.closed m r (hc ▸ hj)
  · exact absurd (hc ▸ hout) hin
  · rw [hc, hf]
    rcases ht with rfl | ⟨x, -, hne, rfl⟩
    · exact h.outcome
    · -- another failure changes nothing once an error is on its way out
      have hout := h.outcome
      cases hco : s.coordinator with
      | joining m result =>
        rw [hco] at hout
        cases result with
        | error e => exact hout
        | ok u => exact absurd hout.1 hne
      | starting => exact absurd (hco ▸ trivial) hin
      | creating => exact absurd (hco ▸ trivial) hin
      | finishing => exact absurd (hco ▸ trivial) hin
      | returned => exact absurd (hco ▸ trivial) hin
      | _ => trivial

/-- A worker that changes from `q` to `q'` and stays alive keeps the others alive. -/
theorem alive_update {w : Fin n} {q : Worker} (hq : q.isStopped = false)
    (h : ∀ v, (s.workers v).isStopped = false) (v : Fin n) :
    (Function.update s.workers w q v).isStopped = false := by
  by_cases e : v = w
  · subst e; rw [Function.update_self]; exact hq
  · rw [Function.update_of_ne e]; exact h v

/-- The other workers still carry what they carried. -/
theorem carries_update {w : Fin n} {q : Worker} {C : List (Nat × Except BackendError Bytes)}
    {x : Nat × BackendError} (hC : ∀ y ∈ s.completed, y ∈ C)
    (hw : s.workers w = .sending x.1 (.error x.2) → (x.1, .error x.2) ∈ C) (h : s.Carries x) :
    (∃ v, Function.update s.workers w q v = .sending x.1 (.error x.2)) ∨ (x.1, .error x.2) ∈ C := by
  rcases h with ⟨v, hv⟩ | hx
  · by_cases e : v = w
    · subst e; exact .inr (hw hv)
    · exact .inl ⟨v, by rw [Function.update_of_ne e]; exact hv⟩
  · exact .inr (hC _ hx)

theorem SchedInv.take (h : SchedInv s t) {w : Fin n} {i : Nat} {d : ChunkDescriptor}
    {rest : List (Nat × ChunkDescriptor)} (hw : s.workers w = .waiting)
    (hjobs : s.jobs = (i, d) :: rest) :
    SchedInv { s with
      jobs := rest
      workers := Function.update s.workers w (.fetching i d .reading) } t :=
  h.worker (w := w) (by rw [hw]; exact nofun) rfl rfl (inFlight_take hw hjobs)
    (fun _ => alive_update rfl)
    (fun x => carries_update (fun _ hy => hy) (by rw [hw]; exact nofun)) (.inl rfl)

theorem SchedInv.stop (h : SchedInv s t) {w : Fin n} (hw : s.workers w = .waiting)
    (hopen : s.jobsOpen = false) :
    SchedInv { s with workers := Function.update s.workers w .stopped } t := by
  refine h.worker (w := w) (by rw [hw]; exact nofun) rfl rfl (inFlight_keep (by rw [hw]; rfl) _ _) ?_
    (fun x => carries_update (fun _ hy => hy) (by rw [hw]; exact nofun)) (.inl rfl)
  intro ho
  rw [hopen] at ho
  cases ho

theorem SchedInv.send (h : SchedInv s t) {w : Fin n} {i : Nat} {result : Except BackendError Bytes}
    (hw : s.workers w = .sending i result) :
    SchedInv { s with
      completed := s.completed ++ [(i, result)]
      workers := Function.update s.workers w .waiting } t := by
  refine h.worker (w := w) (by rw [hw]; exact nofun) rfl rfl (inFlight_send hw)
    (fun _ => alive_update rfl)
    (fun x => carries_update (fun _ hy => List.mem_append_left _ hy) fun hx => ?_) (.inl rfl)
  rw [hw] at hx
  cases hx
  exact List.mem_append_right _ (List.mem_singleton.2 rfl)

@[simp] theorem FetchNext.worker_job (i : Nat) (d : ChunkDescriptor) (next : FetchNext) :
    (next.worker i d).job = {i} := by
  cases next <;> rfl

theorem SchedInv.fetch (h : SchedInv s t) {w : Fin n} {i : Nat} {d : ChunkDescriptor} {f : Fetch}
    (cache : Cache) (published : List (ChunkId × Bytes)) (next : FetchNext)
    (hw : s.workers w = .fetching i d f) :
    SchedInv { s with
      cache := cache
      published := published
      workers := Function.update s.workers w (next.worker i d) } (t.note (next.worker i d)) := by
  have hmem : i ∈ s.inFlight := mem_inFlight (w := w) (by rw [hw]; exact Multiset.mem_singleton_self i)
  refine h.worker (w := w) (by rw [hw]; exact nofun) rfl rfl
    (inFlight_keep (by rw [hw, FetchNext.worker_job, Worker.job_fetching]) _ _)
    (fun _ => alive_update (by cases next <;> rfl))
    (fun x => carries_update (fun _ hy => hy) (by rw [hw]; exact nofun)) ?_
  generalize next.worker i d = q
  unfold Trace.note
  split
  · rename_i j e
    refine .inr ⟨(j, e), .inl ⟨w, by simp⟩, fun hz => ?_, rfl⟩
    rw [hz] at hmem
    exact Multiset.notMem_zero i hmem
  · exact .inl rfl

/-! ## The coordinator keeps the invariant -/

theorem Coordinator.progress?_inside {c : Coordinator} {p : Progress} (h : c.progress? = some p) :
    ¬ c.Outside ∧ ∀ m r, c ≠ .joining m r := by
  cases c with
  | priming => exact ⟨id, nofun⟩
  | receiving => exact ⟨id, nofun⟩
  | draining => exact ⟨id, nofun⟩
  | scheduling => exact ⟨id, nofun⟩
  | _ => cases h

/-- In the loops, the window is all that matters. -/
theorem Looping.inv {p : Progress} (h : Looping s t p) (hp : s.coordinator.progress? = some p)
    (hpaced : s.coordinator.Paced n) : SchedInv s t where
  loops p' hp' := by
    rw [hp, Option.some.injEq] at hp'
    exact hp' ▸ h
  paced := hpaced
  load := by
    have := h.window.card
    have := h.window.bound
    omega
  closed m r hj := absurd hj ((Coordinator.progress?_inside hp).2 m r)
  outside hout := absurd hout (Coordinator.progress?_inside hp).1
  outcome := by
    cases hc : s.coordinator with
    | priming => trivial
    | receiving => trivial
    | draining => trivial
    | scheduling => trivial
    | _ =>
      rw [hc] at hp
      cases hp

/-- Leaving the loops. -/
theorem SchedInv.leave {m : ObjectManifest} {result : Except BackendError Unit}
    (hload : s.inFlight.card ≤ n) (hex : (Coordinator.joining m result).Explains s.inFlight t) :
    SchedInv (s.leave m result) t where
  loops _ hp := nomatch hp
  paced := trivial
  load := hload
  closed _ _ _ := rfl
  outside hout := hout.elim
  outcome := hex

/-- Outside the scope there are no workers. -/
theorem SchedInv.outer (hout : s.coordinator.Outside) (hstop : ∀ w, s.workers w = .stopped)
    (hload : s.inFlight.card ≤ n) (hex : s.coordinator.Explains s.inFlight t) : SchedInv s t where
  loops p hp := absurd hout (Coordinator.progress?_inside hp).1
  paced := by
    cases hc : s.coordinator with
    | priming => rw [hc] at hout; exact hout.elim
    | receiving => rw [hc] at hout; exact hout.elim
    | draining => rw [hc] at hout; exact hout.elim
    | scheduling => rw [hc] at hout; exact hout.elim
    | _ => trivial
  load := hload
  closed m r hj := by
    rw [hj] at hout
    exact hout.elim
  outside _ := hstop
  outcome := hex

/-- A run's past grows only by what happens in the loops. -/
theorem next_outside (hout : s.coordinator.Outside) (event : CoordinatorEvent) :
    t.next s (.coordinator event) s' = t := by
  unfold Trace.next
  split
  · split
    · rename_i hc _
      rw [hc] at hout
      exact hout.elim
    · rfl
  · split
    · rename_i hc _
      rw [hc] at hout
      exact hout.elim
    · rename_i hc _
      rw [hc] at hout
      exact hout.elim
    · rfl
  · rename_i hl
    cases hl
  · rfl

theorem allStopped_iff : s.allStopped = true ↔ ∀ w, s.workers w = .stopped := by
  simp only [Pipeline.allStopped, decide_eq_true_eq]
  refine forall_congr' fun w => ?_
  cases s.workers w <;> simp [Worker.isStopped]

/-- The closure of the scope sends and receives as long as a worker is there. -/
theorem Looping.not_allStopped {p : Progress} (h : Looping s t p) (hn : 0 < n) :
    s.allStopped = false := by
  cases hall : s.allStopped with
  | false => rfl
  | true =>
    have hstop := h.alive ⟨0, hn⟩
    rw [allStopped_iff.1 hall ⟨0, hn⟩] at hstop
    cases hstop

theorem Looping.schedule {p : Progress} (h : Looping s t p) {d : ChunkDescriptor}
    (hd : p.manifest.chunks[p.nextScheduled]? = some d) (hroom : p.nextScheduled < p.nextWrite + n)
    (c : Coordinator) :
    Looping { s with jobs := s.jobs ++ [(p.nextScheduled, d)], coordinator := c } t
      { p with nextScheduled := p.nextScheduled + 1 } := by
  refine ⟨h.jobsOpen, h.alive, ?_, h.wrote, h.received, h.failures⟩
  have hlt : p.nextScheduled < p.manifest.chunks.length := (List.getElem?_eq_some_iff.1 hd).1
  rw [inFlight_schedule]
  exact h.window.schedule hlt hroom

theorem SchedInv.move {l : DownloadEvent n} (hn : 0 < n) (h : SchedInv s t)
    (hm : Move H urlError request s l s') : SchedInv s' (t.next s l s') := by
  cases hm with
  | disk =>
    refine ⟨fun p hp => ?_, h.paced, h.load, h.closed, h.outside, h.outcome⟩
    obtain ⟨hopen, halive, hwindow, hwrote, hreceived, hfail⟩ := h.loops p hp
    exact ⟨hopen, halive, hwindow, hwrote, hreceived, hfail⟩
  | refuse hout hne =>
    rw [next_outside hout]
    refine .outer trivial (h.outside hout) h.load (.inl ?_)
    have hex := h.outcome
    cases hc : s.coordinator with
    | returned r => exact absurd hc (hne r)
    | starting => rw [hc] at hex; rw [hex]; exact ⟨rfl, rfl⟩
    | creating m => rw [hc] at hex; rw [hex]; exact ⟨rfl, rfl⟩
    | finishing m => rw [hc] at hex; exact hex
    | _ => rw [hc] at hout; exact hout.elim
  | accept hc =>
    have hex := h.outcome
    have hout : s.coordinator.Outside := by rw [hc]; trivial
    rw [hc] at hex
    rw [next_outside hout]
    exact .outer trivial (h.outside hout) h.load hex
  | create hc =>
    have hex := h.outcome
    have hout : s.coordinator.Outside := by rw [hc]; trivial
    rw [hc] at hex
    rw [next_outside hout, hex]
    refine Looping.inv ⟨rfl, fun _ => rfl, ⟨le_refl _, Nat.zero_le _, Nat.zero_le _, fun i => ?_⟩, rfl,
      rfl, fun _ hx => nomatch hx⟩ rfl ⟨rfl, rfl, Nat.zero_le n⟩
    simp [Pipeline.inFlight]
  | keep hc =>
    have hex := h.outcome
    have hout : s.coordinator.Outside := by rw [hc]; trivial
    rw [hc] at hex
    rw [next_outside hout]
    exact .outer trivial (h.outside hout) h.load hex
  | @schedule p d next hcase hd =>
    have hpaced := h.paced
    rcases hcase with ⟨hc, rfl, hlt⟩ | ⟨hc, rfl⟩
    · have hl := h.loops p (by rw [hc]; rfl)
      rw [hc] at hpaced
      have hsame : ∀ s', t.next s (.coordinator .go) s' = t := by simp [Trace.next, hc]
      rw [hsame]
      refine (hl.schedule hd ?_ _).inv rfl ⟨hpaced.1, hpaced.2.1, hlt⟩
      omega
    · have hl := h.loops p (by rw [hc]; rfl)
      rw [hc] at hpaced
      have hsame : ∀ s', t.next s (.coordinator .go) s' = t := by simp [Trace.next, hc]
      rw [hsame]
      obtain ⟨hfull, hlt⟩ := hpaced
      refine (hl.schedule hd ?_ _).inv rfl ?_
      · omega
      · simp only [Coordinator.Paced]
        omega
  | abandon hp hall => 
    rw [(h.loops _ hp).not_allStopped hn] at hall
    cases hall
  | @primed p hc hdone =>
    have hl := h.loops p (by rw [hc]; rfl)
    have hpaced := h.paced
    rw [hc] at hpaced
    have hsame : ∀ s', t.next s (.coordinator .go) s' = t := by simp [Trace.next, hc]
    rw [hsame]
    obtain ⟨h0, hnone, hle⟩ := hpaced
    have hs := hl.window.scheduled
    refine Looping.inv ⟨hl.jobsOpen, hl.alive, hl.window, hl.wrote, hl.received, hl.failures⟩ rfl ⟨?_, ?_⟩
    · omega
    · rw [h0]; exact hnone
  | @receiveError p i e rest hc hlt hq =>
    have hl := h.loops p (by rw [hc]; rfl)
    have hfl := inFlight_receive hq s.coordinator
    have hmem : i ∈ s.inFlight := by
      rw [hfl]
      exact Multiset.mem_add.2 (.inr (Multiset.mem_singleton_self i))
    have hnext : ∀ s', t.next s (.coordinator .go) s' = { t with received := some (i, e) } := by
      simp [Trace.next, hc, hq, hlt, hl.received]
    rw [hnext]
    refine .leave ?_ (.inl ⟨i, rfl, fun j hj => ?_⟩)
    · have hload := h.load
      rw [hfl, Multiset.card_add] at hload
      omega
    · -- the chunk is in the window, what was written is below it
      have hge := (hl.window.mem hmem).1
      rw [hl.wrote, List.mem_range] at hj
      omega
  | @receive p i bytes rest hc hlt hq =>
    have hl := h.loops p (by rw [hc]; rfl)
    have hpaced := h.paced
    rw [hc] at hpaced
    have hsame : ∀ s', t.next s (.coordinator .go) s' = t := by simp [Trace.next, hc, hq]
    rw [hsame]
    have hfl := inFlight_receive hq (.receiving p)
    have hw := hl.window
    rw [hfl] at hw
    refine Looping.inv ⟨hl.jobsOpen, hl.alive, hw.receive bytes, hl.wrote, hl.received, fun x hx => ?_⟩ rfl
      hpaced.1
    rcases hl.failures x hx with hw | hx
    · exact .inl hw
    · rw [hq] at hx
      rcases List.mem_cons.1 hx with hx | hx
      · cases hx
      · exact .inr hx
  | @finish p hc hdone =>
    have hl := h.loops p (by rw [hc]; rfl)
    -- the window is empty: nothing is on its way, and nothing can have failed
    have hzero : s.inFlight = 0 := by
      have hcard := hl.window.card
      have hle := hl.window.scheduled
      exact Multiset.card_eq_zero.1 (by omega)
    have hcompleted : s.completed = [] := by
      have hz := hzero
      simp only [Pipeline.inFlight, add_eq_zero_iff_of_nonneg, zero_le, Multiset.coe_eq_zero,
        List.map_eq_nil_iff] at hz
      exact hz.2
    have hnone : t.failures = [] := by
      rw [List.eq_nil_iff_forall_not_mem]
      intro x hx
      rcases hl.failures x hx with ⟨w, hw⟩ | hx
      · have hmem : x.1 ∈ s.inFlight :=
          mem_inFlight (w := w) (by rw [hw]; exact Multiset.mem_singleton_self _)
        rw [hzero] at hmem
        exact Multiset.notMem_zero _ hmem
      · rw [hcompleted] at hx
        cases hx
    have hsame : ∀ s', t.next s (.coordinator .go) s' = t := by simp [Trace.next, hc, hcompleted]
    rw [hsame]
    exact .leave h.load ⟨hzero, hnone, hl.received⟩
  | @writeError p bytes e hc hb =>
    have hl := h.loops p (by rw [hc]; rfl)
    simp only [Trace.next, hc]
    exact .leave h.load (.inr ⟨hl.received, rfl⟩)
  | @write p bytes file next hc hb hfile hnext =>
    have hl := h.loops p (by rw [hc]; rfl)
    have hpaced := h.paced
    rw [hc] at hpaced
    have htrace : ∀ s', t.next s (.coordinator (.write (.ok ()))) s' =
        { t with wrote := t.wrote ++ [p.nextWrite] } := by
      simp [Trace.next, hc]
    rw [htrace]
    have hloop : ∀ c, Looping { s with
          hashed := s.hashed ++ bytes
          temporary := some { file with content := file.content ++ bytes }
          coordinator := c } { t with wrote := t.wrote ++ [p.nextWrite] } { p with
          nextWrite := p.nextWrite + 1
          pending := Function.update p.pending p.nextWrite none } := by
      intro c
      refine ⟨hl.jobsOpen, hl.alive, hl.window.write hb, ?_, hl.received, hl.failures⟩
      rw [hl.wrote, ← List.range_succ]
    simp only [Coordinator.Paced] at hpaced
    rcases hnext with ⟨hlt, rfl⟩ | ⟨hge, rfl⟩
    · refine (hloop _).inv rfl ⟨?_, hlt⟩
      simp only
      omega
    · refine (hloop _).inv rfl ?_
      have hs := hl.window.scheduled
      simp only [Coordinator.Paced]
      omega
  | @drained p hc hb =>
    have hl := h.loops p (by rw [hc]; rfl)
    have hpaced := h.paced
    rw [hc] at hpaced
    have hsame : ∀ s', t.next s (.coordinator .go) s' = t := by simp [Trace.next, hc]
    rw [hsame]
    exact Looping.inv ⟨hl.jobsOpen, hl.alive, hl.window, hl.wrote, hl.received, hl.failures⟩ rfl
      ⟨hpaced, hb⟩
  | @joinError m e hc hall =>
    have hex := h.outcome
    rw [hc] at hex
    have hsame : ∀ s', t.next s (.coordinator .go) s' = t := by simp [Trace.next, hc]
    rw [hsame]
    exact .outer trivial (allStopped_iff.1 hall) h.load (.inr hex)
  | @join m hc hall =>
    have hex := h.outcome
    rw [hc] at hex
    have hsame : ∀ s', t.next s (.coordinator .go) s' = t := by simp [Trace.next, hc]
    rw [hsame]
    exact .outer trivial (allStopped_iff.1 hall) h.load hex.2
  | take hw hjobs =>
    simp only [Trace.next, hw]
    exact h.take hw hjobs
  | stop hw hjobs hopen =>
    simp only [Trace.next, hw]
    exact h.stop hw hopen
  | fetch hw hfetch =>
    simp only [Trace.next, hw, Function.update_self]
    exact h.fetch _ _ _ hw
  | send hw hlen =>
    simp only [Trace.next, hw]
    exact h.send hw

/-! ## No step waits for ever -/

/-- There is always room for a result. -/
theorem SchedInv.send_room (h : SchedInv s t) {w : Fin n} {i : Nat}
    {result : Except BackendError Bytes} (hw : s.workers w = .sending i result) :
    s.completed.length < n := by
  have hload := h.load
  rw [card_inFlight] at hload
  have hle : (s.workers w).job ≤ ∑ v, (s.workers v).job :=
    Finset.single_le_sum (fun _ _ => Multiset.zero_le _) (Finset.mem_univ w)
  have hcard := Multiset.card_le_card hle
  rw [hw, Worker.job_sending, Multiset.card_singleton] at hcard
  omega

theorem fetchStep_enabled (H : Hashes) (urlError : Option String) (cache : Cache) (d : ChunkDescriptor)
    (f : Fetch) : ∃ event result, fetchStep H urlError cache d f event = some result := by
  cases f with
  | reading =>
    refine ⟨.read true, Option.isSome_iff_exists.1 ?_⟩
    simp only [fetchStep]
    split
    · simp only [if_true]
      split <;> rfl
    · rfl
  | removing => exact ⟨.remove (.error ""), _, rfl⟩
  | requesting attempt => exact ⟨.reply (.failed ""), _, rfl⟩
  | publishing bytes => exact ⟨.persist (.failed ""), _, rfl⟩

/-- A selection of the outcomes of calls and requests that leaves the coordinator and idle
workers a choice everywhere. -/
structure Permits (E : DownloadEvent n → Prop) : Prop where
  go : E (.coordinator .go)
  idle : ∀ w, E (.worker w .go)
  manifest : ∃ reply, E (.coordinator (.manifest reply))
  create : E (.coordinator (.create (.ok ()) (.ok [])))
  write : E (.coordinator (.write (.ok ())))
  keep : E (.coordinator (.keep (.ok ())))

variable {E : DownloadEvent n → Prop}

/-- A worker with a chunk, with a job to take, or with nothing more to come has a step. -/
theorem SchedInv.worker_enabled (h : SchedInv s t) (hE : Permits E) {w : Fin n}
    (hw : s.workers w ≠ .stopped)
    (hjob : s.workers w = .waiting → s.jobs ≠ [] ∨ s.jobsOpen = false)
    (hfetch : ∀ i d f, s.workers w = .fetching i d f → ∃ event result,
      E (.worker w (.fetch event)) ∧ fetchStep H urlError s.cache d f event = some result) :
    ∃ event s', E (.worker w event) ∧ workerStep H urlError s w (s.workers w) event = some s' := by
  cases hq : s.workers w with
  | stopped => exact absurd hq hw
  | waiting =>
    cases hj : s.jobs with
    | cons job rest =>
      obtain ⟨s', hs'⟩ : ∃ s', workerStep H urlError s w .waiting .go = some s' :=
        Option.isSome_iff_exists.1 (by simp [workerStep, hj])
      exact ⟨.go, s', hE.idle w, hs'⟩
    | nil =>
      have hclosed : s.jobsOpen = false := (hjob hq).resolve_left fun hne => hne hj
      obtain ⟨s', hs'⟩ : ∃ s', workerStep H urlError s w .waiting .go = some s' :=
        Option.isSome_iff_exists.1 (by simp [workerStep, hj, hclosed])
      exact ⟨.go, s', hE.idle w, hs'⟩
  | fetching i d f =>
    obtain ⟨event, ⟨cache, published, next⟩, hev, hf⟩ := hfetch i d f hq
    obtain ⟨s', hs'⟩ : ∃ s', workerStep H urlError s w (.fetching i d f) (.fetch event) = some s' :=
      Option.isSome_iff_exists.1 (by simp [workerStep, hf])
    exact ⟨.fetch event, s', hev, hs'⟩
  | sending i result =>
    obtain ⟨s', hs'⟩ : ∃ s', workerStep H urlError s w (.sending i result) .go = some s' :=
      Option.isSome_iff_exists.1 (by simp [workerStep, h.send_room hq])
    exact ⟨.go, s', hE.idle w, hs'⟩

/-- In the loops the channel of jobs has room for the chunk about to be scheduled. -/
theorem Looping.schedule_enabled {p : Progress} (h : Looping s t p) (hn : 0 < n)
    (hlt : p.nextScheduled < p.manifest.chunks.length) (hroom : p.nextScheduled < p.nextWrite + n)
    (next : Progress → Coordinator) : ∃ s', s.schedule p next = some s' := by
  have hjobs : s.jobs.length < n := by
    have hcard := h.window.card
    rw [card_inFlight] at hcard
    omega
  apply Option.isSome_iff_exists.1
  simp [Pipeline.schedule, List.getElem?_eq_getElem hlt, h.not_allStopped hn, hjobs]

/-- The coordinator waits for a result, or for the workers. -/
def Pipeline.Waits (s : Pipeline n) : Prop :=
  (∃ p, s.coordinator = .receiving p ∧ p.nextWrite < p.manifest.chunks.length ∧ s.completed = []) ∨
    ∃ m result, s.coordinator = .joining m result ∧ s.allStopped = false

/-- A coordinator that does not wait has a step. -/
theorem SchedInv.coordinator_enabled (h : SchedInv s t) (hd : DownloadInv H request s) (hn : 0 < n)
    (hE : Permits E) (hne : ∀ r, s.coordinator ≠ .returned r) (hwait : ¬ s.Waits) :
    ∃ event s', E (.coordinator event) ∧ coordinatorStep H request s s.coordinator event = some s' := by
  have hpaced := h.paced
  have hok := hd.coordinator
  have hgo : ∀ s', coordinatorStep H request s s.coordinator .go = some s' → ∃ event s',
      E (.coordinator event) ∧ coordinatorStep H request s s.coordinator event = some s' :=
    fun s' hs' => ⟨.go, s', hE.go, hs'⟩
  cases hc : s.coordinator with
  | returned r => exact absurd hc (hne r)
  | starting =>
    by_cases ha : request.action.isNone = true
    · rw [hc] at hgo
      exact hgo (s.fail (failure "server did not provide a CDC transfer action"))
        (by simp [coordinatorStep, ha])
    · obtain ⟨reply, hreply⟩ := hE.manifest
      obtain ⟨s', hs'⟩ : ∃ s', coordinatorStep H request s .starting (.manifest reply) = some s' := by
        apply Option.isSome_iff_exists.1
        simp only [coordinatorStep, ha, Bool.false_eq_true, if_false]
        split <;> rfl
      exact ⟨.manifest reply, s', hreply, hs'⟩
  | creating m => exact ⟨.create (.ok ()) (.ok []), _, hE.create, rfl⟩
  | priming p =>
    have hl := h.loops p (by rw [hc]; rfl)
    rw [hc] at hpaced hgo
    by_cases hlt : p.nextScheduled < p.manifest.chunks.length ∧ p.nextScheduled < n
    · obtain ⟨s', hs'⟩ := hl.schedule_enabled hn hlt.1 (by omega) .priming
      exact hgo s' (by simp only [coordinatorStep, if_pos hlt, hs'])
    · exact hgo { s with coordinator := .receiving p } (by simp only [coordinatorStep, if_neg hlt])
  | receiving p =>
    rw [hc] at hgo
    by_cases hlt : p.nextWrite < p.manifest.chunks.length
    · cases hq : s.completed with
      | nil => exact absurd (.inl ⟨p, hc, hlt, hq⟩) hwait
      | cons x rest =>
        obtain ⟨i, result⟩ := x
        obtain ⟨s', hs'⟩ : ∃ s', coordinatorStep H request s (.receiving p) .go = some s' := by
          apply Option.isSome_iff_exists.1
          cases result <;> simp [coordinatorStep, hlt, hq]
        exact hgo s' hs'
    · exact hgo (s.leave p.manifest (.ok ())) (by simp only [coordinatorStep, if_neg hlt])
  | draining p =>
    rw [hc] at hok hgo
    obtain ⟨file, hfile, -⟩ := hok.written.file
    cases hb : p.pending p.nextWrite with
    | none => exact hgo { s with coordinator := .receiving p } (by simp [coordinatorStep, hb])
    | some bytes =>
      obtain ⟨s', hs'⟩ : ∃ s', coordinatorStep H request s (.draining p) (.write (.ok ())) = some s' :=
        Option.isSome_iff_exists.1 (by simp [coordinatorStep, hb, hfile])
      exact ⟨.write (.ok ()), s', hE.write, hs'⟩
  | scheduling p =>
    have hl := h.loops p (by rw [hc]; rfl)
    rw [hc] at hpaced hgo
    obtain ⟨hfull, hlt⟩ := hpaced
    obtain ⟨s', hs'⟩ := hl.schedule_enabled hn hlt (by omega) .draining
    exact hgo s' hs'
  | joining m result =>
    rw [hc] at hgo
    have hall : s.allStopped = true := by
      cases hall : s.allStopped with
      | true => rfl
      | false => exact absurd (.inr ⟨m, result, hc, hall⟩) hwait
    obtain ⟨s', hs'⟩ : ∃ s', coordinatorStep H request s (.joining m result) .go = some s' := by
      apply Option.isSome_iff_exists.1
      cases result <;> simp [coordinatorStep, hall]
    exact hgo s' hs'
  | finishing m =>
    rw [hc] at hok
    obtain ⟨file, hfile, -⟩ := hok.file
    obtain ⟨s', hs'⟩ : ∃ s', coordinatorStep H request s (.finishing m) (.keep (.ok ())) = some s' := by
      apply Option.isSome_iff_exists.1
      by_cases hsha : H.sha256 s.hashed = request.oid
      · simp [coordinatorStep, hsha, hfile]
      · simp [coordinatorStep, hsha]
    exact ⟨.keep (.ok ()), s', hE.keep, hs'⟩

/-- While the coordinator waits for a result, the next chunk to write is with a worker or in the
channel of jobs. -/
theorem Looping.next_in_work {p : Progress} (h : Looping s t p) (hi : SchedInv s t) (hn : 0 < n)
    (hc : s.coordinator = .receiving p) (hlt : p.nextWrite < p.manifest.chunks.length)
    (hq : s.completed = []) (hjobs : s.jobs = []) : ∃ w, p.nextWrite ∈ (s.workers w).job := by
  have hpaced := hi.paced
  rw [hc] at hpaced
  obtain ⟨hfull, hnone⟩ := hpaced
  have hin : p.nextWrite ≤ p.nextWrite ∧ p.nextWrite < p.nextScheduled := by omega
  have hpl := h.window.places p.nextWrite
  rw [hnone, if_pos hin] at hpl
  have hmem : p.nextWrite ∈ s.inFlight := by
    rw [← Multiset.count_pos]
    simp only [Option.isSome_none, Bool.false_eq_true, if_false] at hpl
    omega
  simpa [Pipeline.inFlight, hjobs, hq, Multiset.mem_sum] using hmem

/-- **No state is stuck**: until `download` has returned, the coordinator or a worker can take
a step. -/
theorem SchedInv.enabled (h : SchedInv s t) (hd : DownloadInv H request s) (hn : 0 < n)
    (hE : Permits E) (hne : ∀ r, s.coordinator ≠ .returned r)
    (hfetch : ∀ w i d f, s.workers w = .fetching i d f → ∃ event result,
      E (.worker w (.fetch event)) ∧ fetchStep H urlError s.cache d f event = some result) :
    (∃ event s', E (.coordinator event) ∧
        coordinatorStep H request s s.coordinator event = some s') ∨
      ∃ w event s', E (.worker w event) ∧
        workerStep H urlError s w (s.workers w) event = some s' := by
  by_cases hwait : s.Waits
  · right
    rcases hwait with ⟨p, hc, hlt, hq⟩ | ⟨m, result, hc, hall⟩
    · have hl := h.loops p (by rw [hc]; rfl)
      by_cases hjobs : s.jobs = []
      · obtain ⟨w, hw⟩ := hl.next_in_work h hn hc hlt hq hjobs
        have hbusy : s.workers w ≠ .stopped ∧ s.workers w ≠ .waiting := by
          constructor
          · intro hs
            rw [hs] at hw
            cases hw
          · intro hs
            rw [hs] at hw
            cases hw
        exact ⟨w, h.worker_enabled hE hbusy.1 (fun hs => absurd hs hbusy.2) (hfetch w)⟩
      · have halive := hl.alive ⟨0, hn⟩
        refine ⟨⟨0, hn⟩, h.worker_enabled hE (fun hs => ?_) (fun _ => .inl hjobs) (hfetch _)⟩
        rw [hs] at halive
        cases halive
    · have hlive : ¬ ∀ w, s.workers w = .stopped := fun hs => by
        rw [allStopped_iff.2 hs] at hall
        cases hall
      rw [not_forall] at hlive
      obtain ⟨w, hw⟩ := hlive
      exact ⟨w, h.worker_enabled hE hw (fun _ => .inr (h.closed m result hc)) (hfetch w)⟩
  · exact .inl (h.coordinator_enabled hd hn hE hne hwait)

/-! ## Every call ends -/

/-- An upper bound on the steps of `read_or_fetch_chunk` that are left. -/
def Fetch.cost : Fetch → Nat
  | .reading => 7
  | .removing => 6
  | .requesting attempt => 2 + (3 - attempt)
  | .publishing _ => 1

def FetchNext.cost : FetchNext → Nat
  | .go f => f.cost
  | .done _ => 0

def Worker.cost : Worker → Nat
  | .stopped => 0
  | .waiting => 1
  | .sending _ _ => 8
  | .fetching _ _ f => 8 + f.cost

/-- What is left to do for the chunks that are not yet scheduled, or received and not yet
written; `k` are on their way. -/
def Progress.cost (p : Progress) (k : Nat) : Nat :=
  30 * (p.manifest.chunks.length - p.nextScheduled) + 4 * (p.nextScheduled - p.nextWrite - k)

def Coordinator.cost (k : Nat) : Coordinator → Nat
  | .priming p | .scheduling p => p.cost k + 5
  | .draining p => p.cost k + 4
  | .receiving p => p.cost k + 3
  | .joining _ _ => 2
  | .finishing _ => 1
  | _ => 0

/-- An upper bound on the steps of the call that are left, once it knows the manifest. -/
def Pipeline.work (s : Pipeline n) : Nat :=
  20 * s.jobs.length + ∑ w, (s.workers w).cost + 6 * s.completed.length +
    s.coordinator.cost s.inFlight.card

/-- In `thread::scope`, or after it. -/
def Coordinator.Entered : Coordinator → Prop
  | .starting | .creating _ => False
  | _ => True

theorem startRequests_cost (urlError : Option String) : (startRequests urlError).cost ≤ 5 := by
  cases urlError <;> simp [startRequests, FetchNext.cost, Fetch.cost]

theorem nextAttempt_cost (attempt : Nat) (e : String) :
    (nextAttempt attempt e).cost < 2 + (3 - attempt) := by
  unfold nextAttempt
  split
  · simp only [FetchNext.cost, Fetch.cost]
    omega
  · simp only [FetchNext.cost]
    omega

theorem receiveChunk_cost (H : Hashes) (d : ChunkDescriptor) (attempt : Nat) (reply : Reply Bytes) :
    (receiveChunk H d attempt reply).cost < 2 + (3 - attempt) := by
  unfold receiveChunk
  split
  · exact nextAttempt_cost attempt _
  · split
    · split
      · simp only [FetchNext.cost]; omega
      · split
        · simp only [FetchNext.cost, Fetch.cost]; omega
        · simp only [FetchNext.cost]; omega
    · split
      · exact nextAttempt_cost attempt _
      · simp only [FetchNext.cost]; omega

theorem fetchStep_cost {cache cache' : Cache} {d : ChunkDescriptor} {f : Fetch} {event : FetchEvent}
    {published : Option (ChunkId × Bytes)} {next : FetchNext}
    (h : fetchStep H urlError cache d f event = some (cache', published, next)) :
    next.cost < f.cost := by
  have hstart := startRequests_cost urlError
  unfold fetchStep at h
  split at h
  · split at h
    · split at h
      · split at h
        · cases h; simp [FetchNext.cost, Fetch.cost]
        · cases h; simp [FetchNext.cost, Fetch.cost]
      · cases h; simp only [Fetch.cost]; omega
    · cases h; simp only [Fetch.cost]; omega
  · cases h; simp [FetchNext.cost, Fetch.cost]
  · split at h
    · cases h; simp only [Fetch.cost]; omega
    · cases h
  · cases h; exact receiveChunk_cost H d _ _
  · split at h
    · cases h; simp [FetchNext.cost, Fetch.cost]
    · cases h; simp [FetchNext.cost, Fetch.cost]
    · cases h; simp [FetchNext.cost, Fetch.cost]
    · cases h; simp [FetchNext.cost, Fetch.cost]
    · split at h
      · cases h; simp [FetchNext.cost, Fetch.cost]
      · cases h
    · split at h
      · cases h; simp [FetchNext.cost, Fetch.cost]
      · cases h
  · cases h

/-- Every step of the call lowers the bound. -/
theorem SchedInv.work_lt {l : DownloadEvent n} (h : SchedInv s t) (hn : 0 < n)
    (hm : Move H urlError request s l s') (hown : l.own = true) (hin : s.coordinator.Entered) :
    s'.work < s.work ∧ s'.coordinator.Entered := by
  have hi' := h.move hn hm
  cases hm with
  | disk => cases hown
  | refuse hout hne =>
    refine ⟨?_, trivial⟩
    cases hc : s.coordinator with
    | finishing m =>
      simp only [Pipeline.work, Pipeline.fail, Coordinator.cost, hc]
      omega
    | returned r => exact absurd hc (hne r)
    | starting => rw [hc] at hin; exact hin.elim
    | creating => rw [hc] at hin; exact hin.elim
    | _ => rw [hc] at hout; exact hout.elim
  | accept hc => rw [hc] at hin; exact hin.elim
  | create hc => rw [hc] at hin; exact hin.elim
  | keep hc =>
    refine ⟨?_, trivial⟩
    simp only [Pipeline.work, Coordinator.cost, hc]
    omega
  | @schedule p d next hcase hd =>
    have hp : s.coordinator.progress? = some p := by
      rcases hcase with ⟨hc, -⟩ | ⟨hc, -⟩ <;> rw [hc] <;> rfl
    have hcard := (h.loops p hp).window.card
    have hlt := (List.getElem?_eq_some_iff.1 hd).1
    rcases hcase with ⟨hc, rfl, -⟩ | ⟨hc, rfl⟩
    · refine ⟨?_, trivial⟩
      simp only [Pipeline.work, Coordinator.cost, Progress.cost, hc, inFlight_schedule,
        Multiset.card_add, Multiset.card_singleton, List.length_append, List.length_singleton]
      omega
    · refine ⟨?_, trivial⟩
      simp only [Pipeline.work, Coordinator.cost, Progress.cost, hc, inFlight_schedule,
        Multiset.card_add, Multiset.card_singleton, List.length_append, List.length_singleton]
      omega
  | abandon hp hall =>
    rw [(h.loops _ hp).not_allStopped hn] at hall
    cases hall
  | primed hc =>
    refine ⟨?_, trivial⟩
    simp only [Pipeline.work, Coordinator.cost, hc, Pipeline.inFlight]
    omega
  | receiveError hc _ hq =>
    refine ⟨?_, trivial⟩
    simp only [Pipeline.work, Coordinator.cost, hc, Pipeline.leave, hq, List.length_cons]
    omega
  | @receive p i bytes rest hc _ hq =>
    have hcard := (h.loops p (by rw [hc]; rfl)).window.card
    have hfl := inFlight_receive hq
      (.draining { p with pending := Function.update p.pending i (some bytes) })
    refine ⟨?_, trivial⟩
    rw [hfl, Multiset.card_add, Multiset.card_singleton] at hcard
    simp only [Pipeline.work, Coordinator.cost, Progress.cost, hc, hq, List.length_cons, hfl,
      Multiset.card_add, Multiset.card_singleton]
    omega
  | finish hc =>
    refine ⟨?_, trivial⟩
    simp only [Pipeline.work, Coordinator.cost, hc, Pipeline.leave]
    omega
  | writeError hc =>
    refine ⟨?_, trivial⟩
    simp only [Pipeline.work, Coordinator.cost, hc, Pipeline.leave]
    omega
  | @write p bytes file next hc hb hfile hnext =>
    have hwindow := (h.loops p (by rw [hc]; rfl)).window.write hb
    have hcard := hwindow.card
    have hwritten := hwindow.written
    simp only [Pipeline.inFlight] at hcard hwritten
    rcases hnext with ⟨-, rfl⟩ | ⟨-, rfl⟩
    · refine ⟨?_, trivial⟩
      simp only [Pipeline.work, Coordinator.cost, Progress.cost, hc, Pipeline.inFlight]
      omega
    · refine ⟨?_, trivial⟩
      simp only [Pipeline.work, Coordinator.cost, Progress.cost, hc, Pipeline.inFlight]
      omega
  | drained hc =>
    refine ⟨?_, trivial⟩
    simp only [Pipeline.work, Coordinator.cost, hc, Pipeline.inFlight]
    omega
  | joinError hc =>
    refine ⟨?_, trivial⟩
    simp only [Pipeline.work, Coordinator.cost, hc, Pipeline.fail]
    omega
  | join hc =>
    refine ⟨?_, trivial⟩
    simp only [Pipeline.work, Coordinator.cost, hc]
    omega
  | @take w i d rest hw hjobs =>
    have hsum := LTS.sum_update Worker.cost s.workers w (.fetching i d .reading)
    rw [hw, show Worker.waiting.cost = 1 from rfl,
      show (Worker.fetching i d .reading).cost = 15 from rfl] at hsum
    refine ⟨?_, hin⟩
    simp only [Pipeline.work, inFlight_take hw hjobs, hjobs, List.length_cons]
    omega
  | @stop w hw hjobs hopen =>
    have hsum := LTS.sum_update Worker.cost s.workers w .stopped
    rw [hw, show Worker.waiting.cost = 1 from rfl, show Worker.stopped.cost = 0 from rfl] at hsum
    have hfl := inFlight_keep (s := s) (w := w) (q := .stopped) (by rw [hw]; rfl) s.cache s.published
    refine ⟨?_, hin⟩
    simp only [Pipeline.work, hfl]
    omega
  | @fetch w i d f event cache published next hw hfetch =>
    have hsum := LTS.sum_update Worker.cost s.workers w (next.worker i d)
    have hlt := fetchStep_cost hfetch
    have hcost : (next.worker i d).cost ≤ 8 + next.cost := by
      cases next <;> simp [FetchNext.worker, Worker.cost, FetchNext.cost]
    rw [hw, show (Worker.fetching i d f).cost = 8 + f.cost from rfl] at hsum
    have hfl := inFlight_keep (s := s) (w := w) (q := next.worker i d)
      (by rw [hw, FetchNext.worker_job, Worker.job_fetching]) cache (published.toList ++ s.published)
    refine ⟨?_, hin⟩
    simp only [Pipeline.work, hfl]
    omega
  | @send w i result hw hlen =>
    have hsum := LTS.sum_update Worker.cost s.workers w .waiting
    rw [hw, show Worker.waiting.cost = 1 from rfl, show (Worker.sending i result).cost = 8 from rfl] at hsum
    refine ⟨?_, hin⟩
    simp only [Pipeline.work, inFlight_send hw, List.length_append, List.length_singleton]
    omega

/-! ## The pipeline -/

theorem pipeline_inv (H : Hashes) (childUrl : String → Option String) (request : DownloadRequest)
    (hn : 0 < n) : (tracedDownload H childUrl request n).Inductive fun x =>
      DownloadInv H request x.1 ∧ SchedInv x.1 x.2 := by
  apply (download_inv H childUrl request n).annotate.of_known
  · intro x hx
    obtain ⟨⟨cache, hcache⟩, ht⟩ := hx
    rw [hcache, ht]
    exact schedInv_initial cache
  · intro x l x' _ hi hst
    rw [hst.2]
    exact hi.move hn (downloadStep_move hst.1)

/-- A run takes no more steps than the bound says. -/
theorem run_length {childUrl : String → Option String} (hn : 0 < n) {x x' : Pipeline n × Trace}
    {ls : List (DownloadEvent n)} (hrun : (tracedDownload H childUrl request n).Run x ls x')
    (hi : SchedInv x.1 x.2) (hin : x.1.coordinator.Entered) :
    (ls.filter DownloadEvent.own).length ≤ x.1.work := by
  induction hrun with
  | nil => exact Nat.zero_le _
  | @cons x y z l ls hst _ ih =>
    have hm := downloadStep_move hst.1
    have hi' : SchedInv y.1 y.2 := by
      rw [hst.2]
      exact hi.move hn hm
    cases hown : l.own with
    | true =>
      obtain ⟨hlt, hin'⟩ := hi.work_lt hn hm hown hin
      have := ih hi' hin'
      rw [List.filter_cons_of_pos (by simpa using hown), List.length_cons]
      omega
    | false =>
      rw [List.filter_cons_of_neg (by simpa using hown)]
      cases l with
      | disk cache =>
        have hy : y.1 = { x.1 with cache := cache } := (Option.some.inj hst.1).symm
        have hin' : y.1.coordinator.Entered := by rw [hy]; exact hin
        have hwork : y.1.work = x.1.work := by rw [hy]; rfl
        rw [← hwork]
        exact ih hi' hin'
      | coordinator event => cases hown
      | worker w event => cases hown

theorem Coordinator.Ok.progress {c : Coordinator} {p : Progress} {served : Option ObjectManifest}
    {temporary : Option TempFile} {hashed : Bytes} (h : c.Ok H request served temporary hashed)
    (hp : c.progress? = some p) : p.Ok H request served temporary hashed := by
  cases c with
  | priming p => cases hp; exact h
  | receiving p => cases hp; exact h
  | draining p => cases hp; exact h
  | scheduling p => cases hp; exact h
  | _ => cases hp

theorem Trace.Blames.of_received {e e' : BackendError} {i : Nat} (h : t.Blames e')
    (hrec : t.received = some (i, e)) : e' = e ∧ ∀ j ∈ t.wrote, j < i := by
  rcases h with ⟨k, hk, hlt⟩ | ⟨hnone, -⟩
  · rw [hrec] at hk
    cases hk
    exact ⟨rfl, hlt⟩
  · rw [hrec] at hnone
    cases hnone

/-- After a failed result the coordinator only returns its error. -/
theorem SchedInv.received (h : SchedInv s t) {i : Nat} {e : BackendError}
    (hrec : t.received = some (i, e)) : (∀ j ∈ t.wrote, j < i) ∧
      ((∃ m, s.coordinator = .joining m (.error e)) ∨ s.coordinator = .returned (.error e)) := by
  have hex := h.outcome
  have hloop : ∀ p, s.coordinator.progress? ≠ some p := by
    intro p hp
    have hnone := (h.loops p hp).received
    rw [hrec] at hnone
    cases hnone
  cases hc : s.coordinator with
  | priming p => exact absurd (by rw [hc]; rfl) (hloop p)
  | receiving p => exact absurd (by rw [hc]; rfl) (hloop p)
  | draining p => exact absurd (by rw [hc]; rfl) (hloop p)
  | scheduling p => exact absurd (by rw [hc]; rfl) (hloop p)
  | starting =>
    rw [hc] at hex
    rw [show t = Trace.empty from hex] at hrec
    cases hrec
  | creating m =>
    rw [hc] at hex
    rw [show t = Trace.empty from hex] at hrec
    cases hrec
  | finishing m =>
    rw [hc] at hex
    rw [hex.2] at hrec
    cases hrec
  | joining m result =>
    rw [hc] at hex
    cases result with
    | ok u =>
      rw [hex.2.2] at hrec
      cases hrec
    | error e' =>
      obtain ⟨rfl, hlt⟩ := Trace.Blames.of_received hex hrec
      exact ⟨hlt, .inl ⟨m, rfl⟩⟩
  | returned result =>
    rw [hc] at hex
    cases result with
    | ok r =>
      rw [hex.2] at hrec
      cases hrec
    | error e' =>
      rcases hex with hnone | hblame
      · rw [hnone.2] at hrec
        cases hrec
      · obtain ⟨rfl, hlt⟩ := hblame.of_received hrec
        exact ⟨hlt, .inr rfl⟩

/-- **The download pipeline writes in order and never gets stuck.** For every number of chunks
and of workers, and every order of their steps:

* in the loops, at most `n` chunks are scheduled and not written; each of them is in exactly one
  place; those before have been written and hashed once each, in order;
* until the call has returned, the coordinator or a worker has a step;
* once a failed result has been received, its error is what is returned, and no chunk from
  that one on has been written; when a chunk has failed, an `Ok` is not returned, and an `Err`
  is that of the first failed result, or of a failed write;
* a worker with a result never waits for room, the call returns only when all workers have
  ended, and from the start of the scope on it takes at most `work` steps. -/
theorem pipeline_ordered (H : Hashes) (childUrl : String → Option String) (request : DownloadRequest)
    (n : Nat) (hn : 0 < n) (s : Pipeline n) (t : Trace)
    (hr : (tracedDownload H childUrl request n).Reachable (s, t)) :
    (∀ p, s.coordinator.progress? = some p →
      (p.nextWrite ≤ p.nextScheduled ∧ p.nextScheduled - p.nextWrite ≤ n) ∧
      (∀ i, p.nextWrite ≤ i → i < p.nextScheduled →
        s.inFlight.count i + (if (p.pending i).isSome then 1 else 0) = 1) ∧
      t.wrote = List.range p.nextWrite ∧
      ∃ file, s.temporary = some file ∧ file.content = s.hashed ∧ ∃ chunks : List Bytes,
        List.Forall₂ (fun d b => validChunk H b d = true) (p.manifest.chunks.take p.nextWrite) chunks ∧
        s.hashed = chunks.flatten) ∧
    ((∀ r, s.coordinator ≠ .returned r) →
      ∃ l s', l.own = true ∧ downloadStep H childUrl request s l = some s') ∧
    ((∀ i e, t.received = some (i, e) → (∀ j ∈ t.wrote, j < i) ∧
        ((∃ m, s.coordinator = .joining m (.error e)) ∨ s.coordinator = .returned (.error e))) ∧
      (t.failures ≠ [] → ∀ r, s.coordinator = .returned r →
        ∃ e, r = .error e ∧ ((∃ i, t.received = some (i, e)) ∨ t.unwritten = some e))) ∧
    (∀ w i result, s.workers w = .sending i result → s.completed.length < n) ∧
    (∀ r, s.coordinator = .returned r → ∀ w, s.workers w = .stopped) ∧
    (s.coordinator.Entered → ∀ ls x', (tracedDownload H childUrl request n).Run (s, t) ls x' →
      (ls.filter DownloadEvent.own).length ≤ s.work) := by
  obtain ⟨hd, hi⟩ := (pipeline_inv H childUrl request hn).reachable hr
  refine ⟨fun p hp => ?_, fun hne => ?_, ⟨fun i e hrec => ?_, fun hfail r hret => ?_⟩,
    fun w i result => hi.send_room, fun r hret => hi.outside (by rw [hret]; trivial),
    fun hin ls x' hrun => run_length hn hrun hi hin⟩
  · have hl := hi.loops p hp
    have hok := hd.coordinator.progress hp
    obtain ⟨file, hfile, hcontent⟩ := hok.written.file
    obtain ⟨parts, hall, hflat⟩ := hok.written.assembled
    have hbound := hl.window.bound
    refine ⟨⟨hl.window.written, by omega⟩, fun i hle hlt => ?_, hl.wrote, file, hfile, hcontent, parts,
      hall, hflat⟩
    have hpl := hl.window.places i
    have hin : p.nextWrite ≤ i ∧ i < p.nextScheduled := ⟨hle, hlt⟩
    rwa [if_pos hin] at hpl
  · have hE : Permits fun l : DownloadEvent n => l.own = true :=
      ⟨rfl, fun _ => rfl, ⟨.failed "", rfl⟩, rfl, rfl, rfl⟩
    rcases hi.enabled hd hn hE hne (fun _ _ d f _ => by
      obtain ⟨event, result, hf⟩ :=
        fetchStep_enabled H (request.action.bind fun a => childUrl a.href) s.cache d f
      exact ⟨event, result, rfl, hf⟩) with ⟨event, s', hown, hst⟩ | ⟨w, event, s', hown, hst⟩
    · exact ⟨.coordinator event, s', hown, hst⟩
    · exact ⟨.worker w event, s', hown, hst⟩
  · exact hi.received hrec
  · have hex := hi.outcome
    rw [hret] at hex
    cases r with
    | ok r => exact absurd hex.1 hfail
    | error e =>
      refine ⟨e, rfl, ?_⟩
      rcases hex with hnone | ⟨i, hrec, -⟩ | ⟨-, hwrite⟩
      · exact absurd hnone.1 hfail
      · exact .inl ⟨i, hrec⟩
      · exact .inr hwrite

namespace Sample

def wantedZeros : DownloadRequest := ⟨zerosOid, 16777216, some ⟨"https://host/objects", []⟩⟩

theorem zeros_valid (offset : UInt64) : validChunk zeroHashes zeros ⟨zerosId, offset, 8388608⟩ = true := by
  rw [validChunk_iff, zeros_length]
  exact ⟨rfl, if_pos rfl⟩

/-- A worker takes a chunk that is in the cache. -/
theorem fetch_hit {childUrl : String → Option String} {w : Fin n} {i : Nat} {d : ChunkDescriptor} {b : Bytes}
    (hw : s.workers w = .fetching i d .reading) (hc : s.cache d.id = some b) (hv : validChunk H b d = true) :
    downloadStep H childUrl request s (.worker w (.fetch (.read true))) =
      some { s with workers := Function.update s.workers w (.sending i (.ok b)) } := by
  simp [downloadStep, hw, workerStep, fetchStep, hc, hv]

theorem traced_step {childUrl : String → Option String} {t : Trace} {l : DownloadEvent n}
    (h : downloadStep H childUrl request s l = some s') :
    (tracedDownload H childUrl request n).step (s, t) l (s', t.next s l s') :=
  ⟨h, rfl⟩

end Sample

open Sample in
/-- A call with two workers and two chunks: the second has arrived when nothing is written, and both
are written in order. -/
theorem pipeline_ordered_written :
    ∃ (s s' : Pipeline 2) (t t' : Trace) (p : Progress) (ls : List (DownloadEvent 2)),
      (tracedDownload zeroHashes (fun _ => none) wantedZeros 2).Reachable (s, t) ∧
      (s.coordinator = .receiving p ∧ p.pending 1 = some zeros ∧ t.wrote = []) ∧
      (tracedDownload zeroHashes (fun _ => none) wantedZeros 2).Run (s, t) ls (s', t') ∧ t'.wrote = [0, 1] ∧
      ∀ w i result, s'.workers w = .sending i result → s'.completed.length < 2 := by
  obtain ⟨s, s', t, t', p, ls, hr, hs, hrun, hwrote⟩ : ∃ (s s' : Pipeline 2) (t t' : Trace) (p : Progress)
      (ls : List (DownloadEvent 2)),
      (tracedDownload zeroHashes (fun _ => none) wantedZeros 2).Reachable (s, t) ∧
      (s.coordinator = .receiving p ∧ p.pending 1 = some zeros ∧ t.wrote = []) ∧
      (tracedDownload zeroHashes (fun _ => none) wantedZeros 2).Run (s, t) ls (s', t') ∧ t'.wrote = [0, 1] :=
    ⟨_, _, _, _, _, [.worker first (.fetch (.read true)), .worker first .go, .coordinator .go,
        .coordinator (.write (.ok ())), .coordinator (.write (.ok ()))],
      ⟨(.initial 2 fun _ => some zeros, .empty), [.coordinator (.manifest (.response ⟨200, "200 OK"⟩ (.ok twice))),
        .coordinator (.create (.ok ()) (.ok downloadPath)), .coordinator .go, .coordinator .go,
        .coordinator .go, .worker first .go, .worker Sample.second .go,
        .worker Sample.second (.fetch (.read true)),
        .worker Sample.second .go, .coordinator .go, .coordinator .go], ⟨⟨_, rfl⟩, rfl⟩,
        .cons (traced_step rfl) (.cons (traced_step rfl) (.cons (traced_step rfl) (.cons (traced_step rfl)
          (.cons (traced_step rfl) (.cons (traced_step rfl) (.cons (traced_step rfl)
          (.cons (traced_step (fetch_hit rfl rfl (zeros_valid _))) (.cons (traced_step rfl)
          (.cons (traced_step rfl) (.cons (traced_step rfl) (.nil _)))))))))))⟩, ⟨rfl, rfl, rfl⟩,
        .cons (traced_step (fetch_hit rfl rfl (zeros_valid _))) (.cons (traced_step rfl) (.cons (traced_step rfl)
          (.cons (traced_step rfl) (.cons (traced_step rfl) (.nil _))))), rfl⟩
  exact ⟨s, s', t, t', p, ls, hr, hs, hrun, hwrote,
    (pipeline_ordered zeroHashes (fun _ => none) wantedZeros 2 (by decide) s' t' (hr.run hrun)).2.2.2.1⟩

end GitLfsDelta
