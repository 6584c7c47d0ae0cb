import Mathlib.Data.Fintype.Card
import GitLfsDelta.Core.Callers
import GitLfsDelta.Core.Semaphore
import GitLfsDelta.L4System.Availability
import GitLfsDelta.L4System.Progress

/-!
# Limits on concurrent requests

`upload_basic` and `download_basic` take one of the permits of `basic_transfers`, the chunk requests
and `finalize_cdc` one of those of `data_requests`, and keep it until the handler is dropped; a basic
download until its body has been read. Both semaphores are fair. A request that waits for a permit
may be dropped too, and one that has it may be refused by a check before its first query.

* `door_ok`: every request that is under way has its permit.
* `door_settles`: a request with a permit gets its answer and gives the permit back.
* `requests_admitted`: there are never more requests under way than permits, none is let past one
  that waits, and every request that waits can be brought to its answer.
-/
namespace GitLfsDelta

/-- mirrors crates/git-lfs-delta-server/src/lib.rs:63-64 -/
inductive PermitKind
  | basic
  | data
  deriving DecidableEq, Repr

/-- What `with_staging` and `with_data_limit` are called with.
mirrors crates/git-lfs-delta-server/src/lib.rs:154-155, 253-265 -/
structure Limits where
  maximumTransfers : Nat := 2
  maximumRequests : Nat := 64

def Limits.permits (limits : Limits) : PermitKind → Nat
  | .basic => max limits.maximumTransfers 1
  | .data => max limits.maximumRequests 1

theorem Limits.permits_pos (limits : Limits) (pool : PermitKind) : 0 < limits.permits pool := by
  cases pool <;> simp [permits]

/-- A request that needs a permit, up to the id `upload_basic` makes. -/
inductive Limited
  | uploadBasic (r : Uuid) (oid : ObjectOid) (body : Bytes)
  | uploadCdcChunk (r : Uuid) (oid : ObjectOid) (u : Uuid) (index : Nat) (bytes : Bytes)
  | finalizeCdc (r : Uuid) (oid : ObjectOid) (u : Uuid)
  | downloadBasic (r : Uuid) (oid : ObjectOid)
  | downloadCdcChunk (r : Uuid) (oid : ObjectOid) (index : Nat)
  deriving DecidableEq, Repr

/-- mirrors crates/git-lfs-delta-server/src/lib.rs:792-795, 885-890, 1040-1043, 1071-1074, 1135-1138 -/
def Limited.pool : Limited → PermitKind
  | .uploadBasic .. | .downloadBasic .. => .basic
  | .uploadCdcChunk .. | .finalizeCdc .. | .downloadCdcChunk .. => .data

/-- The requests that take no permit. -/
def Request.Unlimited : Request → Prop
  | .uploadBasic .. | .uploadCdcChunk .. | .finalizeCdc .. => False
  | _ => True

def ReadRequest.Unlimited : ReadRequest → Prop
  | .downloadBasic _ | .downloadCdcChunk .. => False
  | _ => True

/-- Where a task is with its permit. -/
inductive Stage
  | away
  /-- It waits for a permit, or has it and has not begun. -/
  | asked (request : Limited)
  | working (pool : PermitKind)
  deriving DecidableEq, Repr

section System

variable {ι κ : Type}

/-- The server and the requests that only read. -/
abbrev Handling (ι κ : Type) : Type := State ι × (κ → Exchange)

abbrev HandlingLabel (ι κ : Type) : Type := LTS.ClientLabel (Label ι) κ ReaderEvent

inductive Task (ι κ : Type)
  | handler (p : ι)
  | reader (k : κ)
  deriving DecidableEq, Repr

/-- The first step of a request, by a task of its kind. -/
def Limited.first (newId : Uuid) : Limited → Task ι κ → Option (HandlingLabel ι κ)
  | .uploadBasic r oid body, .handler p => some (.system (.act p (.start (.uploadBasic r oid body newId))))
  | .uploadCdcChunk r oid u i bytes, .handler p =>
    some (.system (.act p (.start (.uploadCdcChunk r oid u i bytes))))
  | .finalizeCdc r oid u, .handler p => some (.system (.act p (.start (.finalizeCdc r oid u))))
  | .downloadBasic r oid, .reader k => some (.client k (.ask r (.downloadBasic oid)))
  | .downloadCdcChunk r oid i, .reader k => some (.client k (.ask r (.downloadCdcChunk oid i)))
  | _, _ => none

/-- The task is dropped. -/
def cutOff : Task ι κ → HandlingLabel ι κ
  | .handler p => .system (.act p .kill)
  | .reader k => .client k .stop

/-- The task has nothing to do. -/
def Handling.Idle (x : Handling ι κ) : Task ι κ → Prop
  | .handler p => (x.1.procs p).Free
  | .reader k => (x.2 k).Free

/-- Where the permits are. -/
structure Door (ι κ : Type) where
  permits : PermitKind → Semaphore (Task ι κ)
  stage : Task ι κ → Stage

def Door.initial (limit : PermitKind → Nat) : Door ι κ := ⟨fun pool => .new (limit pool), fun _ => .away⟩

inductive DoorEvent (ι κ : Type)
  /-- A request arrives at `acquire`. -/
  | ask (t : Task ι κ) (request : Limited)
  /-- A request that has its permit begins. -/
  | begin (t : Task ι κ) (newId : Uuid)
  /-- A check before its first query fails. -/
  | refuse (t : Task ι κ)
  /-- It is answered, and the permit is dropped. -/
  | finish (t : Task ι κ)
  /-- The connection is gone. -/
  | drop (t : Task ι κ)

variable [DecidableEq ι] [DecidableEq κ]

/-- The task goes away, and its permit or its place in the queue with it. -/
def Door.left (d : Door ι κ) (t : Task ι κ) (pool : PermitKind) : Door ι κ where
  permits := Function.update d.permits pool ((d.permits pool).leave t)
  stage := Function.update d.stage t .away

instance (x : Handling ι κ) : DecidablePred x.Idle
  | .handler p => inferInstanceAs (Decidable (x.1.procs p).Free)
  | .reader k => inferInstanceAs (Decidable (x.2 k).Free)

def Handling.answered (x : Handling ι κ) : Task ι κ → Bool
  | .handler p => match x.1.procs p with
    | .done _ => true
    | _ => false
  | .reader k => match x.2 k with
    | .asked _ _ _ (.done _) => true
    | _ => false

def doorStep (x : Handling ι κ) (d : Door ι κ) : DoorEvent ι κ → Option (Door ι κ)
  | .ask t request =>
    match d.stage t with
    | .away =>
      if h : t ∉ (d.permits request.pool).tasks ∧ x.Idle t ∧
          ((request.first 0 t : Option (HandlingLabel ι κ)).isSome) then
        some {
          permits := Function.update d.permits request.pool ((d.permits request.pool).acquire t h.1)
          stage := Function.update d.stage t (.asked request) }
      else none
    | _ => none
  | .begin t _ =>
    match d.stage t with
    | .asked request =>
      if t ∈ (d.permits request.pool).holders then
        some { d with stage := Function.update d.stage t (.working request.pool) }
      else none
    | _ => none
  | .refuse t =>
    match d.stage t with
    | .asked request => if t ∈ (d.permits request.pool).holders then some (d.left t request.pool) else none
    | _ => none
  | .finish t =>
    match d.stage t with
    | .working pool => if x.answered t then some (d.left t pool) else none
    | _ => none
  | .drop t =>
    match d.stage t with
    | .away => none
    | .asked request => some (d.left t request.pool)
    | .working pool => some (d.left t pool)

/-- The step of the server behind it. -/
def doorCall (d : Door ι κ) : DoorEvent ι κ → Option (HandlingLabel ι κ)
  | .begin t newId =>
    match d.stage t with
    | .asked request => request.first newId t
    | _ => none
  | .drop t =>
    match d.stage t with
    | .working _ => some (cutOff t)
    | _ => none
  | _ => none

abbrev DoorLabel (ι κ : Type) : Type := LTS.ClientLabel (HandlingLabel ι κ) Unit (DoorEvent ι κ)

/-- Limited requests begin and are dropped through the door only. -/
def ThroughDoor (y : Handling ι κ × (Unit → Door ι κ)) : DoorLabel ι κ → Prop
  | .system (.system (.act p (.start request))) => request.Unlimited ∧ (y.2 ()).stage (.handler p) = .away
  | .system (.system (.act p .kill)) => (y.2 ()).stage (.handler p) = .away
  | .system (.client k (.ask _ request)) => request.Unlimited ∧ (y.2 ()).stage (.reader k) = .away
  | .system (.client k .stop) => (y.2 ()).stage (.reader k) = .away
  | _ => True

/-- Every interleaving of the server and the requests that only read. -/
def handling (H : Hashes) (cut : Cutter) (site : Site) : LTS (Handling ι κ) (HandlingLabel ι κ) :=
  (server H cut).clients (fun _ => .idle) fun _ s => exchangeStep H site s.toShared

/-- The same with the permits. -/
def permitted (H : Hashes) (cut : Cutter) (site : Site) (limit : PermitKind → Nat) :
    LTS (Handling ι κ × (Unit → Door ι κ)) (DoorLabel ι κ) :=
  ((handling H cut site).callers (fun _ => .initial limit) (fun _ _ d => doorCall d)
    fun _ x d => doorStep x d).guard ThroughDoor

end System

/-! ## What a step does to a task -/

def Reader.Engaged (q : Reader) : Prop := ¬ q.Free ∨ ∃ response, q = .done response

def Exchange.Engaged : Exchange → Prop
  | .idle => False
  | .asked _ _ _ q => q.Engaged

theorem readStart_engaged (db : Db) (r : Uuid) (request : ReadRequest) :
    (readStart db r request).Engaged := by
  cases request <;> simp only [readStart] <;> split <;> first | exact .inr ⟨_, rfl⟩ | exact .inl id

section Reader

variable {H : Hashes} {site : Site} {db : Db} {store : Store} {q q' : Reader}

/-- A request that only reads never waits, and comes to its end. -/
theorem readNext_left (H : Hashes) (site : Site) (db : Db) (store : Store) (hf : ¬ q.Free) :
    ∃ q', readNext H site db store q = some q' ∧ q'.left < q.left ∧ q'.Engaged := by
  cases q with
  | batching r b todo answered =>
    cases todo with
    | nil => exact ⟨_, rfl, by simp [Reader.left], .inr ⟨_, rfl⟩⟩
    | cons object todo =>
      simp only [readNext]
      split
      · exact ⟨_, rfl, by simp [Reader.left], .inr ⟨_, rfl⟩⟩
      · exact ⟨_, rfl, by simp [Reader.left], .inl id⟩
  | fetching r oid m todo body =>
    cases todo with
    | nil =>
      simp only [readNext]
      split <;> exact ⟨_, rfl, by simp [Reader.left], .inr ⟨_, rfl⟩⟩
    | cons d todo =>
      simp only [readNext]
      split
      · exact ⟨_, rfl, by simp [Reader.left], .inr ⟨_, rfl⟩⟩
      · exact ⟨_, rfl, by simp [Reader.left], .inl id⟩
  | reading r d =>
    simp only [readNext]
    split <;> exact ⟨_, rfl, by simp [Reader.left], .inr ⟨_, rfl⟩⟩
  | _ => exact absurd trivial hf

theorem readNext_free (hf : q.Free) : readNext H site db store q = none := by
  cases q <;> first | rfl | cases hf

end Reader

section Steps

variable {ι κ : Type} [DecidableEq ι] [DecidableEq κ] {H : Hashes} {cut : Cutter} {site : Site}
  {limit : PermitKind → Nat} {x x' : Handling ι κ} {d d' : Door ι κ} {t u : Task ι κ} {pool : PermitKind}
  {l : HandlingLabel ι κ} {request : Limited} {newId : Uuid}

def Handling.Engaged (x : Handling ι κ) : Task ι κ → Prop
  | .handler p => (x.1.procs p).Engaged
  | .reader k => (x.2 k).Engaged

/-- The step gives the task a request, or drops it. -/
def Resets : Task ι κ → HandlingLabel ι κ → Prop
  | .handler p, .system (.act p' (.start _)) | .handler p, .system (.act p' .kill) => p' = p
  | .reader k, .client k' (.ask ..) | .reader k, .client k' .stop => k' = k
  | _, _ => False

/-- What is idle stays idle, and what is engaged stays engaged. -/
def Unmoved (x x' : Handling ι κ) (t : Task ι κ) : Prop :=
  (x.Idle t → x'.Idle t) ∧ (x.Engaged t → x'.Engaged t)

theorem procStart_engaged {now : Nat} {w w' : Shared} {q q' : Proc} {request : Request} (hq : q.Free)
    (h : procStart H cut now w request = some (w', q')) : q'.Engaged := by
  cases procStart_turn hq h with
  | reply => exact .inr ⟨_, rfl⟩
  | refuse => exact .inr ⟨_, rfl⟩
  | snapshot => exact .inr ⟨_, rfl⟩
  | _ => exact .inl id

/-- Nobody but the task itself moves it. -/
theorem handling_kept (hst : (handling H cut site).step x l x') (ht : ¬ Resets t l) : Unmoved x x' t := by
  cases t with
  | handler p =>
    cases l with
    | client k e =>
      obtain ⟨hsame, -⟩ := hst
      simp only [Unmoved, Handling.Idle, Handling.Engaged, hsame]
      exact ⟨id, id⟩
    | system l =>
      rcases step_cases hst.1 with ⟨δ, rfl, hsame⟩ | ⟨p', a, w, q, rfl, -, hsame⟩
      · simp only [Unmoved, Handling.Idle, Handling.Engaged, hsame]
        exact ⟨id, id⟩
      · by_cases hp : p' = p
        · subst hp
          obtain ⟨w', q', hact, hsame'⟩ := step_act hst.1
          cases a with
          | next choice =>
            simp only [Unmoved, Handling.Idle, Handling.Engaged, hsame', move_procs_self]
            refine ⟨fun hf => ?_, fun _ => procNext_engaged hact⟩
            rw [procAct, procNext_free hf] at hact
            cases hact
          | _ => exact absurd rfl ht
        · simp only [Unmoved, Handling.Idle, Handling.Engaged, hsame, move_procs, if_neg (Ne.symm hp)]
          exact ⟨id, id⟩
  | reader k =>
    cases l with
    | system l =>
      obtain ⟨-, hsame⟩ := hst
      simp only [Unmoved, Handling.Idle, Handling.Engaged, hsame]
      exact ⟨id, id⟩
    | client k' e =>
      obtain ⟨-, q, hact, hsame⟩ := hst
      simp only [Unmoved, Handling.Idle, Handling.Engaged, hsame]
      by_cases hk : k' = k
      · subst hk
        rw [Function.update_self]
        cases e with
        | next =>
          cases hx : x.2 k' with
          | idle => simp [hx, exchangeStep] at hact
          | asked r request found q' =>
            simp only [hx, exchangeStep, Option.map_eq_some_iff] at hact
            obtain ⟨q'', hnext, rfl⟩ := hact
            have hf : ¬ q'.Free := by
              intro hf
              rw [readNext_free hf] at hnext
              cases hnext
            obtain ⟨q₁, hnext', -, heng⟩ := readNext_left H site x.1.db x.1.store hf
            rw [hnext, Option.some.injEq] at hnext'
            exact ⟨fun h => absurd h hf, fun _ => hnext' ▸ heng⟩
        | _ => exact absurd rfl ht
      · rw [Function.update_of_ne (Ne.symm hk)]
        exact ⟨id, id⟩

omit [DecidableEq ι] [DecidableEq κ] in
theorem first_resets (h : request.first newId t = some l) (hu : Resets u l) : u = t := by
  cases request <;> cases t <;> simp only [Limited.first, Option.some.injEq, reduceCtorEq] at h <;>
    subst h <;> cases u <;> simp_all [Resets]

omit [DecidableEq ι] [DecidableEq κ] in
theorem cutOff_resets (hu : Resets u (cutOff t)) : u = t := by
  cases t <;> cases u <;> simp_all [Resets, cutOff]

theorem first_engaged (h : request.first newId t = some l) (hst : (handling H cut site).step x l x') :
    x'.Engaged t := by
  cases t with
  | handler p =>
    obtain ⟨req, rfl⟩ : ∃ req, l = .system (.act p (.start req)) := by
      cases request <;> simp only [Limited.first, Option.some.injEq, reduceCtorEq] at h <;>
        exact ⟨_, h.symm⟩
    obtain ⟨w, q, hact, hsame⟩ := step_act hst.1
    simp only [procAct] at hact
    split at hact
    · rename_i hf
      simp only [Handling.Engaged, hsame, move_procs_self]
      exact procStart_engaged hf hact
    · cases hact
  | reader k =>
    obtain ⟨r, req, rfl⟩ : ∃ r req, l = .client k (.ask r req) := by
      cases request <;> simp only [Limited.first, Option.some.injEq, reduceCtorEq] at h <;>
        exact ⟨_, _, h.symm⟩
    obtain ⟨-, q, hact, hsame⟩ := hst
    simp only [Handling.Engaged, hsame, Function.update_self]
    simp only [exchangeStep] at hact
    split at hact <;> cases hact
    exact readStart_engaged _ _ _

/-! ## Who is where -/

/-- Every request at the door has its place, every one that is under way its permit. -/
structure DoorOk (limit : PermitKind → Nat) (x : Handling ι κ) (d : Door ι κ) : Prop where
  limit : ∀ pool, (d.permits pool).permits = limit pool
  asked : ∀ t request, d.stage t = .asked request → t ∈ (d.permits request.pool).tasks ∧
    x.Idle t ∧ (request.first 0 t : Option (HandlingLabel ι κ)).isSome
  working : ∀ t pool, d.stage t = .working pool → t ∈ (d.permits pool).holders ∧ x.Engaged t
  member : ∀ pool t, t ∈ (d.permits pool).tasks → d.stage t = .working pool ∨
    ∃ request, d.stage t = .asked request ∧ request.pool = pool

omit [DecidableEq ι] [DecidableEq κ] in
theorem doorOk_initial (limit : PermitKind → Nat) (x : Handling ι κ) : DoorOk limit x (.initial limit) where
  limit pool := rfl
  asked t request h := by cases h
  working t pool h := by cases h
  member pool t h := by simp [Door.initial, Semaphore.new, Semaphore.tasks] at h

omit [DecidableEq ι] [DecidableEq κ] in
theorem DoorOk.stable (h : DoorOk limit x d) (hx : ∀ t, d.stage t ≠ .away → Unmoved x x' t) :
    DoorOk limit x' d where
  limit := h.limit
  asked t request ht := by
    obtain ⟨hmem, hidle, hfirst⟩ := h.asked t request ht
    exact ⟨hmem, (hx t (by simp [ht])).1 hidle, hfirst⟩
  working t pool ht := by
    obtain ⟨hmem, heng⟩ := h.working t pool ht
    exact ⟨hmem, (hx t (by simp [ht])).2 heng⟩
  member := h.member

omit [DecidableEq ι] [DecidableEq κ] in
/-- A task is at one semaphore only. -/
theorem DoorOk.pool_eq (h : DoorOk limit x d) {pool' : PermitKind} (ht : t ∈ (d.permits pool).tasks)
    (ht' : t ∈ (d.permits pool').tasks) : pool' = pool := by
  rcases h.member _ _ ht with hs | ⟨request, hs, rfl⟩ <;>
    rcases h.member _ _ ht' with hs' | ⟨request', hs', rfl⟩ <;> rw [hs] at hs' <;> cases hs' <;> rfl

/-- A task asks. -/
theorem DoorOk.ask (h : DoorOk limit x d) (haway : d.stage t = .away)
    (hnew : t ∉ (d.permits request.pool).tasks) (hidle : x.Idle t)
    (hfirst : (request.first 0 t : Option (HandlingLabel ι κ)).isSome) :
    DoorOk limit x ⟨Function.update d.permits request.pool ((d.permits request.pool).acquire t hnew),
      Function.update d.stage t (.asked request)⟩ where
  limit pool := by
    by_cases hp : pool = request.pool
    · subst hp
      simpa using h.limit _
    · simpa [hp] using h.limit pool
  asked u request' hu := by
    by_cases e : u = t
    · subst e
      simp only [Function.update_self, Stage.asked.injEq] at hu
      subst hu
      refine ⟨?_, hidle, hfirst⟩
      simp [Semaphore.mem_acquire]
    · simp only [Function.update_of_ne e] at hu
      obtain ⟨hmem, hidle', hfirst'⟩ := h.asked u request' hu
      refine ⟨?_, hidle', hfirst'⟩
      by_cases hp : request'.pool = request.pool
      · simp only [hp, Function.update_self, Semaphore.mem_acquire]
        exact .inr (hp ▸ hmem)
      · simpa [hp] using hmem
  working u pool hu := by
    have e : u ≠ t := by
      rintro rfl
      simp at hu
    simp only [Function.update_of_ne e] at hu
    obtain ⟨hmem, heng⟩ := h.working u pool hu
    refine ⟨?_, heng⟩
    by_cases hp : pool = request.pool
    · subst hp
      simpa using Semaphore.holders_acquire hmem
    · simpa [hp] using hmem
  member pool u hu := by
    by_cases hp : pool = request.pool
    · subst hp
      simp only [Function.update_self, Semaphore.mem_acquire] at hu
      by_cases e : u = t
      · subst e
        exact .inr ⟨request, by simp, rfl⟩
      · simpa [e] using h.member _ u (hu.resolve_left e)
    · simp only [Function.update_of_ne hp] at hu
      have e : u ≠ t := by
        rintro rfl
        rcases h.member _ _ hu with hs | ⟨request', hs, -⟩ <;> simp [haway] at hs
      simpa [e] using h.member _ u hu

/-- A task goes away, whatever happens to it. -/
theorem DoorOk.left (h : DoorOk limit x d) (ht : t ∈ (d.permits pool).tasks)
    (hx : ∀ u, u ≠ t → Unmoved x x' u) : DoorOk limit x' (d.left t pool) where
  limit pool' := by
    by_cases hp : pool' = pool
    · subst hp
      simpa [Door.left] using h.limit _
    · simpa [Door.left, hp] using h.limit pool'
  asked u request hu := by
    have e : u ≠ t := by
      rintro rfl
      simp [Door.left] at hu
    simp only [Door.left, Function.update_of_ne e] at hu
    obtain ⟨hmem, hidle, hfirst⟩ := h.asked u request hu
    refine ⟨?_, (hx u e).1 hidle, hfirst⟩
    by_cases hp : request.pool = pool
    · simp only [Door.left, hp, Function.update_self, Semaphore.mem_leave]
      exact ⟨e, hp ▸ hmem⟩
    · simpa [Door.left, hp] using hmem
  working u pool' hu := by
    have e : u ≠ t := by
      rintro rfl
      simp [Door.left] at hu
    simp only [Door.left, Function.update_of_ne e] at hu
    obtain ⟨hmem, heng⟩ := h.working u pool' hu
    refine ⟨?_, (hx u e).2 heng⟩
    by_cases hp : pool' = pool
    · subst hp
      simpa [Door.left] using Semaphore.holders_leave hmem e
    · simpa [Door.left, hp] using hmem
  member pool' u hu := by
    by_cases hp : pool' = pool
    · subst hp
      simp only [Door.left, Function.update_self, Semaphore.mem_leave] at hu
      simpa [Door.left, hu.1] using h.member _ u hu.2
    · simp only [Door.left, Function.update_of_ne hp] at hu
      have e : u ≠ t := by
        rintro rfl
        exact hp (h.pool_eq ht hu)
      simpa [Door.left, e] using h.member _ u hu

/-- A task with a permit begins. -/
theorem DoorOk.begin (h : DoorOk limit x d) (hs : d.stage t = .asked request)
    (ht : t ∈ (d.permits request.pool).holders) (heng : x'.Engaged t)
    (hx : ∀ u, u ≠ t → Unmoved x x' u) :
    DoorOk limit x' { d with stage := Function.update d.stage t (.working request.pool) } where
  limit := h.limit
  asked u request' hu := by
    have e : u ≠ t := by
      rintro rfl
      simp at hu
    simp only [Function.update_of_ne e] at hu
    obtain ⟨hmem, hidle, hfirst⟩ := h.asked u request' hu
    exact ⟨hmem, (hx u e).1 hidle, hfirst⟩
  working u pool hu := by
    by_cases e : u = t
    · subst e
      simp only [Function.update_self, Stage.working.injEq] at hu
      subst hu
      exact ⟨ht, heng⟩
    · simp only [Function.update_of_ne e] at hu
      obtain ⟨hmem, heng'⟩ := h.working u pool hu
      exact ⟨hmem, (hx u e).2 heng'⟩
  member pool u hu := by
    by_cases e : u = t
    · subst e
      have hpool := h.pool_eq (Semaphore.mem_tasks.2 (.inl ht)) hu
      exact .inl (by simp [hpool])
    · simpa [e] using h.member pool u hu

/-- Every move at the door, and the step of the server behind it. -/
inductive DoorTurn (x : Handling ι κ) (d : Door ι κ) :
    DoorEvent ι κ → Option (HandlingLabel ι κ) → Door ι κ → Prop
  | ask {t : Task ι κ} {request : Limited} (hnew : t ∉ (d.permits request.pool).tasks) :
      d.stage t = .away → x.Idle t →
      (request.first 0 t : Option (HandlingLabel ι κ)).isSome →
      DoorTurn x d (.ask t request) none
        ⟨Function.update d.permits request.pool ((d.permits request.pool).acquire t hnew),
          Function.update d.stage t (.asked request)⟩
  | begin {t : Task ι κ} {newId : Uuid} {request : Limited} : d.stage t = .asked request →
      t ∈ (d.permits request.pool).holders →
      DoorTurn x d (.begin t newId) (request.first newId t)
        { d with stage := Function.update d.stage t (.working request.pool) }
  | refuse {t : Task ι κ} {request : Limited} : d.stage t = .asked request →
      t ∈ (d.permits request.pool).holders →
      DoorTurn x d (.refuse t) none (d.left t request.pool)
  | finish {t : Task ι κ} {pool : PermitKind} : d.stage t = .working pool → x.answered t = true →
      DoorTurn x d (.finish t) none (d.left t pool)
  | withdraw {t : Task ι κ} {request : Limited} : d.stage t = .asked request →
      DoorTurn x d (.drop t) none (d.left t request.pool)
  | abort {t : Task ι κ} {pool : PermitKind} : d.stage t = .working pool →
      DoorTurn x d (.drop t) (some (cutOff t)) (d.left t pool)

theorem doorStep_turn {e : DoorEvent ι κ} (h : doorStep x d e = some d') :
    DoorTurn x d e (doorCall d e) d' := by
  cases e with
  | ask t request =>
    simp only [doorStep] at h
    split at h
    · rename_i haway
      split at h
      · rename_i hask
        cases h
        exact .ask hask.1 haway hask.2.1 hask.2.2
      · cases h
    · cases h
  | begin t newId =>
    simp only [doorStep, doorCall] at h ⊢
    cases hs : d.stage t with
    | asked request =>
      simp only [hs] at h ⊢
      split at h
      · rename_i ht
        cases h
        exact .begin hs ht
      · cases h
    | _ => simp [hs] at h
  | refuse t =>
    simp only [doorStep] at h
    split at h
    · rename_i hs
      split at h
      · rename_i ht
        cases h
        exact .refuse hs ht
      · cases h
    · cases h
  | finish t =>
    simp only [doorStep] at h
    split at h
    · rename_i hs
      split at h
      · rename_i ht
        cases h
        exact .finish hs ht
      · cases h
    · cases h
  | drop t =>
    simp only [doorStep, doorCall] at h ⊢
    cases hs : d.stage t with
    | away => simp [hs] at h
    | asked request =>
      simp only [hs, Option.some.injEq] at h ⊢
      subst h
      exact .withdraw hs
    | working pool =>
      simp only [hs, Option.some.injEq] at h ⊢
      subst h
      exact .abort hs

omit [DecidableEq ι] [DecidableEq κ] in
/-- Without the door no task at the door is given a request, or dropped. -/
theorem ThroughDoor.away {y : Handling ι κ × (Unit → Door ι κ)} (h : ThroughDoor y (.system l))
    (hu : Resets u l) : (y.2 ()).stage u = .away := by
  cases u with
  | handler p =>
    cases l with
    | client k e => exact hu.elim
    | system l =>
      cases l with
      | advance δ => exact hu.elim
      | act p' a =>
        cases a with
        | next choice => exact hu.elim
        | start request =>
          obtain rfl : p' = p := hu
          exact h.2
        | kill =>
          obtain rfl : p' = p := hu
          exact h
  | reader k =>
    cases l with
    | system l => cases l <;> exact hu.elim
    | client k' e =>
      cases e with
      | next => exact hu.elim
      | ask r request =>
        obtain rfl : k' = k := hu
        exact h.2
      | stop =>
        obtain rfl : k' = k := hu
        exact h

/-- A door event and what the server does in it. -/
theorem DoorOk.turn {e : DoorEvent ι κ} {c : Option (HandlingLabel ι κ)} (h : DoorOk limit x d)
    (ht : DoorTurn x d e c d') (hst : (handling H cut site).Takes x c x') : DoorOk limit x' d' := by
  cases ht with
  | ask hnew haway hidle hfirst =>
    obtain rfl : x' = x := hst
    exact h.ask haway hnew hidle hfirst
  | @begin t newId request hs ht =>
    have hsome := (h.asked t request hs).2.2
    cases hfirst : (request.first newId t : Option (HandlingLabel ι κ)) with
    | none => cases request <;> cases t <;> simp [Limited.first] at hfirst hsome
    | some l =>
      rw [hfirst] at hst
      refine h.begin hs ht (first_engaged hfirst hst) fun u hu => handling_kept hst fun hres => ?_
      exact hu (first_resets hfirst hres)
  | @refuse t request hs ht =>
    obtain rfl : x' = x := hst
    exact h.left (Semaphore.mem_tasks.2 (.inl ht)) fun u _ => ⟨id, id⟩
  | @finish t pool hs _ =>
    obtain rfl : x' = x := hst
    exact h.left (Semaphore.mem_tasks.2 (.inl (h.working t pool hs).1)) fun u _ => ⟨id, id⟩
  | @withdraw t request hs =>
    obtain rfl : x' = x := hst
    exact h.left (h.asked t request hs).1 fun u _ => ⟨id, id⟩
  | @abort t pool hs =>
    refine h.left (Semaphore.mem_tasks.2 (.inl (h.working t pool hs).1)) fun u hu => ?_
    exact handling_kept hst fun hres => hu (cutOff_resets hres)

theorem door_ok (H : Hashes) (cut : Cutter) (site : Site) (limit : PermitKind → Nat) :
    (permitted H cut site limit : LTS (Handling ι κ × (Unit → Door ι κ)) _).Inductive
      fun y => DoorOk limit y.1 (y.2 ()) where
  init := by
    rintro ⟨x, d⟩ ⟨-, rfl⟩
    exact doorOk_initial limit x
  step := by
    rintro y c y' h ⟨hdoor, hst, hd⟩
    cases c with
    | system l =>
      rw [hd]
      refine h.stable fun t hs => handling_kept hst fun hres => hs (ThroughDoor.away hdoor hres)
    | client u e =>
      obtain ⟨d', hact, hd⟩ := hd
      rw [hd, Function.update_self]
      exact h.turn (doorStep_turn hact) hst

/-! ## Getting on -/

theorem procNext_issued {w w' : Shared} {q q' : Proc} {choice : Choice}
    (h : procNext H w q choice = some (w', q')) : w'.issued = w.issued := by
  unfold procNext procPublish at h
  repeat' split at h
  all_goals first | (cases h; done) | (cases h; rfl)

/-- No request arrives, is refused or dropped, and no time passes; what begins and finishes is in
`S`. -/
def Cooperates (S : List (Task ι κ)) : DoorLabel ι κ → Prop
  | .system (.system (.act _ (.next _))) | .system (.client _ .next) => True
  | .client _ (.begin t _) | .client _ (.finish t) => t ∈ S
  | _ => False

variable {y y' : Handling ι κ × (Unit → Door ι κ)} {S : List (Task ι κ)}

theorem permitted_server (hr : (permitted H cut site limit).Reachable y) :
    (server H cut).Reachable y.1.1 :=
  hr.of_guard.called.system

/-- A request that only reads gets its answer. -/
theorem reader_answers (H : Hashes) (cut : Cutter) (site : Site) (limit : PermitKind → Nat)
    (S : List (Task ι κ)) {k : κ} {r : Uuid} {request : ReadRequest} {found : Bool} {q : Reader}
    (hq : y.1.2 k = .asked r request found q) (heng : q.Engaged) :
    ∃ ls y', (permitted H cut site limit).Run y ls y' ∧ (∀ l ∈ ls, Cooperates S l) ∧ y'.2 = y.2 ∧
      y'.1.answered (.reader k) = true ∧ y'.1.1 = y.1.1 := by
  induction hn : q.left using Nat.strong_induction_on generalizing y q with
  | _ n ih =>
    rcases heng with hf | ⟨response, rfl⟩
    · obtain ⟨q', hnext, hlt, heng'⟩ := readNext_left H site y.1.1.db y.1.1.store hf
      obtain ⟨y₁, hy₁⟩ : ∃ y₁, y₁ = ((y.1.1, Function.update y.1.2 k (.asked r request found q')), y.2) :=
        ⟨_, rfl⟩
      have hst : (permitted H cut site limit).step y (.system (.client k .next)) y₁ := by
        subst hy₁
        refine ⟨trivial, ⟨rfl, _, ?_, rfl⟩, rfl⟩
        simp [hq, exchangeStep, hnext]
      have hq₁ : y₁.1.2 k = .asked r request found q' := by
        rw [hy₁]
        exact Function.update_self ..
      obtain ⟨ls, y', hrun, hcoop, hdoor, hdone, hsame⟩ := ih _ (hn ▸ hlt) hq₁ heng' rfl
      refine ⟨_, y', .cons hst hrun, fun l hl => ?_, by rw [hdoor, hy₁], hdone, by rw [hsame, hy₁]⟩
      rcases List.mem_cons.1 hl with rfl | hl
      · trivial
      · exact hcoop l hl
    · refine ⟨[], y, .nil y, fun l hl => absurd hl List.not_mem_nil, rfl, ?_, rfl⟩
      simp [Handling.answered, hq]

/-- **A request that is under way gets its answer.** -/
theorem engaged_settles (hr : (permitted H cut site limit).Reachable y) (heng : y.1.Engaged t) :
    ∃ ls y', (permitted H cut site limit).Run y ls y' ∧ (∀ l ∈ ls, Cooperates S l) ∧ y'.2 = y.2 ∧
      y'.1.answered t = true ∧ y'.1.1.issued = y.1.1.issued := by
  cases t with
  | handler p =>
    obtain ⟨ls, s', response, hrun, hdone, hsteps⟩ := engaged_answers (permitted_server hr) heng
    have hlabels : ∀ l ∈ ls.map LTS.ClientLabel.system, ∃ p choice,
        l = (.system (.act p (.next choice)) : HandlingLabel ι κ) := by
      intro l hl
      obtain ⟨l', hl', rfl⟩ := List.mem_map.1 hl
      obtain ⟨p', choice, rfl, -⟩ := hsteps l' hl'
      exact ⟨p', choice, rfl⟩
    have hhandling : (handling H cut site).Run y.1 (ls.map .system) (s', y.1.2) := hrun.beside y.1.2
    refine ⟨_, _, hhandling.idle (q := y.2) fun l hl a => ?_, fun l hl => ?_, rfl, ?_, ?_⟩
    · obtain ⟨p', choice, rfl⟩ := hlabels l hl
      trivial
    · obtain ⟨l', hl', rfl⟩ := List.mem_map.1 hl
      obtain ⟨p', choice, rfl⟩ := hlabels l' hl'
      trivial
    · simp [Handling.answered, hdone]
    · refine hrun.preserve (P := fun s => s.issued = y.1.1.issued) rfl fun a l b hl ha hst => ?_
      obtain ⟨p', choice, rfl, -⟩ := hsteps l hl
      obtain ⟨w, q, hact, rfl⟩ := step_act hst
      exact (procNext_issued hact).trans ha
  | reader k =>
    simp only [Handling.Engaged] at heng
    cases hq : y.1.2 k with
    | idle =>
      rw [hq] at heng
      exact heng.elim
    | asked r request found q =>
      rw [hq] at heng
      obtain ⟨ls, y', hrun, hcoop, hdoor, hdone, hsame⟩ :=
        reader_answers H cut site limit S hq heng
      exact ⟨ls, y', hrun, hcoop, hdoor, hdone, by rw [hsame]⟩

theorem exists_fresh {ids : List Uuid} (h : ids.length < 2 ^ 128) : ∃ u, u ∉ ids := by
  by_contra hall
  have hsub : Finset.univ.image (BitVec.ofFin (w := 128)) ⊆ ids.toFinset := fun u _ => by
    simpa using not_exists_not.1 hall u
  have hcard := Finset.card_le_card hsub
  rw [Finset.card_image_of_injective _ fun a b hab => by simpa using congrArg BitVec.toFin hab,
    Finset.card_univ, Fintype.card_fin] at hcard
  have := List.toFinset_card_le ids
  omega

/-- A request that has its permit can begin. -/
theorem first_starts (cut : Cutter) (site : Site) (hidle : x.Idle t)
    (hfirst : (request.first 0 t : Option (HandlingLabel ι κ)).isSome) (hnew : newId ∉ x.1.issued) :
    ∃ l x', request.first newId t = some l ∧ (handling H cut site).step x l x' ∧
      x'.1.issued.length ≤ x.1.issued.length + 1 := by
  cases t with
  | handler p =>
    have hstarts : ∀ {req : Request}, (∃ w q, procStart H cut x.1.hist.now x.1.toShared req = some (w, q) ∧
        w.issued.length ≤ x.1.issued.length + 1) →
        ∃ x', (handling H cut site).step x (.system (.act p (.start req))) x' ∧
          x'.1.issued.length ≤ x.1.issued.length + 1 := by
      rintro req ⟨w, q, hstart, hlen⟩
      exact ⟨(x.1.move p w q, x.2), ⟨step_start hidle hstart, rfl⟩, hlen⟩
    have hready : ∀ {req : Request}, (∃ w q, procStart H cut x.1.hist.now x.1.toShared req = some (w, q) ∧
        w.issued.length ≤ x.1.issued.length + 1) →
        request.first newId (.handler p) = some (.system (.act p (.start req)) : HandlingLabel ι κ) →
        ∃ l x', request.first newId (.handler p) = some l ∧ (handling H cut site).step x l x' ∧
          x'.1.issued.length ≤ x.1.issued.length + 1 := by
      intro req hreq hl
      obtain ⟨x', hst, hlen⟩ := hstarts hreq
      exact ⟨_, x', hl, hst, hlen⟩
    cases request with
    | uploadBasic r oid body =>
      refine hready ?_ rfl
      simp only [procStart, startBasic, if_neg hnew]
      repeat' split
      all_goals exact ⟨_, _, rfl, by simp⟩
    | uploadCdcChunk r oid u i bytes =>
      refine hready ?_ rfl
      simp only [procStart]
      split <;> exact ⟨_, _, rfl, Nat.le_succ _⟩
    | finalizeCdc r oid u =>
      refine hready ?_ rfl
      simp only [procStart]
      split <;> exact ⟨_, _, rfl, Nat.le_succ _⟩
    | _ => cases hfirst
  | reader k =>
    have hready : ∀ {r : Uuid} {req : ReadRequest},
        request.first newId (.reader k) = some (.client k (.ask r req) : HandlingLabel ι κ) →
        ∃ l x', request.first newId (.reader k) = some l ∧ (handling H cut site).step x l x' ∧
          x'.1.issued.length ≤ x.1.issued.length + 1 := by
      intro r req hl
      refine ⟨_, (x.1, Function.update x.2 k (.asked r req (req.finds x.1.db r) (readStart x.1.db r req))),
        hl, ⟨rfl, _, ?_, rfl⟩, Nat.le_succ _⟩
      exact if_pos hidle
    cases request with
    | downloadBasic r oid => exact hready rfl
    | downloadCdcChunk r oid i => exact hready rfl
    | _ => cases hfirst

/-- A request with a permit gets its answer. -/
theorem holder_settles (hr : (permitted H cut site limit).Reachable y)
    (ht : t ∈ ((y.2 ()).permits pool).holders) (hS : t ∈ S) (hids : y.1.1.issued.length < 2 ^ 128) :
    ∃ ls y', (permitted H cut site limit).Run y ls y' ∧ (∀ l ∈ ls, Cooperates S l) ∧
      (y'.2 ()).permits = (y.2 ()).permits ∧ (y'.2 ()).stage t = .working pool ∧
      y'.1.answered t = true ∧ y'.1.1.issued.length ≤ y.1.1.issued.length + 1 := by
  have hok := (door_ok H cut site limit).reachable hr
  rcases hok.member pool t (Semaphore.mem_tasks.2 (.inl ht)) with hs | ⟨request, hs, rfl⟩
  · obtain ⟨ls, y', hrun, hcoop, hdoor, hdone, hsame⟩ :=
      engaged_settles (S := S) hr (hok.working t pool hs).2
    exact ⟨ls, y', hrun, hcoop, by rw [hdoor], by rw [hdoor, hs], hdone, by rw [hsame]; omega⟩
  · -- it begins first
    obtain ⟨newId, hnew⟩ := exists_fresh hids
    obtain ⟨-, hidle, hfirst⟩ := hok.asked t request hs
    obtain ⟨l, x', hl, hst, hlen⟩ := first_starts (H := H) cut site hidle hfirst hnew
    obtain ⟨d, hd⟩ : ∃ d : Door ι κ, d = { y.2 () with
      stage := Function.update (y.2 ()).stage t (.working request.pool) } := ⟨_, rfl⟩
    have hdoor : doorStep y.1 (y.2 ()) (.begin t newId) = some d := by
      simp [doorStep, hs, ht, hd]
    have hbegin : (permitted H cut site limit).step y (.client () (.begin t newId)) (x', fun _ => d) := by
      refine ⟨trivial, ?_, d, hdoor, ?_⟩
      · simp only [LTS.called, doorCall, hs, hl]
        exact hst
      · funext u
        simp
    obtain ⟨ls, y', hrun, hcoop, hsame, hdone, hissued⟩ :=
      engaged_settles (S := S) (hr.step hbegin) (first_engaged hl hst)
    refine ⟨_, y', .cons hbegin hrun, fun l' hl' => ?_, ?_, ?_, hdone, ?_⟩
    · rcases List.mem_cons.1 hl' with rfl | hl'
      · exact hS
      · exact hcoop l' hl'
    · rw [hsame, hd]
    · simp [hsame, hd]
    · rw [hissued]
      exact hlen

/-- A request that waits for its permit gets it, and its answer: those that hold the permits finish
one after the other. The induction is on the length of the queue. -/
theorem waiting_settles (hlimit : 0 < limit pool) : ∀ {n : Nat} {y : Handling ι κ × (Unit → Door ι κ)},
    ((y.2 ()).permits pool).queue.length ≤ n → (permitted H cut site limit).Reachable y →
    t ∈ ((y.2 ()).permits pool).tasks → (∀ u ∈ ((y.2 ()).permits pool).tasks, u ∈ S) →
    y.1.1.issued.length + ((y.2 ()).permits pool).tasks.length ≤ 2 ^ 128 →
    ∃ ls y', (permitted H cut site limit).Run y ls y' ∧ (∀ l ∈ ls, Cooperates S l) ∧
      (y'.2 ()).stage t = .working pool ∧ y'.1.answered t = true := by
  intro n
  induction n with
  | zero =>
    intro y hlen hr ht hS hids
    have hnil := List.length_eq_zero_iff.1 (Nat.le_zero.1 hlen)
    have hpos := List.length_pos_of_mem ht
    have hholds : t ∈ ((y.2 ()).permits pool).holders := by
      simpa [Semaphore.mem_tasks, hnil] using ht
    obtain ⟨ls, y', hrun, hcoop, -, hs, hdone, -⟩ := holder_settles hr hholds (hS t ht) (by omega)
    exact ⟨ls, y', hrun, hcoop, hs, hdone⟩
  | succ n ih =>
    intro y hlen hr ht hS hids
    have hpos := List.length_pos_of_mem ht
    rcases Semaphore.mem_tasks.1 ht with hholds | hwaits
    · obtain ⟨ls, y', hrun, hcoop, -, hs, hdone, -⟩ := holder_settles hr hholds (hS t ht) (by omega)
      exact ⟨ls, y', hrun, hcoop, hs, hdone⟩
    -- a holder finishes
    have hok := (door_ok H cut site limit).reachable hr
    obtain ⟨u, hu⟩ : ∃ u, u ∈ ((y.2 ()).permits pool).holders := by
      have hbusy := ((y.2 ()).permits pool).busy (List.ne_nil_of_mem hwaits)
      rw [hok.limit] at hbusy
      exact List.exists_mem_of_length_pos (by omega)
    have hut : t ≠ u := by
      rintro rfl
      exact Semaphore.disjoint hu hwaits
    obtain ⟨ls, y₁, hrun, hcoop, hsame, hs, hdone, hissued⟩ :=
      holder_settles (S := S) hr hu (hS u (Semaphore.mem_tasks.2 (.inl hu))) (by omega)
    obtain ⟨d, hd⟩ : ∃ d, d = (y₁.2 ()).left u pool := ⟨_, rfl⟩
    have hfinish : (permitted H cut site limit).step y₁ (.client () (.finish u)) (y₁.1, fun _ => d) := by
      refine ⟨trivial, rfl, d, ?_, ?_⟩
      · simp [doorStep, hs, hdone, hd]
      · funext v
        simp
    have hpermits : d.permits pool = ((y.2 ()).permits pool).leave u := by
      simp [hd, Door.left, hsame]
    obtain ⟨htasks, hqueue⟩ := Semaphore.length_leave hu
    obtain ⟨ls', y', hrun', hcoop', hs', hdone'⟩ := ih (y := (y₁.1, fun _ => d))
      (by simp only [hpermits]; omega) ((hr.run hrun).step hfinish)
      (by simpa only [hpermits, Semaphore.mem_leave] using ⟨hut, ht⟩)
      (by
        intro v hv
        simp only [hpermits, Semaphore.mem_leave] at hv
        exact hS v hv.2)
      (by simp only [hpermits]; omega)
    refine ⟨_, y', hrun.append (.cons hfinish hrun'), fun l hl => ?_, hs', hdone'⟩
    rcases List.mem_append.1 hl with hl | hl
    · exact hcoop l hl
    rcases List.mem_cons.1 hl with rfl | hl
    · exact hS u (Semaphore.mem_tasks.2 (.inl hu))
    · exact hcoop' l hl

/-! ## In the order of the requests -/

/-- While a task waits, permits go to those ahead of it. -/
theorem door_fair {l : DoorLabel ι κ} (hst : (permitted H cut site limit).step y l y')
    (hask : ∀ request, l ≠ .client () (.ask t request)) (ht : t ∈ ((y'.2 ()).permits pool).queue) :
    t ∈ ((y.2 ()).permits pool).queue ∧
      ((y'.2 ()).permits pool).ahead t ⊆ ((y.2 ()).permits pool).ahead t ∧
      ∀ u ∈ ((y'.2 ()).permits pool).holders,
        u ∈ ((y.2 ()).permits pool).holders ∨ u ∈ ((y.2 ()).permits pool).ahead t := by
  obtain ⟨-, -, hd⟩ := hst
  have hsame : (y'.2 ()).permits pool = (y.2 ()).permits pool → t ∈ ((y.2 ()).permits pool).queue ∧
      ((y'.2 ()).permits pool).ahead t ⊆ ((y.2 ()).permits pool).ahead t ∧
      ∀ u ∈ ((y'.2 ()).permits pool).holders,
        u ∈ ((y.2 ()).permits pool).holders ∨ u ∈ ((y.2 ()).permits pool).ahead t := by
    intro h
    rw [h] at ht ⊢
    exact ⟨ht, List.Subset.refl _, fun u hu => .inl hu⟩
  cases l with
  | system l => exact hsame (by rw [hd])
  | client v e =>
    obtain ⟨d, hact, hd⟩ := hd
    have hd' : y'.2 () = d := by simp [hd]
    rw [hd'] at ht hsame ⊢
    have hleft : ∀ {u : Task ι κ} {pool' : PermitKind}, d = (y.2 ()).left u pool' →
        t ∈ ((y.2 ()).permits pool).queue ∧ (d.permits pool).ahead t ⊆ ((y.2 ()).permits pool).ahead t ∧
        ∀ u ∈ (d.permits pool).holders,
          u ∈ ((y.2 ()).permits pool).holders ∨ u ∈ ((y.2 ()).permits pool).ahead t := by
      rintro u pool' rfl
      by_cases hp : pool = pool'
      · subst hp
        simp only [Door.left, Function.update_self] at ht ⊢
        exact ⟨Semaphore.queue_leave ht, Semaphore.ahead_leave ht⟩
      · exact hsame (by simp [Door.left, hp])
    have hturn := doorStep_turn hact
    generalize doorCall _ e = c at hturn
    cases hturn with
    | @ask u request hnew =>
      by_cases hp : pool = request.pool
      · subst hp
        simp only [Function.update_self] at ht ⊢
        have hwaits : t ∈ ((y.2 ()).permits request.pool).queue := by
          refine (Semaphore.queue_acquire ht).resolve_left ?_
          rintro rfl
          exact hask request rfl
        obtain ⟨hholders, hahead⟩ := Semaphore.ahead_acquire (h := hnew) hwaits
        exact ⟨hwaits, by rw [hahead]; exact List.Subset.refl _, fun u hu => .inl (hholders ▸ hu)⟩
      · exact hsame (by simp [hp])
    | begin => exact hsame rfl
    | refuse => exact hleft rfl
    | finish => exact hleft rfl
    | withdraw => exact hleft rfl
    | abort => exact hleft rfl

theorem run_fair {ls : List (DoorLabel ι κ)} (hrun : (permitted H cut site limit).Run y ls y')
    (hask : ∀ request, .client () (.ask t request) ∉ ls) (ht : t ∈ ((y'.2 ()).permits pool).queue) :
    t ∈ ((y.2 ()).permits pool).queue ∧
      ((y'.2 ()).permits pool).ahead t ⊆ ((y.2 ()).permits pool).ahead t ∧
      ∀ u ∈ ((y'.2 ()).permits pool).holders,
        u ∈ ((y.2 ()).permits pool).holders ∨ u ∈ ((y.2 ()).permits pool).ahead t := by
  induction hrun with
  | nil => exact ⟨ht, List.Subset.refl _, fun u hu => .inl hu⟩
  | @cons a b c l ls hst _ ih =>
    obtain ⟨hb, hahead, hholders⟩ := ih (fun request hl => hask request (List.mem_cons_of_mem l hl)) ht
    obtain ⟨ha, hahead', hholders'⟩ := door_fair hst (fun request hl => hask request (by simp [hl])) hb
    refine ⟨ha, fun u hu => hahead' (hahead hu), fun u hu => ?_⟩
    rcases hholders u hu with hu | hu
    · exact hholders' u hu
    · exact .inr (hahead' hu)

/-- **Requests are admitted in turn.** In every state of a run with arrivals, refusals and
dropped connections at any time: no more requests of a kind are under way than it has permits;
while one waits, a permit goes only to those that were waiting before it; and each that waits or
has a permit can be brought to its answer without a new request, a dropped or refused one or time
passing: the requests that hold permits finish, and those in the queue begin. (A transaction other
than a drain's is one step here: that two finalizations wait for each other's rows is not modelled.) -/
theorem requests_admitted (H : Hashes) (cut : Cutter) (site : Site) (limits : Limits)
    (y : Handling ι κ × (Unit → Door ι κ))
    (hr : (permitted H cut site limits.permits).Reachable y) (pool : PermitKind) :
    (∀ busy : Finset (Task ι κ), (∀ t ∈ busy, (y.2 ()).stage t = .working pool) →
      busy.card ≤ limits.permits pool) ∧
    ∀ t ∈ ((y.2 ()).permits pool).tasks,
      (∀ ls y', (permitted H cut site limits.permits).Run y ls y' →
        (∀ request, .client () (.ask t request) ∉ ls) → t ∈ ((y'.2 ()).permits pool).queue →
        ∀ u ∈ ((y'.2 ()).permits pool).holders,
          u ∈ ((y.2 ()).permits pool).holders ∨ u ∈ ((y.2 ()).permits pool).ahead t) ∧
      (y.1.1.issued.length + ((y.2 ()).permits pool).tasks.length ≤ 2 ^ 128 →
        ∃ ls y', (permitted H cut site limits.permits).Run y ls y' ∧
          (∀ l ∈ ls, Cooperates ((y.2 ()).permits pool).tasks l) ∧
          (y'.2 ()).stage t = .working pool ∧ y'.1.answered t = true) := by
  have hok := (door_ok H cut site limits.permits).reachable hr
  refine ⟨fun busy hbusy => ?_, fun t ht => ⟨fun ls y' hrun hask hwaits => ?_, fun hids => ?_⟩⟩
  · have hsub : busy ⊆ ((y.2 ()).permits pool).holders.toFinset := fun t ht =>
      List.mem_toFinset.2 (hok.working t pool (hbusy t ht)).1
    calc busy.card ≤ ((y.2 ()).permits pool).holders.toFinset.card := Finset.card_le_card hsub
      _ ≤ ((y.2 ()).permits pool).holders.length := List.toFinset_card_le _
      _ ≤ ((y.2 ()).permits pool).permits := ((y.2 ()).permits pool).within
      _ = limits.permits pool := hok.limit pool
  · exact (run_fair hrun hask hwaits).2.2
  · exact waiting_settles (limits.permits_pos pool) (Nat.le_refl _) hr ht (fun u hu => hu) hids

end Steps

instance : DecidablePred Request.Unlimited
  | .uploadBasic .. | .uploadCdcChunk .. | .finalizeCdc .. => .isFalse not_false
  | .beginCdc .. | .submitSnapshot .. | .stage .. | .collectDue .. | .reclaimExpiredUploads .. =>
    .isTrue trivial

instance : DecidablePred ReadRequest.Unlimited
  | .downloadBasic _ | .downloadCdcChunk .. => .isFalse not_false
  | .batch .. | .downloadCdcManifest _ => .isTrue trivial

instance {ι κ : Type} (y : Handling ι κ × (Unit → Door ι κ)) [DecidableEq ι] [DecidableEq κ] :
    DecidablePred (ThroughDoor y)
  | .system (.system (.act p (.start request))) =>
    inferInstanceAs (Decidable (request.Unlimited ∧ (y.2 ()).stage (.handler p) = .away))
  | .system (.system (.act p .kill)) => inferInstanceAs (Decidable ((y.2 ()).stage (.handler p) = .away))
  | .system (.client k (.ask _ request)) =>
    inferInstanceAs (Decidable (request.Unlimited ∧ (y.2 ()).stage (.reader k) = .away))
  | .system (.client k .stop) => inferInstanceAs (Decidable ((y.2 ()).stage (.reader k) = .away))
  | .system (.system (.advance _)) | .system (.system (.act _ (.next _))) | .system (.client _ .next)
  | .client _ _ => .isTrue trivial

namespace Sample

/-- The first process has the only permit and puts the chunk of byte `a`; the second waits to
publish the object. -/
def queues : List (DoorLabel (Fin 2) Unit) :=
  (begins first 1 17 [0x61]).map (.system ∘ .system) ++
    [.ask (.handler first) (.uploadCdcChunk 1 (hashes.sha256 [0x61]) 17 0 [0x61]),
      .begin (.handler first) 0,
      .ask (.handler second) (.finalizeCdc 1 (hashes.sha256 [0x61]) 17)].map (.client ())

end Sample

open Sample in
/-- The second request waits, and is answered when the first has finished. -/
theorem requests_admitted_second : ∃ y : Handling (Fin 2) Unit × (Unit → Door (Fin 2) Unit),
    (permitted hashes Sample.cut (fun _ => none) (Limits.permits ⟨0, 0⟩)).Reachable y ∧
      ((y.2 ()).permits .data).queue = [.handler Sample.second] ∧
      ∃ ls y', (permitted hashes Sample.cut (fun _ => none) (Limits.permits ⟨0, 0⟩)).Run y ls y' ∧
        (y'.2 ()).stage (.handler Sample.second) = .working .data ∧
        y'.1.answered (.handler Sample.second) = true := by
  obtain ⟨y, hr, hq, hh, hids⟩ : ∃ y : Handling (Fin 2) Unit × (Unit → Door (Fin 2) Unit),
      (permitted hashes Sample.cut (fun _ => none) (Limits.permits ⟨0, 0⟩)).Reachable y ∧
      ((y.2 ()).permits .data).queue = [.handler Sample.second] ∧
      ((y.2 ()).permits .data).holders = [.handler Sample.first] ∧ y.1.1.issued = [17] := by
    unfold permitted handling
    rw [server, LTS.clients_ofFn, LTS.callers_ofFn]
    exact LTS.exists_reachable_of_execGuard
      (s := ((.initial 0, fun _ => .idle), fun _ => .initial (Limits.permits ⟨0, 0⟩)))
      queues ⟨⟨⟨0, rfl⟩, rfl⟩, rfl⟩ (by decide +kernel)
  obtain ⟨-, hadmitted⟩ := requests_admitted hashes Sample.cut (fun _ => none) ⟨0, 0⟩ y hr .data
  have hmem : .handler Sample.second ∈ ((y.2 ()).permits .data).tasks :=
    Semaphore.mem_tasks.2 (.inr (by simp [hq]))
  obtain ⟨ls, y', hrun, -, hs, hdone⟩ := (hadmitted _ hmem).2 (by simp [Semaphore.tasks, hq, hh, hids])
  exact ⟨y, hr, hq, ls, y', hrun, hs, hdone⟩

end GitLfsDelta
