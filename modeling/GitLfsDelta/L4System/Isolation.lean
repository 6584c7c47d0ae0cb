import GitLfsDelta.Core.Noninterference
import GitLfsDelta.L2Storage.Provider
import GitLfsDelta.L4System.Partition
import GitLfsDelta.L4System.Service

/-!
# Repositories do not see each other

Repositories share the tables, the store, the lock table and the directory. `Service.view R` is
what belongs to repository `R`, with the processes that work for it. A step concerns `R` if it
is a request or command for `R`, or a step of such a process; `observe` records it with what it
depends on from outside (`Input`: the request, the outcome of `authenticate`, random ids, which
of two equal rows PostgreSQL returns first, the clock) and with its answer.

A step that does not concern `R` leaves the view alone (`serviceAct_other`); one that does is
determined by the view and the input (`serviceAct_same`). By `LTS.noninterference`, nothing
that happens in other repositories ever shows in `R` (`repositories_isolated`).
-/
namespace GitLfsDelta

/-! ## Steps of a repository -/

/-- The lookup gave this repository. -/
def Finds {ε : Type} (R : Uuid) : Except ε Uuid → Bool
  | .ok r => r = R
  | .error _ => false

theorem finds_iff {ε : Type} {R : Uuid} {x : Except ε Uuid} : Finds R x = true ↔ x = .ok R := by
  cases x with
  | error e => exact ⟨nofun, nofun⟩
  | ok r => simp [Finds]

/-- What a step of a repository depends on besides the state: the label, but for a call the
outcome of `authenticate` in place of the services it asked. An oversized batch is refused
before `authenticate`. -/
inductive Input (ι : Type)
  | call (p : ι) (caller : Caller) (call : Call) (outcome : Option (Except ApiError Identity))
  | other (l : ServiceLabel ι)
  deriving DecidableEq

def Reader.seen (R : Uuid) (x : Reader) : Reader := if x.repository? = some R then x else .idle

def LockProc.seen (R : Uuid) (x : LockProc) : LockProc := if x.repository? = some R then x else .idle

/-- What a repository owns and what works for it. -/
structure View (ι : Type) where
  shared : Shared
  procs : ι → Proc
  readers : ι → Reader
  locks : LockTable
  lockProcs : ι → LockProc
  row : Option RepositoryRow
  grants : Table GrantRow.key

section Definitions

variable {ι : Type} (inst : Installation) (R : Uuid) (s : Service ι)

def Service.concerns : ServiceLabel ι → Bool
  | .advance _ => false
  | .call _ caller _ _ => Finds R (s.directory.repositoryId caller.owner caller.repository)
  | .admin _ request => request.repository = R
  | .repositoryAdd owner name newId =>
    Finds R ((s.directory.repositoryAdd owner name newId).map fun x => x.1)
  | .grant r _ _ _ => r = R
  | .transfer p _ => (s.transfers.procs p).repository? = some R
  | .read p => (s.readers p).repository? = some R
  | .lock p _ => (s.locking.procs p).repository? = some R
  | .stop .transfer p => (s.transfers.procs p).repository? = some R
  | .stop .read p => (s.readers p).repository? = some R
  | .stop .lock p => (s.locking.procs p).repository? = some R

def Service.input : ServiceLabel ι → Input ι
  | .call p caller call up => .call p caller call
    (if call.oversized then none
    else some (authenticate inst.H inst.mode s.directory s.cache up caller.header caller.owner
      caller.repository call.needed).1)
  | l => .other l

/-- The clock a step reads. -/
def Service.reading : ServiceLabel ι → Nat
  | .lock _ _ => s.locking.clock
  | _ => s.transfers.clock

def Service.view : View ι where
  shared := { s.transfers.toShared.only R with clock := 0 }
  procs p := (s.transfers.procs p).seen R
  readers p := (s.readers p).seen R
  locks := s.locking.locks.keep fun l => l.repositoryId = R
  lockProcs p := (s.locking.procs p).seen R
  row := s.directory.repositories.get? R
  grants := s.directory.grants.keep fun g => g.repositoryId = R

end Definitions

/-- What the repository sees of a step: input, clock and answer. -/
def observe {ι : Type} [DecidableEq ι] (inst : Installation) (R : Uuid) (s : Service ι)
    (l : ServiceLabel ι) (_ : Service ι) : Option ((Input ι × Nat) × Option Answer) :=
  if s.concerns R l then some ((s.input inst l, s.reading l), (serviceAct inst s l).bind (·.2))
  else none

variable {ι : Type} [DecidableEq ι] {inst : Installation} {R : Uuid} {s s' s₁ s₂ s₁' s₂' : Service ι}
  {l : ServiceLabel ι} {p : ι} {o o₁ o₂ : Option Answer}

/-- What is known of every state of a run. -/
structure Service.Sound (inst : Installation) (s : Service ι) : Prop where
  shared : s.transfers.toShared.Sound inst.H
  serves : ∀ p, (s.transfers.procs p).Serves s.transfers.toShared
  locks : ∀ x ∈ s.locking.locks, x.id ∈ s.locking.issued

theorem service_sound
    (h : (server inst.H inst.cut).Reachable s.transfers ∧ lockSystem.Reachable s.locking) :
    s.Sound inst := by
  obtain ⟨ht, hl⟩ := h
  obtain ⟨⟨-, hinv⟩, hserves⟩ := (serves_inv inst.H inst.cut).reachable ht
  obtain ⟨-, hsnap⟩ := (server_snapshots inst.H inst.cut).reachable ht
  obtain ⟨log, hlog⟩ := hl.record lockEvent
  have hlocks := lockSystem_inv.reachable hlog
  exact ⟨⟨hinv, hsnap⟩, hserves, fun x hx => hlocks.id_issued hx⟩

/-! ## The view after a move -/

theorem view_transfer (s : Service ι) (p : ι) (w : Shared) (q : Proc) :
    ({ s with transfers := s.transfers.move p w q } : Service ι).view R =
      { s.view R with
        shared := { w.only R with clock := 0 }
        procs := Function.update (s.view R).procs p (q.seen R) } := by
  have hprocs : (fun p' => (Function.update s.transfers.procs p q p').seen R) =
      Function.update (fun p' => (s.transfers.procs p').seen R) p (q.seen R) :=
    Function.comp_update (Proc.seen R) s.transfers.procs p q
  simp only [Service.view, State.move, hprocs]

theorem view_read (s : Service ι) (p : ι) (x : Reader) :
    ({ s with readers := Function.update s.readers p x } : Service ι).view R =
      { s.view R with readers := Function.update (s.view R).readers p (x.seen R) } := by
  have hreaders : (fun p' => (Function.update s.readers p x p').seen R) =
      Function.update (fun p' => (s.readers p').seen R) p (x.seen R) :=
    Function.comp_update (Reader.seen R) s.readers p x
  simp only [Service.view, hreaders]

theorem view_lock (s : Service ι) (p : ι) (v : LockShared) (x : LockProc) :
    ({ s with locking := s.locking.move p v x } : Service ι).view R =
      { s.view R with
        locks := (v.only R).locks
        lockProcs := Function.update (s.view R).lockProcs p (x.seen R) } := by
  have hprocs : (fun p' => (Function.update s.locking.procs p x p').seen R) =
      Function.update (fun p' => (s.locking.procs p').seen R) p (x.seen R) :=
    Function.comp_update (LockProc.seen R) s.locking.procs p x
  simp only [Service.view, LockState.move, hprocs]
  rfl

/-! ## Steps of others -/

theorem transfer_other {a : Action} (hs : s.Sound inst)
    (ha : a.repository? (s.transfers.procs p) ≠ some R)
    (h : s.transfer inst p a = some (s', o)) : s'.view R = s.view R := by
  simp only [Service.transfer, step, Option.map_map, Option.map_eq_some_iff, Function.comp_apply,
    Prod.mk.injEq] at h
  obtain ⟨⟨w, q⟩, hact, rfl, -⟩ := h
  obtain ⟨honly, hq⟩ := (procAct_turn hact).other hs.shared ha
  have hidle : (s.transfers.procs p).seen R = .idle := by
    apply Proc.seen_of_ne
    cases a with
    | kill => exact ha
    | next choice => exact ha
    | start request =>
      simp only [procAct] at hact
      split at hact
      · rename_i hfree
        rw [hfree.repository?]
        exact none_ne R
      · cases hact
  have hself : Function.update (s.view R).procs p (q.seen R) = (s.view R).procs := by
    rw [Proc.seen_of_ne hq, ← hidle]
    exact Function.update_eq_self p _
  rw [view_transfer, hself, honly]
  rfl

theorem read_other {x : Reader} (hp : (s.readers p).repository? ≠ some R) (hx : x.repository? ≠ some R) :
    (s.read p x).1.view R = s.view R := by
  have hidle : x.seen R = (s.readers p).seen R := (if_neg hx).trans (if_neg hp).symm
  have hself : Function.update (s.view R).readers p (x.seen R) = (s.view R).readers := by
    rw [hidle]
    exact Function.update_eq_self p _
  rw [Service.read, view_read, hself]

theorem move_other {v : LockShared} {x : LockProc}
    (hlocks : (v.only R).locks = (s.locking.toLockShared.only R).locks)
    (hp : (s.locking.procs p).repository? ≠ some R) (hx : x.repository? ≠ some R) :
    ({ s with locking := s.locking.move p v x } : Service ι).view R = s.view R := by
  have hidle : x.seen R = (s.locking.procs p).seen R := (if_neg hx).trans (if_neg hp).symm
  have hself : Function.update (s.view R).lockProcs p (x.seen R) = (s.view R).lockProcs := by
    rw [hidle]
    exact Function.update_eq_self p _
  rw [view_lock, hself, hlocks]
  rfl

theorem enter_other {admission : Admission} (hs : s.Sound inst) (hr : admission.repository ≠ R)
    (h : s.enter inst p admission = some (s', o)) : s'.view R = s.view R := by
  cases admission with
  | transfer request =>
    have ha : (Action.start request).repository? (s.transfers.procs p) ≠ some R :=
      fun hR => hr (Option.some.inj hR)
    exact transfer_other hs ha h
  | read r request =>
    simp only [Service.enter] at h
    split at h
    · rename_i hfree
      cases h
      exact read_other (by rw [hfree.repository?]; exact none_ne R) (readStart_repository hr)
    · cases h
  | lock r identity request =>
    simp only [Service.enter, Service.lock, lockStep] at h
    split at h
    · rename_i hfree
      cases h
      exact move_other rfl (by rw [hfree.repository?]; exact none_ne R) (lockStart_repository hr)
    · cases h

/-- An operator's command about another repository. -/
theorem repositoryAdd_other {dir dir' : Directory} {owner name : Text} {newId r : Uuid} (hr : r ≠ R)
    (h : dir.repositoryAdd owner name newId = .ok (r, dir')) :
    dir'.repositories.get? R = dir.repositories.get? R ∧ dir'.grants = dir.grants := by
  unfold Directory.repositoryAdd at h
  split at h
  · cases h
    exact ⟨rfl, rfl⟩
  · split at h
    · cases h
    · cases h
      exact ⟨Table.get?_insert_of_ne hr, rfl⟩

theorem addGrant_other {dir dir' : Directory} {r : Uuid} {subject : Text} {write admin : Bool} (hr : r ≠ R)
    (h : dir.addGrant r subject write admin = .ok dir') :
    dir'.repositories = dir.repositories ∧
      dir'.grants.keep (fun g => g.repositoryId = R) = dir.grants.keep fun g => g.repositoryId = R := by
  unfold Directory.addGrant at h
  split at h
  · cases h
  split at h
  · cases h
    exact ⟨rfl, Table.keep_insert_other (by simp [hr])⟩
  · cases h
    refine ⟨rfl, Table.keep_updateWhere_other (by exact fun _ => rfl) (by simp) ?_⟩
    intro g _ hg
    simp only [decide_eq_true_eq] at hg
    simp [hg, hr.symm]

/-- **A step that does not concern the repository does not show.** -/
theorem serviceAct_other (hs : s.Sound inst) (hc : s.concerns R l = false)
    (h : serviceAct inst s l = some (s', o)) : s'.view R = s.view R := by
  cases l with
  | advance δ =>
    simp only [serviceAct, step, lockStep, Option.bind_some, Option.map_some, Option.some.injEq,
      Prod.mk.injEq] at h
    obtain ⟨rfl, -⟩ := h
    rfl
  | call p caller call up =>
    simp only [serviceAct] at h
    split at h
    · cases h
      rfl
    · rename_i admission cache hhandle
      have hid := handle_repository (congrArg Prod.fst hhandle)
      have hr : admission.repository ≠ R := by
        intro hR
        rw [hR] at hid
        simp only [Service.concerns] at hc
        rw [show s.directory.repositoryId caller.owner caller.repository = .ok R from hid] at hc
        simp [Finds] at hc
      have hs' : ({ s with cache := cache } : Service ι).Sound inst := ⟨hs.shared, hs.serves, hs.locks⟩
      exact (enter_other hs' hr h).trans rfl
  | admin p request =>
    simp only [serviceAct] at h
    split at h
    · cases h
    split at h
    · cases h
      rfl
    · have ha : (Action.start request).repository? (s.transfers.procs p) ≠ some R := by
        simpa [Service.concerns, Action.repository?] using hc
      exact transfer_other hs ha h
  | repositoryAdd owner name newId =>
    simp only [serviceAct] at h
    split at h
    · cases h
      rfl
    · rename_i r dir hadd
      cases h
      have hr : r ≠ R := by
        simpa [Service.concerns, hadd, Except.map, Finds] using hc
      obtain ⟨hrow, hgrants⟩ := repositoryAdd_other hr hadd
      simp only [Service.view, hrow, hgrants]
  | grant r subject write admin =>
    simp only [serviceAct] at h
    split at h
    · cases h
      rfl
    · rename_i dir hadd
      cases h
      obtain ⟨hrepositories, hgrants⟩ := addGrant_other (by simpa [Service.concerns] using hc) hadd
      simp only [Service.view, hrepositories, hgrants]
  | transfer p choice =>
    have hp : (s.transfers.procs p).repository? ≠ some R := by simpa [Service.concerns] using hc
    exact transfer_other hs (by exact hp) h
  | read p =>
    simp only [serviceAct, Option.map_eq_some_iff] at h
    obtain ⟨x, hx, h⟩ := h
    have hp : (s.readers p).repository? ≠ some R := by simpa [Service.concerns] using hc
    cases h
    exact read_other hp (readNext_repository hx hp)
  | lock p newId =>
    simp only [serviceAct, Service.lock, lockStep, Option.map_map, Option.map_eq_some_iff,
      Function.comp_apply, Prod.mk.injEq] at h
    obtain ⟨⟨v, x⟩, hnext, rfl, -⟩ := h
    have hp : (s.locking.procs p).repository? ≠ some R := by simpa [Service.concerns] using hc
    obtain ⟨hlocks, hx⟩ := lockNext_other hp hnext
    exact move_other hlocks hp hx
  | stop kind p =>
    cases kind with
    | transfer =>
      have hp : (s.transfers.procs p).repository? ≠ some R := by simpa [Service.concerns] using hc
      exact transfer_other hs (by exact hp) h
    | read =>
      cases h
      exact read_other (by simpa [Service.concerns] using hc) (none_ne R)
    | lock =>
      cases h
      exact move_other rfl (by simpa [Service.concerns] using hc) (none_ne R)

/-! ## Steps of the repository -/

theorem Proc.reply_forget (q : Proc) : q.forget.reply = q.reply := by
  cases q <;> rfl

theorem Proc.seen_forget (q : Proc) : q.forget.seen R = q.seen R := by
  cases q <;> rfl

omit [DecidableEq ι] in
/-- The part of the shared state, with the clock. -/
theorem only_of_view (hview : s₁.view R = s₂.view R) (hclock : s₁.transfers.clock = s₂.transfers.clock) :
    s₁.transfers.toShared.only R = s₂.transfers.toShared.only R := by
  have hshared : s₁.transfers.toShared.like R
      { s₂.transfers.toShared.only R with clock := s₁.transfers.clock } := by
    have h : { s₁.transfers.toShared.only R with clock := 0 } =
        ({ s₂.transfers.toShared.only R with clock := 0 } : Shared) := congrArg View.shared hview
    obtain ⟨hdb, hstore, -, hlocks, -⟩ := Shared.mk.inj h
    exact ⟨hdb.symm, hstore.symm, rfl, hlocks.symm⟩
  exact hshared.only_eq ⟨rfl, rfl, hclock, rfl⟩

theorem transfer_same {a : Action} (hs₁ : s₁.Sound inst) (hs₂ : s₂.Sound inst)
    (hview : s₁.view R = s₂.view R) (hclock : s₁.transfers.clock = s₂.transfers.clock)
    (ha₁ : a.repository? (s₁.transfers.procs p) = some R)
    (ha₂ : a.repository? (s₂.transfers.procs p) = some R)
    (h₁ : s₁.transfer inst p a = some (s₁', o₁)) (h₂ : s₂.transfer inst p a = some (s₂', o₂)) :
    o₁ = o₂ ∧ s₁'.view R = s₂'.view R := by
  simp only [Service.transfer, step, Option.map_map, Option.map_eq_some_iff, Function.comp_apply,
    Prod.mk.injEq] at h₁ h₂
  obtain ⟨⟨w₁, q₁⟩, hact₁, rfl, rfl⟩ := h₁
  obtain ⟨⟨w₂, q₂⟩, hact₂, rfl, rfl⟩ := h₂
  -- both processes do what one on the common part does
  obtain ⟨w, hpart₁, hlike₁⟩ := procAct_only hs₁.shared (hs₁.serves p) ha₁ w₁ q₁ hact₁
  obtain ⟨w', hpart₂, hlike₂⟩ := procAct_only hs₂.shared (hs₂.serves p) ha₂ w₂ q₂ hact₂
  have hseen : (s₁.transfers.procs p).seen R = (s₂.transfers.procs p).seen R :=
    congrFun (congrArg View.procs hview) p
  rw [only_of_view hview hclock, hseen, hpart₂, Option.some.injEq, Prod.mk.injEq] at hpart₁
  obtain ⟨rfl, hforget⟩ := hpart₁
  have hreply : q₁.reply = q₂.reply := by rw [← Proc.reply_forget q₁, ← hforget, Proc.reply_forget]
  have hq : q₁.seen R = q₂.seen R := by rw [← Proc.seen_forget q₁, ← hforget, Proc.seen_forget]
  rw [move_procs_self, move_procs_self, view_transfer, view_transfer, hview, hlike₁.only_eq hlike₂, hq]
  exact ⟨hreply, rfl⟩

theorem read_same {x₁ x₂ : Reader} (hview : s₁.view R = s₂.view R) (hx : x₁ = x₂) :
    (s₁.read p x₁).2 = (s₂.read p x₂).2 ∧ (s₁.read p x₁).1.view R = (s₂.read p x₂).1.view R := by
  subst hx
  refine ⟨rfl, ?_⟩
  rw [Service.read, Service.read, view_read, view_read, hview]

omit [DecidableEq ι] in
/-- The part of the lock table, with the clock. -/
theorem locks_of_view (hview : s₁.view R = s₂.view R) (hclock : s₁.locking.clock = s₂.locking.clock) :
    s₁.locking.toLockShared.only R = s₂.locking.toLockShared.only R := by
  have hlocks : (s₁.locking.toLockShared.only R).locks = (s₂.locking.toLockShared.only R).locks :=
    congrArg View.locks hview
  simp only [LockShared.only] at hlocks ⊢
  rw [hlocks, hclock]

theorem lock_same {newId : Uuid} (hs₁ : s₁.Sound inst) (hs₂ : s₂.Sound inst)
    (hview : s₁.view R = s₂.view R) (hclock : s₁.locking.clock = s₂.locking.clock)
    (hp₁ : (s₁.locking.procs p).repository? = some R) (hp₂ : (s₂.locking.procs p).repository? = some R)
    (h₁ : s₁.lock p (.next p newId) = some (s₁', o₁)) (h₂ : s₂.lock p (.next p newId) = some (s₂', o₂)) :
    o₁ = o₂ ∧ s₁'.view R = s₂'.view R := by
  simp only [Service.lock, lockStep, Option.map_map, Option.map_eq_some_iff, Function.comp_apply,
    Prod.mk.injEq] at h₁ h₂
  obtain ⟨⟨v₁, x₁⟩, hnext₁, rfl, rfl⟩ := h₁
  obtain ⟨⟨v₂, x₂⟩, hnext₂, rfl, rfl⟩ := h₂
  obtain ⟨v, hpart₁, hlocks₁⟩ := lockNext_only hs₁.locks hp₁ hnext₁
  obtain ⟨v', hpart₂, hlocks₂⟩ := lockNext_only hs₂.locks hp₂ hnext₂
  have hseen : s₁.locking.procs p = s₂.locking.procs p := by
    have h : (s₁.locking.procs p).seen R = (s₂.locking.procs p).seen R :=
      congrFun (congrArg View.lockProcs hview) p
    rwa [LockProc.seen, LockProc.seen, if_pos hp₁, if_pos hp₂] at h
  rw [locks_of_view hview hclock, hseen, hpart₂, Option.some.injEq, Prod.mk.injEq] at hpart₁
  obtain ⟨rfl, rfl⟩ := hpart₁
  rw [view_lock, view_lock, hview, ← hlocks₁, ← hlocks₂]
  simp only [LockState.move, Function.update_self, and_self]

theorem enter_same {admission : Admission} (hs₁ : s₁.Sound inst) (hs₂ : s₂.Sound inst)
    (hview : s₁.view R = s₂.view R) (hclock : s₁.transfers.clock = s₂.transfers.clock)
    (hr : admission.repository = R) (h₁ : s₁.enter inst p admission = some (s₁', o₁))
    (h₂ : s₂.enter inst p admission = some (s₂', o₂)) : o₁ = o₂ ∧ s₁'.view R = s₂'.view R := by
  cases admission with
  | transfer request =>
    have ha : ∀ q : Proc, (Action.start request).repository? q = some R := fun _ => congrArg some hr
    exact transfer_same hs₁ hs₂ hview hclock (ha _) (ha _) h₁ h₂
  | read r request =>
    obtain rfl : r = R := hr
    have hdb : s₁.transfers.db.only r = s₂.transfers.db.only r :=
      congrArg Shared.db (only_of_view hview hclock)
    have hstart : readStart s₁.transfers.db r request = readStart s₂.transfers.db r request := by
      rw [← readStart_only, hdb, readStart_only]
    simp only [Service.enter] at h₁ h₂
    split at h₁
    · split at h₂
      · cases h₁
        cases h₂
        exact read_same hview hstart
      · cases h₂
    · cases h₁
  | lock r identity request =>
    simp only [Service.enter, Service.lock, lockStep] at h₁ h₂
    split at h₁
    · split at h₂
      · cases h₁
        cases h₂
        have hlocks : (s₁.locking.toLockShared.only R).locks = (s₂.locking.toLockShared.only R).locks :=
          congrArg View.locks hview
        rw [view_lock, view_lock, hview, hlocks]
        simp only [LockState.move, Function.update_self, and_self]
      · cases h₂
    · cases h₁

/-- After the command the repository has this row. -/
theorem repositoryAdd_row {dir dir' : Directory} {owner name : Text} {newId : Uuid}
    (h : dir.repositoryAdd owner name newId = .ok (R, dir')) :
    dir'.repositories.get? R = some ⟨R, owner, name⟩ ∧ dir'.grants = dir.grants := by
  unfold Directory.repositoryAdd at h
  split at h
  · rename_i x hx
    cases h
    obtain ⟨hmem, hp⟩ := Table.mem_of_find? hx
    simp only [decide_eq_true_eq] at hp
    obtain ⟨rfl, rfl⟩ := hp
    exact ⟨Table.get?_some.2 ⟨hmem, rfl⟩, rfl⟩
  · split at h
    · cases h
    · rename_i hfree
      cases h
      rw [not_not] at hfree
      exact ⟨Table.get?_some.2 ⟨Table.mem_insert.2 (.inr ⟨rfl, hfree⟩), rfl⟩, rfl⟩

/-- A grant on the repository depends on what belongs to it. -/
theorem addGrant_same {dir₁ dir₂ : Directory} (subject : Text) (write admin : Bool)
    (hrow : dir₁.repositories.get? R = dir₂.repositories.get? R)
    (hgrants : dir₁.grants.keep (fun g => g.repositoryId = R) =
      dir₂.grants.keep fun g => g.repositoryId = R) :
    (dir₁.addGrant R subject write admin).map (fun dir => dir.grants.keep fun g => g.repositoryId = R) =
      (dir₂.addGrant R subject write admin).map fun dir =>
        dir.grants.keep fun g => g.repositoryId = R := by
  have hkey : ∀ t : Table GrantRow.key, ∀ g ∈ t, g.key = (R, subject) →
      decide (g.repositoryId = R) = true := by
    intro t g _ hk
    exact decide_eq_true (Prod.mk.inj hk).1
  have hget : dir₁.grants.get? (R, subject) = dir₂.grants.get? (R, subject) := by
    rw [← Table.get?_keep (hkey dir₁.grants), hgrants, Table.get?_keep (hkey dir₂.grants)]
  unfold Directory.addGrant
  rw [hrow, hget]
  split
  · rfl
  split
  · simp only [Except.map]
    rw [Table.keep_insert (by simp) (by exact hkey _), Table.keep_insert (by simp) (by exact hkey _),
      hgrants]
  · simp only [Except.map]
    rw [Table.keep_updateWhere (by exact fun _ => rfl) (by simp),
      Table.keep_updateWhere (by exact fun _ => rfl) (by simp), hgrants]

theorem addGrant_repositories {dir dir' : Directory} {r : Uuid} {subject : Text} {write admin : Bool}
    (h : dir.addGrant r subject write admin = .ok dir') : dir'.repositories = dir.repositories := by
  unfold Directory.addGrant at h
  split at h
  · cases h
  split at h <;> cases h <;> rfl

/-- The command for the repository, and its answer. -/
theorem repositoryAdd_view {owner name : Text} {newId : Uuid}
    (hc : s.concerns R (.repositoryAdd owner name newId) = true)
    (h : serviceAct inst s (.repositoryAdd owner name newId) = some (s', o)) :
    o = some (.repository (.ok R)) ∧ s'.view R = { s.view R with row := some ⟨R, owner, name⟩ } := by
  simp only [serviceAct] at h
  split at h
  · rename_i e hadd
    simp [Service.concerns, hadd, Except.map, Finds] at hc
  · rename_i r dir hadd
    obtain rfl : r = R := by simpa [Service.concerns, hadd, Except.map, Finds] using hc
    cases h
    obtain ⟨hrow, hgrants⟩ := repositoryAdd_row hadd
    simp only [Service.view, hrow, hgrants, and_self]

omit [DecidableEq ι] in
theorem view_grant {dir : Directory} {r : Uuid} {subject : Text} {write admin : Bool}
    (h : s.directory.addGrant r subject write admin = .ok dir) :
    ({ s with directory := dir } : Service ι).view R =
      { s.view R with grants := dir.grants.keep fun g => g.repositoryId = R } := by
  simp only [Service.view, addGrant_repositories h]

theorem grant_same {r : Uuid} {subject : Text} {write admin : Bool} (hview : s₁.view r = s₂.view r)
    (h₁ : serviceAct inst s₁ (.grant r subject write admin) = some (s₁', o₁))
    (h₂ : serviceAct inst s₂ (.grant r subject write admin) = some (s₂', o₂)) :
    o₁ = o₂ ∧ s₁'.view r = s₂'.view r := by
  have hrow : s₁.directory.repositories.get? r = s₂.directory.repositories.get? r :=
    congrArg View.row hview
  have hgrants := addGrant_same subject write admin hrow (congrArg View.grants hview)
  simp only [serviceAct] at h₁ h₂
  cases hadd₁ : s₁.directory.addGrant r subject write admin with
  | error e =>
    cases hadd₂ : s₂.directory.addGrant r subject write admin with
    | error e' =>
      rw [hadd₁, hadd₂] at hgrants
      obtain rfl : e = e' := Except.error.inj hgrants
      simp only [hadd₁, hadd₂] at h₁ h₂
      cases h₁
      cases h₂
      exact ⟨rfl, hview⟩
    | ok dir₂ =>
      rw [hadd₁, hadd₂] at hgrants
      cases hgrants
  | ok dir₁ =>
    cases hadd₂ : s₂.directory.addGrant r subject write admin with
    | error e' =>
      rw [hadd₁, hadd₂] at hgrants
      cases hgrants
    | ok dir₂ =>
      rw [hadd₁, hadd₂] at hgrants
      have hkept : dir₁.grants.keep (fun g => g.repositoryId = r) =
          dir₂.grants.keep fun g => g.repositoryId = r := Except.ok.inj hgrants
      simp only [hadd₁, hadd₂] at h₁ h₂
      cases h₁
      cases h₂
      refine ⟨rfl, ?_⟩
      rw [view_grant hadd₁, view_grant hadd₂, hview, hkept]

omit [DecidableEq ι] in
theorem input_other {l l' : ServiceLabel ι} (h : s.input inst l = .other l') : l = l' := by
  cases l <;> cases h <;> rfl

/-- A call of the repository. -/
theorem call_same {caller : Caller} {call : Call} {up₁ up₂ : Upstream} (hs₁ : s₁.Sound inst)
    (hs₂ : s₂.Sound inst) (hview : s₁.view R = s₂.view R)
    (hc₁ : s₁.concerns R (.call p caller call up₁) = true)
    (hc₂ : s₂.concerns R (.call p caller call up₂) = true)
    (hinput : s₁.input inst (.call p caller call up₁) = s₂.input inst (.call p caller call up₂))
    (hclock : s₁.transfers.clock = s₂.transfers.clock)
    (h₁ : serviceAct inst s₁ (.call p caller call up₁) = some (s₁', o₁))
    (h₂ : serviceAct inst s₂ (.call p caller call up₂) = some (s₂', o₂)) :
    o₁ = o₂ ∧ s₁'.view R = s₂'.view R := by
  have hid₁ : caller.repositoryId s₁.directory = .ok R := finds_iff.1 hc₁
  have hid₂ : caller.repositoryId s₂.directory = .ok R := finds_iff.1 hc₂
  have hsame : (handle inst.H inst.mode s₁.directory up₁ caller call s₁.cache).1 =
      (handle inst.H inst.mode s₂.directory up₂ caller call s₂.cache).1 := by
    apply handle_same (hid₁.trans hid₂.symm)
    intro hsize
    simp only [Service.input, hsize, Input.call.injEq, true_and] at hinput
    exact Option.some.inj hinput
  simp only [serviceAct] at h₁ h₂
  rcases hhandle₁ : handle inst.H inst.mode s₁.directory up₁ caller call s₁.cache with ⟨x, cache₁⟩
  rcases hhandle₂ : handle inst.H inst.mode s₂.directory up₂ caller call s₂.cache with ⟨y, cache₂⟩
  rw [hhandle₁, hhandle₂] at hsame
  obtain rfl : x = y := hsame
  rw [hhandle₁] at h₁
  rw [hhandle₂] at h₂
  cases x with
  | error e =>
    cases h₁
    cases h₂
    exact ⟨rfl, hview⟩
  | ok admission =>
    have hid := handle_repository (congrArg Prod.fst hhandle₁)
    have hr : admission.repository = R := Except.ok.inj (hid.symm.trans hid₁)
    have hs₁' : ({ s₁ with cache := cache₁ } : Service ι).Sound inst := ⟨hs₁.shared, hs₁.serves, hs₁.locks⟩
    have hs₂' : ({ s₂ with cache := cache₂ } : Service ι).Sound inst := ⟨hs₂.shared, hs₂.serves, hs₂.locks⟩
    exact enter_same hs₁' hs₂' (by exact hview) hclock hr h₁ h₂

/-- **A step of the repository is determined by what it sees.** -/
theorem serviceAct_same {l₁ l₂ : ServiceLabel ι} (hs₁ : s₁.Sound inst) (hs₂ : s₂.Sound inst)
    (hview : s₁.view R = s₂.view R) (hc₁ : s₁.concerns R l₁ = true) (hc₂ : s₂.concerns R l₂ = true)
    (hinput : s₁.input inst l₁ = s₂.input inst l₂) (hreading : s₁.reading l₁ = s₂.reading l₂)
    (h₁ : serviceAct inst s₁ l₁ = some (s₁', o₁)) (h₂ : serviceAct inst s₂ l₂ = some (s₂', o₂)) :
    o₁ = o₂ ∧ s₁'.view R = s₂'.view R := by
  cases l₁ with
  | advance δ => cases hc₁
  | call p caller call up₁ =>
    cases l₂ with
    | call p' caller' call' up₂ =>
      obtain ⟨rfl, rfl, rfl, -⟩ := Input.call.inj hinput
      exact call_same hs₁ hs₂ hview hc₁ hc₂ hinput hreading h₁ h₂
    | _ => cases hinput
  | admin p request =>
    obtain rfl := input_other hinput.symm
    have hr : request.repository = R := of_decide_eq_true hc₁
    have horphaned : request.orphaned s₁.directory = request.orphaned s₂.directory := by
      cases request with
      | submitSnapshot r fingerprint oids newId =>
        obtain rfl : r = R := hr
        have hrow : s₁.directory.repositories.get? r = s₂.directory.repositories.get? r :=
          congrArg View.row hview
        simp only [Request.orphaned, hrow]
      | _ => rfl
    have ha : ∀ q : Proc, (Action.start request).repository? q = some R := fun _ => congrArg some hr
    simp only [serviceAct, horphaned] at h₁ h₂
    split at h₁
    · cases h₁
    rename_i hadmin
    rw [if_neg hadmin] at h₂
    split at h₁
    · rename_i horphan
      rw [if_pos horphan] at h₂
      cases h₁
      cases h₂
      exact ⟨rfl, hview⟩
    · rename_i horphan
      rw [if_neg horphan] at h₂
      exact transfer_same hs₁ hs₂ hview hreading (ha _) (ha _) h₁ h₂
  | repositoryAdd owner name newId =>
    obtain rfl := input_other hinput.symm
    obtain ⟨rfl, hview₁⟩ := repositoryAdd_view hc₁ h₁
    obtain ⟨rfl, hview₂⟩ := repositoryAdd_view hc₂ h₂
    exact ⟨rfl, by rw [hview₁, hview₂, hview]⟩
  | grant r subject write admin =>
    obtain rfl := input_other hinput.symm
    obtain rfl : r = R := of_decide_eq_true hc₁
    exact grant_same hview h₁ h₂
  | transfer p choice =>
    obtain rfl := input_other hinput.symm
    have hp₁ : (s₁.transfers.procs p).repository? = some R := of_decide_eq_true hc₁
    have hp₂ : (s₂.transfers.procs p).repository? = some R := of_decide_eq_true hc₂
    exact transfer_same hs₁ hs₂ hview hreading (by exact hp₁) (by exact hp₂) h₁ h₂
  | read p =>
    obtain rfl := input_other hinput.symm
    have hp₁ : (s₁.readers p).repository? = some R := of_decide_eq_true hc₁
    have hp₂ : (s₂.readers p).repository? = some R := of_decide_eq_true hc₂
    have hseen : s₁.readers p = s₂.readers p := by
      have h : (s₁.readers p).seen R = (s₂.readers p).seen R := congrFun (congrArg View.readers hview) p
      rwa [Reader.seen, Reader.seen, if_pos hp₁, if_pos hp₂] at h
    have honly := only_of_view hview hreading
    have hnext : readNext inst.H inst.site s₁.transfers.db s₁.transfers.store (s₁.readers p) =
        readNext inst.H inst.site s₂.transfers.db s₂.transfers.store (s₂.readers p) := by
      rw [← readNext_only (w := s₁.transfers.toShared) hp₁, honly, hseen, readNext_only hp₂]
    simp only [serviceAct, hnext, Option.map_eq_some_iff] at h₁ h₂
    obtain ⟨x₁, hx₁, h₁⟩ := h₁
    obtain ⟨x₂, hx₂, h₂⟩ := h₂
    cases h₁
    cases h₂
    exact read_same hview (Option.some.inj (hx₁.symm.trans hx₂))
  | lock p newId =>
    obtain rfl := input_other hinput.symm
    exact lock_same hs₁ hs₂ hview hreading (of_decide_eq_true hc₁) (of_decide_eq_true hc₂) h₁ h₂
  | stop kind p =>
    obtain rfl := input_other hinput.symm
    cases kind with
    | transfer =>
      have hp₁ : (s₁.transfers.procs p).repository? = some R := of_decide_eq_true hc₁
      have hp₂ : (s₂.transfers.procs p).repository? = some R := of_decide_eq_true hc₂
      exact transfer_same hs₁ hs₂ hview hreading (by exact hp₁) (by exact hp₂) h₁ h₂
    | read =>
      cases h₁
      cases h₂
      exact read_same (p := p) hview (Eq.refl Reader.stopped)
    | lock =>
      cases h₁
      cases h₂
      have hlocks : (s₁.locking.toLockShared.only R).locks = (s₂.locking.toLockShared.only R).locks :=
        congrArg View.locks hview
      rw [view_lock, view_lock, hview, hlocks]
      simp only [LockState.move, Function.update_self, and_self]

/-! ## Runs -/

/-- The repository's side of the service unwinds. -/
theorem service_unwinding (inst : Installation) (R : Uuid) :
    (service (ι := ι) inst).Unwinding (observe inst R) (Service.view R) fun s =>
      (server inst.H inst.cut).Reachable s.transfers ∧ lockSystem.Reachable s.locking where
  inv := service_parts inst
  silent s l s' hs hst hobs := by
    obtain ⟨o, hact⟩ := serviceStep_act hst
    have hc : s.concerns R l = false := by
      by_contra hc
      simp [observe, hc] at hobs
    exact serviceAct_other (service_sound hs) hc hact
  visible s₁ s₂ l₁ l₂ s₁' s₂' e o₁ o₂ hs₁ hs₂ hview hst₁ hst₂ hobs₁ hobs₂ := by
    obtain ⟨o, hact₁⟩ := serviceStep_act hst₁
    obtain ⟨o', hact₂⟩ := serviceStep_act hst₂
    simp only [observe, hact₁, hact₂, Option.bind_some, Option.ite_none_right_eq_some,
      Option.some.injEq, Prod.mk.injEq] at hobs₁ hobs₂
    obtain ⟨hc₁, rfl, rfl⟩ := hobs₁
    obtain ⟨hc₂, he, rfl⟩ := hobs₂
    obtain ⟨hinput, hreading⟩ := Prod.mk.inj he
    exact serviceAct_same (service_sound hs₁) (service_sound hs₂) hview hc₁ hc₂ hinput.symm
      hreading.symm hact₁ hact₂

/-- What belongs to a repository of the tables, the store and the directory. -/
structure Service.SameIn (R : Uuid) (s₁ s₂ : Service ι) : Prop where
  db : s₁.transfers.db.only R = s₂.transfers.db.only R
  store : ∀ c, s₁.transfers.store R c = s₂.transfers.store R c
  locks : s₁.locking.locks.keep (fun l => l.repositoryId = R) =
    s₂.locking.locks.keep fun l => l.repositoryId = R
  row : s₁.directory.repositories.get? R = s₂.directory.repositories.get? R
  grants : s₁.directory.grants.keep (fun g => g.repositoryId = R) =
    s₂.directory.grants.keep fun g => g.repositoryId = R

omit [DecidableEq ι] in
theorem sameIn_of_view (hview : s₁.view R = s₂.view R) : s₁.SameIn R s₂ where
  db := congrArg (fun v => v.shared.db) hview
  store c := by
    have hstore := congrFun (congrFun (congrArg (fun v => v.shared.store) hview) R) c
    simpa [Service.view, Shared.only] using hstore
  locks := congrArg View.locks hview
  row := congrArg View.row hview
  grants := congrArg View.grants hview

/-- **Repositories are isolated.** Take two runs of the service in which the steps that concern
`R` have the same inputs at the same clock readings, from directories that agree on `R`, and
whatever else: other repositories, their contents, their requests, commands and collections.
Then every answer for `R` is the same, and so is all that belongs to `R`. Chunks of different
repositories, or different chunks, have different keys in the store. -/
theorem repositories_isolated (inst : Installation) (R : Uuid) {clock₁ clock₂ : Nat}
    {dir₁ dir₂ : Directory} {cache₁ cache₂ : ForgejoAuthorizationCache}
    (hrow : dir₁.repositories.get? R = dir₂.repositories.get? R)
    {log₁ log₂ : List ((Input ι × Nat) × Option Answer)}
    (h₁ : LTS.Recorded (service inst) (observe inst R) (.initial clock₁ dir₁ cache₁) (s₁, log₁))
    (h₂ : LTS.Recorded (service inst) (observe inst R) (.initial clock₂ dir₂ cache₂) (s₂, log₂))
    (hinputs : log₁.map (·.1) = log₂.map (·.1)) :
    log₁ = log₂ ∧ s₁.SameIn R s₂ ∧
      ∀ r c r' c', chunkPath r c = chunkPath r' c' → r = r' ∧ c = c' := by
  have hview : (Service.initial clock₁ dir₁ cache₁ : Service ι).view R =
      (Service.initial clock₂ dir₂ cache₂).view R := by
    simp only [Service.view, Service.initial, hrow]
    rfl
  obtain ⟨hlog, hend⟩ := LTS.noninterference (service_unwinding inst R)
    ((service_parts inst).init _ ⟨_, _, _, rfl⟩) ((service_parts inst).init _ ⟨_, _, _, rfl⟩) hview _
    h₁ h₂ hinputs rfl
  exact ⟨hlog, sameIn_of_view hend, fun _ _ _ _ h => chunkPath_injective h⟩

namespace Sample

/-- A server whose development token is `a`. -/
def guarded : Installation := { installation with mode := .developmentToken (hashes.sha256 [0x61]) }

/-- A caller with that token. -/
def member (name : Text) : Caller := ⟨some "Bearer a".toList, "o".toList, name⟩

def uploadCall (u : Uuid) : Call :=
  .uploadBasic (hexDigits 64 (hashes.sha256 [0x61]).digest.toNat) none [0x61] u

/-- A client uploads an object and locks a path. -/
def visit (p : Fin 2) (name : Text) (u lock : Uuid) : List (ServiceLabel (Fin 2)) :=
  [.call p (member name) (uploadCall u) silence, .transfer p .auto, .transfer p .auto, .transfer p .auto,
    .call p (member name) (.createLock ['f']) silence, .lock p lock]

/-- The same in another repository first, and its collection afterwards. -/
def visitBoth : List (ServiceLabel (Fin 2)) :=
  .repositoryAdd "o".toList "m".toList 2 :: visit second "m".toList 5 6 ++ visit first "n".toList 7 8 ++
    [.admin second (.collectDue 2)]

def memberGranted : Option (Except ApiError Identity) :=
  some (.ok ⟨"Bearer a".toList, "development-user".toList, true⟩)

/-- What the first repository sees of either. -/
def visited : List (Input (Fin 2) × Nat) :=
  [(.call first (member "n".toList) (uploadCall 7) memberGranted, 0), (.other (.transfer first .auto), 0),
    (.other (.transfer first .auto), 0), (.other (.transfer first .auto), 0),
    (.call first (member "n".toList) (.createLock ['f']) memberGranted, 0), (.other (.lock first 8), 0)]

end Sample

open Sample in
/-- The chunk and the lock of another repository make no difference. -/
theorem repositories_isolated_visited :
    ∃ x₁ x₂ : Service (Fin 2) × List ((Input (Fin 2) × Nat) × Option Answer),
      x₁.2.map (·.1) = visited ∧ x₁.1.transfers.store 2 (hashes.blake3 [0x61]) = none ∧
      x₂.1.transfers.store 2 (hashes.blake3 [0x61]) = some [0x61] ∧
      x₂.1.locking.locks.rows.map (·.repositoryId) = [2, 1] ∧ x₁.2 = x₂.2 ∧ x₁.1.SameIn 1 x₂.1 := by
  obtain ⟨⟨s₁, log₁⟩, h₁, hlog₁, hnone⟩ :
      ∃ x : Service (Fin 2) × List ((Input (Fin 2) × Nat) × Option Answer),
        LTS.Recorded (service guarded) (observe guarded 1)
          (.initial 0 (oneRepository 1 "o".toList "n".toList) noCache) x ∧
        (x.2.map (·.1) = visited ∧ x.1.transfers.store 2 (hashes.blake3 [0x61]) = none) :=
    LTS.Recorded.exists_of_exec (visit first "n".toList 7 8) (by decide +kernel)
  obtain ⟨⟨s₂, log₂⟩, h₂, hlog₂, hstore, hlocks⟩ :
      ∃ x : Service (Fin 2) × List ((Input (Fin 2) × Nat) × Option Answer),
        LTS.Recorded (service guarded) (observe guarded 1)
          (.initial 0 (oneRepository 1 "o".toList "n".toList) noCache) x ∧
        (x.2.map (·.1) = visited ∧ x.1.transfers.store 2 (hashes.blake3 [0x61]) = some [0x61] ∧
          x.1.locking.locks.rows.map (·.repositoryId) = [2, 1]) :=
    LTS.Recorded.exists_of_exec visitBoth (by decide +kernel)
  obtain ⟨hlog, hsame, -⟩ := repositories_isolated guarded 1 rfl h₁ h₂ (hlog₁.trans hlog₂.symm)
  exact ⟨_, _, hlog₁, hnone, hstore, hlocks, hlog, hsame⟩

end GitLfsDelta
