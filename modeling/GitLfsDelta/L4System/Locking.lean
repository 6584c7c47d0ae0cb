import GitLfsDelta.Core.LTS
import GitLfsDelta.L3Server.Locks

/-!
# Locking under concurrency

Any number of clients run `create_lock`, `list_locks`, `verify_locks` and `unlock` on one
`lfs_locks` table. A request starts with the identity `authenticate` granted it; a step is one
query, and queries of different requests interleave in any order. `unlock` is two: it reads
the owner, then deletes the row, and anything may happen in between.

`LockEvent` is a query that created or removed a lock, as its caller sees it. `Admissible`
says what a lock service may do next, given only what it has done so far: create under a new
id, on a path all of whose earlier locks are gone; remove what was created and not yet
removed, for its creator or a forcing administrator.

* `lockSystem_inv`: every log of the server is one of such steps, and the table holds what was
  created and not removed.
* `locks_exclusive`: the consequences for clients.

`Uuid::new_v4()` never returns a value twice, as in the transfer system.
-/
namespace GitLfsDelta

inductive LockRequest
  | create (path : Text)
  | list (query : LockListQuery)
  | verify (cursor : Option Uuid) (limit : Option Nat)
  | unlock (lockId : Uuid) (force : Bool)
  deriving DecidableEq, Repr

inductive LockResponse
  | created (lock : Lock)
  | page (locks : List Lock) (next : Option Uuid)
  | verified (ours theirs : List Lock) (next : Option Uuid)
  | unlocked (lock : Lock)
  | failed (e : ApiError)
  deriving DecidableEq, Repr

/-- Where a lock request is. -/
inductive LockProc
  | idle
  | creating (r : Uuid) (identity : Identity) (path : Text)
  | listing (r : Uuid) (query : LockListQuery)
  | verifying (r : Uuid) (identity : Identity) (cursor : Option Uuid) (limit : Option Nat)
  /-- `unlock` before it reads the owner, and before it deletes the row. -/
  | reading (r : Uuid) (identity : Identity) (lockId : Uuid) (force : Bool)
  | deleting (r : Uuid) (identity : Identity) (lockId : Uuid) (force : Bool)
  | done (response : LockResponse)
  | stopped
  deriving DecidableEq, Repr

def LockProc.Free : LockProc → Prop
  | .idle | .done _ | .stopped => True
  | _ => False

instance : DecidablePred LockProc.Free := fun q => by
  cases q <;> simp only [LockProc.Free] <;> infer_instance

structure LockShared where
  locks : LockTable
  issued : List Uuid
  clock : Nat

/-- A request after `authenticate` and the repository lookup. -/
def lockStart (r : Uuid) (identity : Identity) : LockRequest → LockProc
  | .create path =>
    match validateLockPath path with
    | .error e => .done (.failed e)
    | .ok () => .creating r identity path
  | .list query => .listing r query
  | .verify cursor limit => .verifying r identity cursor limit
  | .unlock lockId force => .reading r identity lockId force

/-- The next query of a request; `newId` is what `Uuid::new_v4()` returns if it is called. -/
def lockNext (w : LockShared) (newId : Uuid) : LockProc → Option (LockShared × LockProc)
  | .creating r identity path =>
    if w.issued.contains newId then none
    else
      let w := { w with issued := newId :: w.issued }
      match createLock w.locks w.clock r identity path newId with
      | .error e => some (w, .done (.failed e))
      | .ok (lock, locks) => some ({ w with locks := locks }, .done (.created lock))
  | .listing r query =>
    let (locks, next) := loadLocksPage w.locks r query
    some (w, .done (.page locks next))
  | .verifying r identity cursor limit =>
    let (ours, theirs, next) := verifyLocks w.locks r identity cursor limit
    some (w, .done (.verified ours theirs next))
  | .reading r identity lockId force =>
    match lockOwner w.locks r lockId with
    | .error e => some (w, .done (.failed e))
    | .ok owner =>
      if identity.MayUnlock force owner then some (w, .deleting r identity lockId force)
      else some (w, .done (.failed .unlockForbidden))
  | .deleting r _ lockId _ =>
    match deleteLock w.locks r lockId with
    | .error e => some (w, .done (.failed e))
    | .ok (lock, locks) => some ({ w with locks := locks }, .done (.unlocked lock))
  | _ => none

structure LockState (ι : Type) extends LockShared where
  procs : ι → LockProc

inductive LockLabel (ι : Type)
  | advance (δ : Nat)
  | kill (p : ι)
  | start (p : ι) (r : Uuid) (identity : Identity) (request : LockRequest)
  | next (p : ι) (newId : Uuid)
  deriving DecidableEq, Repr

variable {ι : Type} [DecidableEq ι]

def LockState.move (s : LockState ι) (p : ι) (w : LockShared) (q : LockProc) : LockState ι :=
  ⟨w, Function.update s.procs p q⟩

def lockStep (s : LockState ι) : LockLabel ι → Option (LockState ι)
  | .advance δ => some { s with clock := s.clock + δ }
  | .kill p => some (s.move p s.toLockShared .stopped)
  | .start p r identity request =>
    if (s.procs p).Free then some (s.move p s.toLockShared (lockStart r identity request)) else none
  | .next p newId => (lockNext s.toLockShared newId (s.procs p)).map fun (w, q) => s.move p w q

/-- Every interleaving, from an empty table. -/
def lockSystem : LTS (LockState ι) (LockLabel ι) :=
  LTS.ofFn (fun s => ∃ t, s = ⟨⟨.empty, [], t⟩, fun _ => .idle⟩) lockStep

/-! ## What a client sees -/

/-- A lock created, or removed, in repository `r` for a request of `identity`. -/
inductive LockEvent
  | created (r : Uuid) (identity : Identity) (lock : Lock)
  | unlocked (r : Uuid) (identity : Identity) (force : Bool) (lock : Lock)
  deriving DecidableEq, Repr

/-- The event behind a request's answer. -/
def LockProc.event : LockProc → LockProc → Option LockEvent
  | .creating r identity _, .done (.created lock) => some (.created r identity lock)
  | .deleting r identity _ force, .done (.unlocked lock) => some (.unlocked r identity force lock)
  | _, _ => none

def lockEvent (s : LockState ι) (l : LockLabel ι) (s' : LockState ι) : Option LockEvent :=
  match l with
  | .next p _ => (s.procs p).event (s'.procs p)
  | _ => none

/-- The event removes the lock. -/
def LockEvent.unlocks (id : Uuid) : LockEvent → Bool
  | .created .. => false
  | .unlocked _ _ _ lock => lock.id = id

/-- The lock has been removed. -/
def Unlocked (log : List LockEvent) (id : Uuid) : Prop := ∃ e ∈ log, e.unlocks id = true

/-- What may happen after `log`. -/
def Admissible (log : List LockEvent) : LockEvent → Prop
  | .created r _ lock =>
    (∀ r' identity' lock', .created r' identity' lock' ∈ log → lock'.id ≠ lock.id) ∧
      ∀ identity' lock', .created r identity' lock' ∈ log → lock'.path = lock.path →
        Unlocked log lock'.id
  | .unlocked r identity force lock =>
    ¬ Unlocked log lock.id ∧
      ∃ creator, .created r creator lock ∈ log ∧ identity.MayUnlock force creator.subject

variable {log : List LockEvent}

/-- An admitted log removes a lock at most once. -/
theorem unlocks_le_one (h : LTS.Admitted Admissible log) (id : Uuid) :
    log.countP (LockEvent.unlocks id) ≤ 1 := by
  induction h with
  | nil => simp
  | snoc _ hok ih =>
    rename_i log e _
    rw [List.countP_append, List.countP_singleton]
    split
    · rename_i he
      -- an unlock is admitted only while none has happened
      have hzero : log.countP (LockEvent.unlocks id) = 0 := by
        rw [List.countP_eq_zero]
        intro x hx hxu
        cases e with
        | created => cases he
        | unlocked r identity force lock =>
          have hid : lock.id = id := by simpa [LockEvent.unlocks] using he
          exact hok.1 ⟨x, hx, hid ▸ hxu⟩
      omega
    · omega

/-- A lock is removed after it was created. -/
theorem not_unlocked_before (h : LTS.Admitted Admissible log) {a b : List LockEvent} {r : Uuid}
    {identity : Identity} {lock : Lock} (hlog : log = a ++ .created r identity lock :: b) :
    ¬ Unlocked a lock.id := by
  intro hu
  obtain ⟨e, he, hid⟩ := hu
  obtain ⟨a₁, a₂, rfl⟩ := List.append_of_mem he
  cases e with
  | created => cases hid
  | unlocked r' identity' force lock' =>
    have hid : lock'.id = lock.id := by simpa [LockEvent.unlocks] using hid
    obtain ⟨-, creator, hc, -⟩ := h.entry (a := a₁) (by rw [hlog, List.append_assoc]; rfl)
    refine (h.entry hlog).1 r' creator lock' ?_ hid
    simp [hc]

/-- Between two locks of one path the first is removed exactly once. -/
theorem unlocks_between (h : LTS.Admitted Admissible log) {a b c : List LockEvent} {r : Uuid}
    {identity identity' : Identity} {lock lock' : Lock}
    (hlog : log = a ++ .created r identity lock :: (b ++ .created r identity' lock' :: c))
    (hpath : lock.path = lock'.path) : b.countP (LockEvent.unlocks lock.id) = 1 := by
  have hlog' : log = (a ++ .created r identity lock :: b) ++ .created r identity' lock' :: c := by
    rw [hlog]; simp
  obtain ⟨e, he, hid⟩ := (h.entry hlog').2 identity lock (by simp) hpath
  have hb : e ∈ b := by
    rcases List.mem_append.1 he with ha | hb
    · exact absurd ⟨e, ha, hid⟩ (not_unlocked_before h hlog)
    · rcases List.mem_cons.1 hb with rfl | hb
      · cases hid
      · exact hb
  have hpos : 0 < b.countP (LockEvent.unlocks lock.id) := List.countP_pos_iff.2 ⟨e, hb, hid⟩
  have hle := unlocks_le_one h lock.id
  rw [hlog', List.countP_append, List.countP_append, List.countP_cons] at hle
  omega

/-! ## Steps -/

variable {s s' : LockState ι} {l : LockLabel ι}

/-- A request that is about to delete a row. -/
def LockState.Deletes (s : LockState ι) (identity : Identity) (lockId : Uuid) (force : Bool) : Prop :=
  ∃ p r, s.procs p = .deleting r identity lockId force

theorem Deletes.of_move {p : ι} {w : LockShared} {q : LockProc} {identity : Identity}
    {lockId : Uuid} {force : Bool} (h : (s.move p w q).Deletes identity lockId force) :
    s.Deletes identity lockId force ∨ ∃ r, q = .deleting r identity lockId force := by
  obtain ⟨p', r, hp⟩ := h
  simp only [LockState.move, Function.update_apply] at hp
  split at hp
  · exact .inr ⟨r, hp⟩
  · exact .inl ⟨p', r, hp⟩

/-- A step creates a lock under a new id, removes one for a request that passed the owner
check, or leaves the table alone; only the owner check lets a request delete. -/
theorem lockStep_cases (h : lockStep s l = some s') :
    (s'.locks = s.locks ∧ s.issued ⊆ s'.issued ∧ lockEvent s l s' = none ∧
      ∀ identity lockId force, s'.Deletes identity lockId force →
        s.Deletes identity lockId force ∨
        ∃ x ∈ s.locks, x.id = lockId ∧ identity.MayUnlock force x.ownerSubject) ∨
    (∃ r identity path newId lock, newId ∉ s.issued ∧ s'.issued = newId :: s.issued ∧
      createLock s.locks s.clock r identity path newId = .ok (lock, s'.locks) ∧
      lockEvent s l s' = some (.created r identity lock) ∧
      ∀ identity lockId force, s'.Deletes identity lockId force → s.Deletes identity lockId force) ∨
    ∃ r identity lockId force lock, s.Deletes identity lockId force ∧ s'.issued = s.issued ∧
      deleteLock s.locks r lockId = .ok (lock, s'.locks) ∧
      lockEvent s l s' = some (.unlocked r identity force lock) ∧
      ∀ identity lockId force, s'.Deletes identity lockId force → s.Deletes identity lockId force := by
  cases l with
  | advance δ =>
    simp only [lockStep, Option.some.injEq] at h
    subst h
    exact .inl ⟨rfl, fun _ hx => hx, rfl, fun _ _ _ hd => .inl hd⟩
  | kill p =>
    simp only [lockStep, Option.some.injEq] at h
    subst h
    refine .inl ⟨rfl, fun _ hx => hx, rfl, fun _ _ _ hd => .inl ?_⟩
    rcases Deletes.of_move hd with hd | ⟨r, hq⟩
    · exact hd
    · cases hq
  | start p r identity request =>
    simp only [lockStep] at h
    split at h
    · cases h
      refine .inl ⟨rfl, fun _ hx => hx, rfl, fun _ _ _ hd => .inl ?_⟩
      rcases Deletes.of_move hd with hd | ⟨r, hq⟩
      · exact hd
      · -- no request starts at its delete
        cases request <;> simp only [lockStart] at hq
        · split at hq <;> cases hq
        all_goals cases hq
    · cases h
  | next p newId =>
    simp only [lockStep, Option.map_eq_some_iff] at h
    obtain ⟨⟨w, q⟩, hnext, rfl⟩ := h
    have hev : lockEvent s (.next p newId) (s.move p w q) = (s.procs p).event q := by
      simp only [lockEvent, LockState.move, Function.update_self]
    -- a reply is not a request about to delete
    have hdone : ∀ response, q = .done response → ∀ identity lockId force,
        (s.move p w q).Deletes identity lockId force → s.Deletes identity lockId force := by
      intro response hq identity lockId force hd
      rcases Deletes.of_move hd with hd | ⟨r, hq'⟩
      · exact hd
      · rw [hq] at hq'; cases hq'
    cases hp : s.procs p with
    | creating r identity path =>
      rw [hp] at hnext hev
      simp only [lockNext] at hnext
      split at hnext; · cases hnext
      rename_i hnew
      rw [List.contains_iff_mem] at hnew
      split at hnext
      · cases hnext
        exact .inl ⟨rfl, List.subset_cons_self _ _, hev, fun _ _ _ hd => .inl (hdone _ rfl _ _ _ hd)⟩
      · rename_i lock locks hc
        cases hnext
        exact .inr (.inl ⟨r, identity, path, newId, lock, hnew, rfl, hc, hev, hdone _ rfl⟩)
    | listing r query =>
      rw [hp] at hnext hev
      cases hnext
      exact .inl ⟨rfl, fun _ hx => hx, hev, fun _ _ _ hd => .inl (hdone _ rfl _ _ _ hd)⟩
    | verifying r identity cursor limit =>
      rw [hp] at hnext hev
      cases hnext
      exact .inl ⟨rfl, fun _ hx => hx, hev, fun _ _ _ hd => .inl (hdone _ rfl _ _ _ hd)⟩
    | reading r identity lockId force =>
      rw [hp] at hnext hev
      simp only [lockNext] at hnext
      split at hnext
      · cases hnext
        exact .inl ⟨rfl, fun _ hx => hx, hev, fun _ _ _ hd => .inl (hdone _ rfl _ _ _ hd)⟩
      rename_i owner howner
      split at hnext
      · rename_i hmay
        cases hnext
        refine .inl ⟨rfl, fun _ hx => hx, hev, fun _ _ _ hd => ?_⟩
        rcases Deletes.of_move hd with hd | ⟨r', hq⟩
        · exact .inl hd
        · cases hq
          obtain ⟨x, hx, hid, -, rfl⟩ := lockOwner_ok howner
          exact .inr ⟨x, hx, hid, hmay⟩
      · cases hnext
        exact .inl ⟨rfl, fun _ hx => hx, hev, fun _ _ _ hd => .inl (hdone _ rfl _ _ _ hd)⟩
    | deleting r identity lockId force =>
      rw [hp] at hnext hev
      simp only [lockNext] at hnext
      split at hnext
      · cases hnext
        exact .inl ⟨rfl, fun _ hx => hx, hev, fun _ _ _ hd => .inl (hdone _ rfl _ _ _ hd)⟩
      · rename_i lock locks hd
        cases hnext
        exact .inr (.inr ⟨r, identity, lockId, force, lock, ⟨p, r, hp⟩, rfl, hd, hev, hdone _ rfl⟩)
    | idle => rw [hp] at hnext; cases hnext
    | done => rw [hp] at hnext; cases hnext
    | stopped => rw [hp] at hnext; cases hnext

/-! ## The table and the log -/

/-- The log created the row, for the subject it names. -/
def CreatedBy (log : List LockEvent) (x : LockRow) : Prop :=
  ∃ creator, .created x.repositoryId creator x.lock ∈ log ∧ x.ownerSubject = creator.subject

structure LockInv (s : LockState ι) (log : List LockEvent) : Prop where
  admitted : LTS.Admitted Admissible log
  /-- The rows are those created and not removed. -/
  rows : ∀ x ∈ s.locks, CreatedBy log x ∧ ¬ Unlocked log x.id
  kept : ∀ r creator lock, .created r creator lock ∈ log → ¬ Unlocked log lock.id →
    ∃ x ∈ s.locks, x.repositoryId = r ∧ x.lock = lock
  /-- `UNIQUE (repository_id, path)`. -/
  exclusive : ∀ x ∈ s.locks, ∀ y ∈ s.locks, x.Holds y.repositoryId y.path → x = y
  issued : ∀ r creator lock, .created r creator lock ∈ log → lock.id ∈ s.issued
  /-- A request that passed the owner check may remove the row with its id. -/
  checked : ∀ identity lockId force, s.Deletes identity lockId force → lockId ∈ s.issued ∧
    ∀ x ∈ s.locks, x.id = lockId → identity.MayUnlock force x.ownerSubject

omit [DecidableEq ι] in
theorem LockInv.id_issued (h : LockInv s log) {x : LockRow} (hx : x ∈ s.locks) :
    x.id ∈ s.issued := by
  obtain ⟨⟨creator, hc, -⟩, -⟩ := h.rows x hx
  exact h.issued _ _ _ hc

theorem unlocked_append {e : LockEvent} {id : Uuid} :
    Unlocked (log ++ [e]) id ↔ Unlocked log id ∨ e.unlocks id = true := by
  simp [Unlocked, or_and_right, exists_or]

omit [DecidableEq ι] in
/-- The new lock is admissible, and its row is the one row added. -/
theorem LockInv.create (h : LockInv s log) {r newId : Uuid} {identity : Identity} {path : Text}
    {now : Nat} {lock : Lock} (hnew : newId ∉ s.issued) (hissued : s'.issued = newId :: s.issued)
    (hc : createLock s.locks now r identity path newId = .ok (lock, s'.locks))
    (hdel : ∀ i u f, s'.Deletes i u f → s.Deletes i u f) :
    LockInv s' (log ++ [.created r identity lock]) := by
  obtain ⟨rfl, ht, hfree, hpath⟩ := createLock_ok hc
  have hmem : ∀ x, x ∈ s'.locks ↔ x ∈ s.locks ∨ x = ⟨newId, r, path, identity.subject, now⟩ := by
    intro x
    rw [ht, Table.mem_insert]
    simp [hfree]
  have hfresh : ∀ r' i lock', LockEvent.created r' i lock' ∈ log → lock'.id ≠ newId := by
    intro r' i lock' hl hid
    exact hnew (hid ▸ h.issued _ _ _ hl)
  have hnone : ¬ Unlocked log newId := by
    intro hu
    obtain ⟨e, he, hid⟩ := hu
    obtain ⟨a, b, rfl⟩ := List.append_of_mem he
    cases e with
    | created => cases hid
    | unlocked r' i f lock' =>
      obtain ⟨-, creator, hcr, -⟩ := h.admitted.entry rfl
      exact hfresh r' creator lock' (by simp [hcr]) (by simpa [LockEvent.unlocks] using hid)
  refine ⟨h.admitted.snoc ⟨hfresh, ?_⟩, ?_, ?_, ?_, ?_, ?_⟩
  · -- an earlier lock of the path would still be in the table
    intro i lock' hl hp
    by_contra hu
    obtain ⟨x, hx, rfl, rfl⟩ := h.kept _ _ _ hl hu
    exact hpath x hx ⟨rfl, hp⟩
  · intro x hx
    simp only [unlocked_append, LockEvent.unlocks, Bool.false_eq_true, or_false]
    rcases (hmem x).1 hx with hx | rfl
    · obtain ⟨⟨creator, hcr, ho⟩, hu⟩ := h.rows x hx
      exact ⟨⟨creator, List.mem_append_left _ hcr, ho⟩, hu⟩
    · exact ⟨⟨identity, List.mem_append_right _ (List.mem_singleton.2 rfl), rfl⟩, hnone⟩
  · intro r' creator lock' hl hu
    simp only [unlocked_append, LockEvent.unlocks, Bool.false_eq_true, or_false] at hu
    rcases List.mem_append.1 hl with hl | hl
    · obtain ⟨x, hx, hr, hxl⟩ := h.kept _ _ _ hl hu
      exact ⟨x, (hmem x).2 (.inl hx), hr, hxl⟩
    · cases List.mem_singleton.1 hl
      exact ⟨_, (hmem _).2 (.inr rfl), rfl, rfl⟩
  · intro x hx y hy hh
    rcases (hmem x).1 hx with hx | rfl <;> rcases (hmem y).1 hy with hy | rfl
    · exact h.exclusive x hx y hy hh
    · exact absurd hh (hpath x hx)
    · exact absurd ⟨hh.1.symm, hh.2.symm⟩ (hpath y hy)
    · rfl
  · intro r' creator lock' hl
    rw [hissued]
    rcases List.mem_append.1 hl with hl | hl
    · exact List.mem_cons_of_mem _ (h.issued _ _ _ hl)
    · cases List.mem_singleton.1 hl
      exact List.mem_cons_self
  · intro i u f hd
    obtain ⟨hu, hmay⟩ := h.checked i u f (hdel i u f hd)
    refine ⟨hissued ▸ List.mem_cons_of_mem _ hu, fun x hx hid => ?_⟩
    rcases (hmem x).1 hx with hx | rfl
    · exact hmay x hx hid
    · -- the request's id was issued before
      subst hid
      exact absurd hu hnew

omit [DecidableEq ι] in
/-- The removal is admissible, and takes the one row with the id. -/
theorem LockInv.unlock (h : LockInv s log) {r lockId : Uuid} {identity : Identity} {force : Bool}
    {lock : Lock} (hcheck : s.Deletes identity lockId force) (hissued : s'.issued = s.issued)
    (hd : deleteLock s.locks r lockId = .ok (lock, s'.locks))
    (hdel : ∀ i u f, s'.Deletes i u f → s.Deletes i u f) :
    LockInv s' (log ++ [.unlocked r identity force lock]) := by
  obtain ⟨x, hx, rfl, rfl, rfl, hmem⟩ := deleteLock_ok hd
  obtain ⟨⟨creator, hcr, howner⟩, hu⟩ := h.rows x hx
  have hmay := (h.checked identity x.id force hcheck).2 x hx rfl
  rw [howner] at hmay
  have hunlocks : ∀ id, Unlocked (log ++ [.unlocked x.repositoryId identity force x.lock]) id ↔
      Unlocked log id ∨ x.id = id := by
    intro id
    rw [unlocked_append]
    exact or_congr_right decide_eq_true_iff
  refine ⟨h.admitted.snoc ⟨hu, creator, hcr, hmay⟩, ?_, ?_, ?_, ?_, ?_⟩
  · intro y hy
    obtain ⟨hy, hne⟩ := (hmem y).1 hy
    obtain ⟨⟨creator', hcr', ho'⟩, hu'⟩ := h.rows y hy
    refine ⟨⟨creator', List.mem_append_left _ hcr', ho'⟩, ?_⟩
    rw [hunlocks]
    rintro (hu'' | hid)
    · exact hu' hu''
    · exact hne hid.symm
  · intro r' creator' lock' hl hu'
    rw [hunlocks, not_or] at hu'
    rcases List.mem_append.1 hl with hl | hl
    · obtain ⟨y, hy, hr, rfl⟩ := h.kept _ _ _ hl hu'.1
      exact ⟨y, (hmem y).2 ⟨hy, fun e => hu'.2 e.symm⟩, hr, rfl⟩
    · cases List.mem_singleton.1 hl
  · intro y hy z hz hh
    exact h.exclusive y ((hmem y).1 hy).1 z ((hmem z).1 hz).1 hh
  · intro r' creator' lock' hl
    rw [hissued]
    rcases List.mem_append.1 hl with hl | hl
    · exact h.issued _ _ _ hl
    · cases List.mem_singleton.1 hl
  · intro i u f hdl
    obtain ⟨hui, hm⟩ := h.checked i u f (hdel i u f hdl)
    exact ⟨hissued ▸ hui, fun y hy hid => hm y ((hmem y).1 hy).1 hid⟩

omit [DecidableEq ι] in
/-- Nothing happens to the table; a request may have passed the owner check. -/
theorem LockInv.silent (h : LockInv s log) (hlocks : s'.locks = s.locks)
    (hissued : s.issued ⊆ s'.issued)
    (hdel : ∀ i u f, s'.Deletes i u f → s.Deletes i u f ∨
      ∃ x ∈ s.locks, x.id = u ∧ i.MayUnlock f x.ownerSubject) : LockInv s' log := by
  refine ⟨h.admitted, hlocks ▸ h.rows, hlocks ▸ h.kept, hlocks ▸ h.exclusive,
    fun _ _ _ hl => hissued (h.issued _ _ _ hl), fun i u f hd => ?_⟩
  rw [hlocks]
  rcases hdel i u f hd with hd | ⟨x, hx, rfl, hmay⟩
  · obtain ⟨hu, hm⟩ := h.checked i u f hd
    exact ⟨hissued hu, hm⟩
  · refine ⟨hissued (h.id_issued hx), fun y hy hid => ?_⟩
    rw [Table.eq_of_key hy hx hid]
    exact hmay

/-- **The lock table and its log agree along every run.** -/
theorem lockSystem_inv :
    ((lockSystem : LTS (LockState ι) (LockLabel ι)).record lockEvent).Inductive
      fun x => LockInv x.1 x.2 where
  init x hx := by
    obtain ⟨⟨t, hs⟩, hlog⟩ := hx
    rw [hs, hlog]
    refine ⟨.nil, ?_, ?_, ?_, ?_, ?_⟩
    · exact fun y hy => absurd hy (Table.not_mem_empty y)
    · exact fun _ _ _ hl => absurd hl List.not_mem_nil
    · exact fun y hy => absurd hy (Table.not_mem_empty y)
    · exact fun _ _ _ hl => absurd hl List.not_mem_nil
    · exact fun _ _ _ hd => absurd hd (by simp [LockState.Deletes])
  step x l x' hinv hst := by
    obtain ⟨hst, hlog⟩ := LTS.record_step.1 hst
    rw [hlog]
    rcases lockStep_cases hst with ⟨hlocks, hissued, hev, hdel⟩ |
      ⟨r, identity, path, newId, lock, hnew, hissued, hc, hev, hdel⟩ |
      ⟨r, identity, lockId, force, lock, hcheck, hissued, hd, hev, hdel⟩ <;> rw [hev]
    · simpa using hinv.silent hlocks hissued hdel
    · exact hinv.create hnew hissued hc hdel
    · exact hinv.unlock hcheck hissued hd hdel

/-- **Locks are exclusive, and only their owner or a forcing administrator removes them.** In
every reachable state, with the log of what was created and removed: a path has at most one
lock; between two creations of a path the first lock is removed exactly once; a lock is removed
at most once; and whoever removed it created it, or is an administrator who set `force`. -/
theorem locks_exclusive (s : LockState ι) (log : List LockEvent)
    (hr : (lockSystem.record lockEvent).Reachable (s, log)) :
    (∀ x ∈ s.locks, ∀ y ∈ s.locks, x.repositoryId = y.repositoryId → x.path = y.path → x = y) ∧
    (∀ a b c r identity identity' lock lock', lock.path = lock'.path →
      log = a ++ .created r identity lock :: (b ++ .created r identity' lock' :: c) →
      b.countP (LockEvent.unlocks lock.id) = 1) ∧
    (∀ id, log.countP (LockEvent.unlocks id) ≤ 1) ∧
    ∀ a b r identity force lock, log = a ++ .unlocked r identity force lock :: b →
      ∃ creator, .created r creator lock ∈ a ∧
        (creator.subject = identity.subject ∨ (force = true ∧ identity.administrator = true)) := by
  have hinv := lockSystem_inv.reachable hr
  refine ⟨fun x hx y hy hrep hp => hinv.exclusive x hx y hy ⟨hrep, hp⟩, ?_,
    unlocks_le_one hinv.admitted, ?_⟩
  · intro a b c r identity identity' lock lock' hpath hlog
    exact unlocks_between hinv.admitted hlog hpath
  · intro a b r identity force lock hlog
    exact (hinv.admitted.entry hlog).2

namespace Sample

def alice : Identity := ⟨[], "alice".toList, false⟩

def bob : Identity := ⟨[], "bob".toList, true⟩

/-- Alice locks `a`; Bob, refused without `force`, removes her lock with it and takes the
path. -/
def lockRun : List (LockLabel Unit) :=
  [.start () 1 alice (.create ['a']), .next () 7, .start () 1 bob (.unlock 7 false), .next () 0,
    .start () 1 bob (.unlock 7 true), .next () 0, .next () 0, .start () 1 bob (.create ['a']), .next () 8]

def lockLog : List LockEvent :=
  [.created 1 alice ⟨7, ['a'], 0, alice.subject⟩,
    .unlocked 1 bob true ⟨7, ['a'], 0, alice.subject⟩,
    .created 1 bob ⟨8, ['a'], 0, bob.subject⟩]

end Sample

open Sample in
/-- Bob's lock follows Alice's on one path: hers was removed once, by an administrator. -/
theorem locks_exclusive_relocked : ∃ s : LockState Unit,
    (lockSystem.record lockEvent).Reachable (s, lockLog) ∧
      [LockEvent.unlocked 1 bob true ⟨7, ['a'], 0, alice.subject⟩].countP
        (LockEvent.unlocks 7) = 1 := by
  obtain ⟨⟨s, log⟩, hs, rfl⟩ : ∃ x : LockState Unit × List LockEvent,
      (lockSystem.record lockEvent).Reachable x ∧ x.2 = lockLog :=
    LTS.exists_recorded_of_exec lockRun ⟨0, rfl⟩ (by decide +kernel)
  exact ⟨s, hs, (locks_exclusive s lockLog hs).2.1 [] _ [] 1 alice bob ⟨7, ['a'], 0, alice.subject⟩
    ⟨8, ['a'], 0, bob.subject⟩ rfl rfl⟩

end GitLfsDelta
