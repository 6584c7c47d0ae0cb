import Mathlib.Data.List.Basic

/-!
# Row locks and pending writes

Transactions that read what is committed and their own writes, and lock the rows they write
until they end. Nothing of a transaction shows before it commits; what it then writes are
changes it made under locks, so a fact about a row that another transaction has locked
survives the commit.

* `RowLocks.Exclusive`: no two transactions hold incompatible locks on one row. Taking free
  locks and releasing locks keep it.
* `RowLocks.guarded`: a fact that only writes against the lock can break (`Guards`) holds as
  long as the lock does, whoever else commits.

The modes and their conflicts are PostgreSQL's, with `write` for a row that is being inserted
or deleted.
-/
namespace GitLfsDelta

inductive LockMode
  | keyShare | noKeyUpdate | update | write
  deriving DecidableEq, Repr

/-- Two transactions may hold these locks on one row. -/
def LockMode.compatible : LockMode → LockMode → Bool
  | .keyShare, .keyShare | .keyShare, .noKeyUpdate | .noKeyUpdate, .keyShare => true
  | _, _ => false

theorem LockMode.compatible_comm (a b : LockMode) : a.compatible b = b.compatible a := by
  cases a <;> cases b <;> rfl

/-- Nothing goes with a row that is locked for update. -/
theorem LockMode.update_alone (m : LockMode) : LockMode.update.compatible m = false := by
  cases m <;> rfl

theorem LockMode.compatible_write (m : LockMode) : m.compatible .write = false := by
  cases m <;> rfl

/-- A lock that `owner` holds on `resource`. -/
structure RowLock (ι ρ : Type) where
  owner : ι
  resource : ρ
  mode : LockMode
  deriving DecidableEq

abbrev RowLocks (ι ρ : Type) := List (RowLock ι ρ)

namespace RowLocks

variable {ι ρ : Type} {locks : RowLocks ι ρ} {p q : ι} {x : ρ} {m : LockMode}

def Holds (locks : RowLocks ι ρ) (p : ι) (x : ρ) (m : LockMode) : Prop := ⟨p, x, m⟩ ∈ locks

/-- No other transaction is in the way of the lock. -/
def Free (locks : RowLocks ι ρ) (p : ι) (x : ρ) (m : LockMode) : Prop :=
  ∀ l ∈ locks, l.owner ≠ p → l.resource = x → l.mode.compatible m = true

instance [DecidableEq ι] [DecidableEq ρ] : Decidable (locks.Free p x m) := by
  unfold Free; infer_instance

/-- Another transaction is inserting or deleting the row. -/
def Changing (locks : RowLocks ι ρ) (p : ι) (x : ρ) : Prop :=
  ∃ l ∈ locks, l.owner ≠ p ∧ l.resource = x ∧ l.mode = .write

instance [DecidableEq ι] [DecidableEq ρ] : Decidable (locks.Changing p x) := by
  unfold Changing; infer_instance

def take (locks : RowLocks ι ρ) (p : ι) (requests : List (ρ × LockMode)) : RowLocks ι ρ :=
  requests.map (fun y => ⟨p, y.1, y.2⟩) ++ locks

def release [DecidableEq ι] (locks : RowLocks ι ρ) (p : ι) : RowLocks ι ρ :=
  locks.filter fun l => l.owner ≠ p

theorem holds_take {requests : List (ρ × LockMode)} :
    (locks.take p requests).Holds q x m ↔ (q = p ∧ (x, m) ∈ requests) ∨ locks.Holds q x m := by
  simp only [Holds, take, List.mem_append, List.mem_map, RowLock.mk.injEq, Prod.exists]
  apply or_congr_left
  constructor
  · intro h
    obtain ⟨y, n, hy, rfl, rfl, rfl⟩ := h
    exact ⟨rfl, hy⟩
  · intro h
    exact ⟨x, m, h.2, h.1.symm, rfl, rfl⟩

theorem holds_release [DecidableEq ι] : (locks.release p).Holds q x m ↔ q ≠ p ∧ locks.Holds q x m := by
  simp [Holds, release, and_comm]

/-! ## Exclusion -/

/-- Locks of different transactions on one row go together. -/
def Exclusive (locks : RowLocks ι ρ) : Prop :=
  ∀ p q x m n, p ≠ q → locks.Holds p x m → locks.Holds q x n → m.compatible n = true

theorem Exclusive.nil : Exclusive ([] : RowLocks ι ρ) := fun _ _ _ _ _ _ h _ => absurd h List.not_mem_nil

theorem Exclusive.take (h : locks.Exclusive) {requests : List (ρ × LockMode)}
    (hfree : ∀ y ∈ requests, locks.Free p y.1 y.2) : (locks.take p requests).Exclusive := by
  intro a b x m n hab ha hb
  rw [holds_take] at ha hb
  rcases ha with ⟨rfl, ha⟩ | ha
  · rcases hb with ⟨rfl, -⟩ | hb
    · exact absurd rfl hab
    · rw [LockMode.compatible_comm]
      exact hfree _ ha _ hb hab.symm rfl
  · rcases hb with ⟨rfl, hb⟩ | hb
    · exact hfree _ hb _ ha hab rfl
    · exact h a b x m n hab ha hb

theorem Exclusive.release [DecidableEq ι] (h : locks.Exclusive) (p : ι) : (locks.release p).Exclusive := by
  intro a b x m n hab ha hb
  exact h a b x m n hab (holds_release.1 ha).2 (holds_release.1 hb).2

/-! ## Pending writes -/

variable {D W : Type} (apply : W → D → D) (demands : W → List (ρ × LockMode))

/-- What a transaction sees: the committed state with its own writes. -/
def applyAll (ws : List W) (d : D) : D := ws.foldl (fun d w => apply w d) d

/-- The transaction holds the locks its writes take. -/
def Covers (locks : RowLocks ι ρ) (p : ι) (ws : List W) : Prop :=
  ∀ w ∈ ws, ∀ y ∈ demands w, locks.Holds p y.1 y.2

/-- Only a write that takes a lock incompatible with this one can break the fact. -/
def Guards (x : ρ) (m : LockMode) (F : D → Prop) : Prop :=
  ∀ w d, (∀ n, (x, n) ∈ demands w → m.compatible n = true) → F d → F (apply w d)

variable {apply demands} {ws : List W} {d : D} {F : D → Prop}

@[simp] theorem applyAll_nil : applyAll apply [] d = d := rfl

@[simp] theorem applyAll_cons {w : W} : applyAll apply (w :: ws) d = applyAll apply ws (apply w d) := rfl

theorem applyAll_append {ws' : List W} :
    applyAll apply (ws ++ ws') d = applyAll apply ws' (applyAll apply ws d) := List.foldl_append

/-- What each write keeps, all of them keep. -/
theorem applyAll_keeps (hstep : ∀ w ∈ ws, ∀ d, F d → F (apply w d)) (h : F d) :
    F (applyAll apply ws d) := by
  induction ws generalizing d with
  | nil => exact h
  | cons w ws ih =>
    apply ih
    · intro w' hw'
      exact hstep w' (List.mem_cons_of_mem _ hw')
    · exact hstep w List.mem_cons_self d h

/-- **A locked fact survives the commits of others.** -/
theorem guarded (hex : locks.Exclusive) (hp : locks.Holds p x m) (hne : p ≠ q)
    (hcov : Covers demands locks q ws) (hG : Guards apply demands x m F) (h : F d) :
    F (applyAll apply ws d) := by
  apply applyAll_keeps _ h
  intro w hw d hd
  apply hG w d _ hd
  intro n hn
  exact hex p q x m n hne hp (hcov w hw (x, n) hn)

end RowLocks
end GitLfsDelta
