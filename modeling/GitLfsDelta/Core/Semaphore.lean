import Mathlib.Data.List.Nodup
import Mathlib.Data.List.TakeWhile

/-!
# Fair semaphores

A semaphore with a fixed number of permits, which are given to the tasks that ask in the order in
which they ask. A task holds at most one permit, and gives it back, or its place in the queue up,
by leaving. A semaphore with a queue has no permit left, and more tasks than permits never hold one.

* `mem_acquire`, `mem_leave`: who is there.
* `ahead_acquire`, `ahead_leave`: while a task waits, no task is let past it.
-/
namespace GitLfsDelta

structure Semaphore (τ : Type) where
  permits : Nat
  holders : List τ
  queue : List τ
  nodup : (holders ++ queue).Nodup
  within : holders.length ≤ permits
  busy : queue ≠ [] → holders.length = permits

namespace Semaphore

variable {τ : Type}

def new (permits : Nat) : Semaphore τ := ⟨permits, [], [], by simp, by simp, by simp⟩

/-- Who holds a permit or waits for one. -/
def tasks (s : Semaphore τ) : List τ := s.holders ++ s.queue

/-- Ask for a permit: there is one, or the task has to wait. -/
def acquire (s : Semaphore τ) (t : τ) (h : t ∉ s.tasks) : Semaphore τ :=
  if hfree : s.holders.length < s.permits then
    { s with
      holders := t :: s.holders
      nodup := List.nodup_cons.2 ⟨h, s.nodup⟩
      within := hfree
      busy := fun hne => absurd (s.busy hne) (by omega) }
  else
    { s with
      queue := s.queue ++ [t]
      nodup := by
        rw [← List.append_assoc]
        exact s.nodup.append (List.nodup_singleton t) (by simpa [tasks] using h)
      busy := fun _ => by have := s.within; omega }

variable {s : Semaphore τ} {t u : τ} {h : u ∉ s.tasks}

theorem disjoint (ht : t ∈ s.holders) : t ∉ s.queue := fun hq =>
  List.disjoint_of_nodup_append s.nodup ht hq

theorem nodup_holders (s : Semaphore τ) : s.holders.Nodup := s.nodup.of_append_left

theorem mem_tasks : t ∈ s.tasks ↔ t ∈ s.holders ∨ t ∈ s.queue := List.mem_append

@[simp] theorem permits_acquire : (s.acquire u h).permits = s.permits := by
  unfold acquire
  split <;> rfl

theorem mem_acquire : t ∈ (s.acquire u h).tasks ↔ t = u ∨ t ∈ s.tasks := by
  unfold acquire
  split
  · simp [tasks]
  · simp only [tasks, List.mem_append, List.mem_singleton]
    tauto

theorem holders_acquire (ht : t ∈ s.holders) : t ∈ (s.acquire u h).holders := by
  unfold acquire
  split
  · exact List.mem_cons_of_mem _ ht
  · exact ht

theorem queue_acquire (ht : t ∈ (s.acquire u h).queue) : t = u ∨ t ∈ s.queue := by
  unfold acquire at ht
  split at ht
  · exact .inr ht
  · simpa [or_comm] using ht

variable [DecidableEq τ]

/-- Give the permit back, to the next in the queue, or give the place in the queue up. -/
def leave (s : Semaphore τ) (t : τ) : Semaphore τ :=
  if h : t ∈ s.holders then
    { s with
      holders := s.queue.take 1 ++ s.holders.erase t
      queue := s.queue.drop 1
      nodup := by
        have hp : (s.queue.take 1 ++ s.holders.erase t ++ s.queue.drop 1).Perm
            (s.holders.erase t ++ s.queue) := by
          rw [List.append_assoc]
          refine List.perm_append_comm.trans ?_
          rw [List.append_assoc]
          refine List.Perm.append_left _ ?_
          exact List.perm_append_comm.trans (by rw [List.take_append_drop])
        exact hp.nodup_iff.2 (s.nodup.sublist (List.Sublist.append_right List.erase_sublist _))
      within := by
        have := List.length_erase_of_mem h
        have := List.length_pos_of_mem h
        have := s.within
        simp only [List.length_append, List.length_take]
        omega
      busy := fun hne => by
        have hlen : 1 < s.queue.length := by
          rw [← List.length_pos_iff, List.length_drop] at hne
          omega
        have := s.busy (List.length_pos_iff.1 (by omega))
        have := List.length_erase_of_mem h
        have := List.length_pos_of_mem h
        simp only [List.length_append, List.length_take]
        omega }
  else
    { s with
      queue := s.queue.erase t
      nodup := s.nodup.sublist (List.Sublist.append_left List.erase_sublist _)
      busy := fun hne => s.busy fun hnil => hne (by rw [hnil]; rfl) }

@[simp] theorem permits_leave : (s.leave u).permits = s.permits := by
  unfold leave
  split <;> rfl

theorem mem_leave : t ∈ (s.leave u).tasks ↔ t ≠ u ∧ t ∈ s.tasks := by
  unfold leave
  split
  · rename_i hu
    have hq : u ∉ s.queue := disjoint hu
    have hsplit : t ∈ s.queue ↔ t ∈ s.queue.take 1 ∨ t ∈ s.queue.drop 1 := by
      rw [← List.mem_append, List.take_append_drop]
    simp only [tasks, List.mem_append, s.nodup_holders.mem_erase_iff]
    constructor
    · rintro ((ht | ⟨hne, ht⟩) | ht)
      · have := hsplit.2 (.inl ht)
        exact ⟨by rintro rfl; exact hq this, .inr this⟩
      · exact ⟨hne, .inl ht⟩
      · have := hsplit.2 (.inr ht)
        exact ⟨by rintro rfl; exact hq this, .inr this⟩
    · rintro ⟨hne, ht | ht⟩
      · exact .inl (.inr ⟨hne, ht⟩)
      · rcases hsplit.1 ht with ht | ht
        · exact .inl (.inl ht)
        · exact .inr ht
  · rename_i hu
    simp only [tasks, List.mem_append, s.nodup.of_append_right.mem_erase_iff]
    constructor
    · rintro (ht | ⟨hne, ht⟩)
      · exact ⟨by rintro rfl; exact hu ht, .inl ht⟩
      · exact ⟨hne, .inr ht⟩
    · rintro ⟨hne, ht | ht⟩
      · exact .inl ht
      · exact .inr ⟨hne, ht⟩

theorem holders_leave (ht : t ∈ s.holders) (hne : t ≠ u) : t ∈ (s.leave u).holders := by
  unfold leave
  split
  · exact List.mem_append_right _ ((List.mem_erase_of_ne hne).2 ht)
  · exact ht

theorem length_leave (hu : u ∈ s.holders) :
    (s.leave u).tasks.length + 1 = s.tasks.length ∧ (s.leave u).queue.length = s.queue.length - 1 := by
  have := List.length_erase_of_mem hu
  have := List.length_pos_of_mem hu
  unfold leave
  rw [dif_pos hu]
  constructor
  · simp only [tasks, List.length_append, List.length_take, List.length_drop]
    omega
  · simp

theorem queue_leave (ht : t ∈ (s.leave u).queue) : t ∈ s.queue := by
  unfold leave at ht
  split at ht
  · exact List.mem_of_mem_drop ht
  · exact List.mem_of_mem_erase ht

/-- Who waits before `t`. -/
def ahead (s : Semaphore τ) (t : τ) : List τ := s.queue.takeWhile (· ≠ t)

theorem takeWhile_erase {l : List τ} (hne : u ≠ t) :
    (l.erase u).takeWhile (· ≠ t) ⊆ l.takeWhile (· ≠ t) := by
  induction l with
  | nil => simp
  | cons a l ih =>
    by_cases hau : a = u
    · subst hau
      simp [hne]
    · rw [List.erase_cons_tail (by simpa using hau)]
      by_cases hat : a = t
      · simp [hat]
      · simpa [hat] using List.cons_subset_cons a ih

/-- A task that asks comes after those that wait. -/
theorem ahead_acquire (ht : t ∈ s.queue) :
    (s.acquire u h).holders = s.holders ∧ (s.acquire u h).ahead t = s.ahead t := by
  have hbusy := s.busy (List.ne_nil_of_mem ht)
  unfold acquire
  rw [dif_neg (by omega)]
  refine ⟨rfl, ?_⟩
  simp only [ahead]
  rw [List.takeWhile_append, if_neg]
  intro hlen
  have hall := (List.takeWhile_prefix (p := (· ≠ t)) (l := s.queue)).eq_of_length hlen
  rw [← hall] at ht
  simpa using List.mem_takeWhile_imp ht

/-- When a task leaves, the permits are with those that had one and those that were ahead. -/
theorem ahead_leave (ht : t ∈ (s.leave u).queue) :
    (s.leave u).ahead t ⊆ s.ahead t ∧ ∀ v ∈ (s.leave u).holders, v ∈ s.holders ∨ v ∈ s.ahead t := by
  unfold leave at ht ⊢
  split
  · rename_i hu
    rw [dif_pos hu] at ht
    simp only [ahead] at ht ⊢
    cases hq : s.queue with
    | nil => simp [hq] at ht
    | cons a rest =>
      have hat : a ≠ t := by
        have hnodup := s.nodup.of_append_right
        rw [hq] at hnodup
        rintro rfl
        simp [hq] at ht
        exact (List.nodup_cons.1 hnodup).1 ht
      simp only [List.drop_one, List.tail_cons, List.take_one, List.head?_cons, Option.toList_some,
        List.mem_append, List.mem_singleton]
      rw [List.takeWhile_cons_of_pos (by simpa using hat)]
      refine ⟨List.subset_cons_self _ _, ?_⟩
      rintro v (rfl | hv)
      · exact .inr List.mem_cons_self
      · exact .inl (List.mem_of_mem_erase hv)
  · rename_i hu
    rw [dif_neg hu] at ht
    have hne : u ≠ t := by
      rintro rfl
      exact s.nodup.of_append_right.not_mem_erase ht
    exact ⟨takeWhile_erase hne, fun v hv => .inl hv⟩

end Semaphore
end GitLfsDelta
