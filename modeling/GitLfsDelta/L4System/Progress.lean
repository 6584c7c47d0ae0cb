import GitLfsDelta.L4System.Collectors
import GitLfsDelta.L4System.Turns

/-!
# Requests finish

A step waits for nothing but a chunk row that an open drain transaction holds, and such a
transaction waits for nothing: it holds one row at a time, and its two remaining steps are always
enabled. Every other transaction is one step in this system, so it neither waits nor is waited for.

* `procNext_ready`: where no other transaction holds a row, a process at work has a step.
* `Turn.left`: a step of a request shortens what is left of it, whatever it finds; only
  `collect_due` goes on as long as tombstones are due.
* `requests_finish`: every request and run can be brought to its answer by its own steps and those
  of the drains that hold rows when it begins to wait, and does not take more than `Proc.left` steps
  of its own.
-/
namespace GitLfsDelta

/-- How many steps of its own a process needs at most; open for a run that has not listed the
queue yet. -/
def Proc.left : Proc → Option Nat
  | .idle | .done _ | .stopped => some 0
  | .probing _ _ todo _ _ => some (todo.length + 1)
  | .registering .. => some 2
  | .storing .. => some 1
  | .basic _ _ _ todo => some (2 * todo.length + 1)
  | .basicStoring _ _ _ _ todo => some (2 * todo.length + 2)
  | .verifying _ _ _ _ todo _ => some (todo.length + 1)
  | .staging .. => some 1
  | .collecting .. | .listing .. => none
  | .draining _ todo _ => some (3 * todo.length + 1)
  | .deleting _ _ todo _ => some (3 * todo.length + 3)
  | .deleted _ _ todo _ => some (3 * todo.length + 2)

section Turns

variable {H : Hashes} {cut : Cutter} {now : Nat} {w w' : Shared} {q q' : Proc} {choice : Choice}

theorem Proc.Free.left (h : q.Free) : q.left = some 0 := by
  cases q <;> first | rfl | cases h

theorem Proc.left_pos {n : Nat} (hf : ¬ q.Free) (h : q.left = some n) : 0 < n := by
  cases q <;> simp only [Proc.left, Option.some.injEq] at h <;>
    first | exact absurd trivial hf | omega | cases h

theorem procNext_free (hf : q.Free) : procNext H w q choice = none := by
  cases q <;> first | rfl | cases hf

/-- **A step shortens what is left.** -/
theorem Turn.left (h : Turn H cut now w q (.next choice) w' q') (hf : ¬ q.Free) {n : Nat}
    (hn : q.left = some n) : ∃ m < n, q'.left = some m := by
  have hpos := Proc.left_pos hf hn
  cases h with
  | reply => exact ⟨0, hpos, rfl⟩
  | refuse => exact ⟨0, hpos, rfl⟩
  | publish => exact ⟨0, hpos, rfl⟩
  | collect => cases hn
  | collected => cases hn
  | list => cases hn
  | _ =>
    simp only [Proc.left, Option.some.injEq, List.length_cons] at hn
    simp only [Proc.left, Option.some.injEq, exists_eq_right']
    omega

theorem exists_listing (db : Db) (r : Uuid) : ∃ entries, QueueListing db r entries := by
  refine ⟨(db.queue.rows.filter fun x => x.repositoryId = r).insertionSort
    fun a b => a.queuedAt ≤ b.queuedAt, List.perm_insertionSort _ _, ?_⟩
  have : Std.Total fun a b : QueueRow => a.queuedAt ≤ b.queuedAt := ⟨fun a b => le_total _ _⟩
  have : IsTrans QueueRow fun a b => a.queuedAt ≤ b.queuedAt := ⟨fun _ _ _ => le_trans⟩
  exact List.pairwise_insertionSort _ _

/-- A publication without locked rows comes to an end. -/
theorem procPublish_ready {r u : Uuid} {m : ObjectManifest} (h : w.locks = []) :
    ∃ w' q', procPublish w r u m = some (w', q') := by
  have hwait : ¬ PublishWaits w r u m := by
    rintro ⟨-, -, d, -, hd⟩
    rw [h] at hd
    exact absurd hd List.not_mem_nil
  rw [procPublish, if_neg hwait]
  split <;> exact ⟨_, _, rfl⟩

/-- **Without rows held by others a process at work has a step.** -/
theorem procNext_ready (hf : ¬ q.Free) (hl : ∀ k ∈ w.locks, q.held = some k) :
    ∃ choice w' q', procNext H w q choice = some (w', q') := by
  have hfree : q.held = none → w.locks = [] := by
    intro hnone
    refine List.eq_nil_iff_forall_not_mem.2 fun k hk => ?_
    rw [hnone] at hl
    exact absurd (hl k hk) (by simp)
  cases q with
  | idle => exact absurd trivial hf
  | done => exact absurd trivial hf
  | stopped => exact absurd trivial hf
  | probing u r todo index missing => cases todo <;> exact ⟨.auto, _, _, rfl⟩
  | registering r u d bytes =>
    refine ⟨.auto, ?_⟩
    simp only [procNext, hfree rfl, List.not_mem_nil, if_false]
    split <;> exact ⟨_, _, rfl⟩
  | storing r c bytes =>
    refine ⟨.auto, ?_⟩
    simp only [procNext]
    split <;> exact ⟨_, _, rfl⟩
  | basic r u m todo =>
    refine ⟨.auto, ?_⟩
    cases todo with
    | nil => exact procPublish_ready (hfree rfl)
    | cons chunk todo =>
      simp only [procNext, hfree rfl, List.not_mem_nil, if_false]
      split <;> exact ⟨_, _, rfl⟩
  | basicStoring r u m chunk todo =>
    refine ⟨.auto, ?_⟩
    simp only [procNext]
    split <;> exact ⟨_, _, rfl⟩
  | verifying r oid u m todo hashed =>
    refine ⟨.auto, ?_⟩
    cases todo with
    | nil =>
      simp only [procNext]
      split
      · exact ⟨_, _, rfl⟩
      · exact procPublish_ready (hfree rfl)
    | cons d todo =>
      simp only [procNext]
      split <;> exact ⟨_, _, rfl⟩
  | staging r seconds candidates evidence =>
    refine ⟨.auto, ?_⟩
    simp only [procNext]
    split <;> exact ⟨_, _, rfl⟩
  | collecting r n =>
    rcases noneDue_or_nextDue w.db w.clock r with hnone | ⟨oid, hdue⟩
    · exact ⟨.auto, _, _, if_pos hnone⟩
    · refine ⟨.tombstone oid, ?_⟩
      simp only [procNext, hfree rfl, List.not_mem_nil, not_false_eq_true, implies_true, and_true,
        if_pos hdue]
      split <;> exact ⟨_, _, rfl⟩
  | listing r count =>
    obtain ⟨entries, he⟩ := exists_listing w.db r
    exact ⟨.listing entries, _, _, if_pos he⟩
  | draining r todo count =>
    refine ⟨.auto, ?_⟩
    cases todo with
    | nil => exact ⟨_, _, rfl⟩
    | cons c todo =>
      simp only [procNext, hfree rfl, List.not_mem_nil, if_false]
      split <;> exact ⟨_, _, rfl⟩
  | deleting r c todo count => exact ⟨.auto, _, _, rfl⟩
  | deleted r c todo count =>
    refine ⟨.auto, ?_⟩
    simp only [procNext]
    split <;> exact ⟨_, _, rfl⟩

/-- At work, or with its answer. -/
def Proc.Engaged (q : Proc) : Prop := ¬ q.Free ∨ ∃ response, q = .done response

theorem procNext_engaged (h : procNext H w q choice = some (w', q')) : q'.Engaged := by
  have ht : Turn H (fun _ => []) 0 w q (.next choice) w' q' := procNext_turn h
  cases ht with
  | reply => exact .inr ⟨_, rfl⟩
  | refuse => exact .inr ⟨_, rfl⟩
  | put => exact .inr ⟨_, rfl⟩
  | publish => exact .inr ⟨_, rfl⟩
  | stage => exact .inr ⟨_, rfl⟩
  | abort => exact .inr ⟨_, rfl⟩
  | _ => exact .inl id

end Turns

/-! ## Runs -/

section Runs

variable {ι : Type} [DecidableEq ι] {H : Hashes} {cut : Cutter} {s s' : State ι} {p : ι}
  {k : Uuid × ChunkId} {ls ls' : List (Label ι)} {P : ι → Prop}

/-- Every label is a step of a process of `P`. -/
def StepsOf (P : ι → Prop) (ls : List (Label ι)) : Prop :=
  ∀ l ∈ ls, ∃ p choice, l = .act p (.next choice) ∧ P p

omit [DecidableEq ι] in
theorem StepsOf.append (h : StepsOf P ls) (h' : StepsOf P ls') : StepsOf P (ls ++ ls') := by
  intro l hl
  rcases List.mem_append.1 hl with hl | hl
  · exact h l hl
  · exact h' l hl

omit [DecidableEq ι] in
theorem StepsOf.mono {P' : ι → Prop} (h : StepsOf P ls) (hP : ∀ p, P p → P' p) : StepsOf P' ls := by
  intro l hl
  obtain ⟨p, choice, rfl, hp⟩ := h l hl
  exact ⟨p, choice, rfl, hP p hp⟩

theorem run_next {choice : Choice} {w : Shared} {q : Proc}
    (h : procNext H s.toShared (s.procs p) choice = some (w, q)) :
    (server H cut).Run s [.act p (.next choice)] (s.move p w q) :=
  .cons (step_next h) (.nil _)

omit [DecidableEq ι] in
theorem stepsOf_single {choice : Choice} (hp : P p) : StepsOf P [.act p (.next choice)] := by
  intro l hl
  exact ⟨p, choice, List.mem_singleton.1 hl, hp⟩

/-- The last step of a drain transaction gives its row back. -/
theorem commits (H : Hashes) (cut : Cutter) {r : Uuid} {c : ChunkId} {todo : List ChunkId} {n : Nat}
    (hq : s.procs p = .deleted r c todo n) :
    ∃ s', (server H cut).Run s [.act p (.next .auto)] s' ∧
      s'.locks = s.locks.filter (· ≠ (r, c)) ∧ (s'.procs p).held = none ∧ (s'.procs p).Engaged ∧
      ∀ p', p' ≠ p → s'.procs p' = s.procs p' := by
  obtain ⟨w, q, hnext, hl, hheld⟩ : ∃ w q, procNext H s.toShared (s.procs p) .auto = some (w, q) ∧
      w.locks = s.locks.filter (· ≠ (r, c)) ∧ q.held = none := by
    simp only [hq, procNext]
    split <;> exact ⟨_, _, rfl, rfl, rfl⟩
  refine ⟨s.move p w q, run_next hnext, hl, ?_, ?_, fun p' hp' => ?_⟩
  · rw [move_procs_self, hheld]
  · rw [move_procs_self]
    exact procNext_engaged hnext
  · rw [move_procs, if_neg hp']

/-- A drain transaction ends by steps of its own. -/
theorem releases (H : Hashes) (cut : Cutter) (hheld : (s.procs p).held = some k) :
    ∃ ls s', (server H cut).Run s ls s' ∧ StepsOf (· = p) ls ∧
      s'.locks = s.locks.filter (· ≠ k) ∧ (s'.procs p).held = none ∧ (s'.procs p).Engaged ∧
      ∀ p', p' ≠ p → s'.procs p' = s.procs p' := by
  cases hq : s.procs p with
  | deleting r c todo n =>
    rw [hq] at hheld
    cases hheld
    have herase : procNext H s.toShared (s.procs p) .auto =
        some ({ s.toShared with store := deleteChunk s.store r c }, .deleted r c todo n) := by
      rw [hq]
      rfl
    obtain ⟨s', hrun, hl, hnone, heng, hsame⟩ := commits H cut
      (move_procs_self s p { s.toShared with store := deleteChunk s.store r c } (.deleted r c todo n))
    refine ⟨_, s', (run_next herase).append hrun, ?_, hl, hnone, heng, fun p' hp' => ?_⟩
    · exact (stepsOf_single (P := (· = p)) rfl).append (stepsOf_single rfl)
    · rw [hsame p' hp', move_procs, if_neg hp']
  | deleted r c todo n =>
    rw [hq] at hheld
    cases hheld
    obtain ⟨s', hrun, hrest⟩ := commits H cut hq
    exact ⟨_, s', hrun, stepsOf_single rfl, hrest⟩
  | _ => simp [hq, Proc.held] at hheld

/-- **Rows come free.** All open drain transactions end by their own steps. -/
theorem releases_all : ∀ {n : Nat} {s : State ι}, (server H cut).Reachable s → s.locks.length ≤ n →
    ∃ ls s', (server H cut).Run s ls s' ∧ StepsOf (fun p => (s.procs p).held ≠ none) ls ∧
      s'.locks = [] ∧ ∀ p, (s.procs p).Engaged → (s'.procs p).Engaged := by
  intro n
  induction n with
  | zero =>
    intro s _ hn
    exact ⟨[], s, .nil s, fun l hl => absurd hl List.not_mem_nil,
      List.length_eq_zero_iff.1 (Nat.le_zero.1 hn), fun _ h => h⟩
  | succ n ih =>
    intro s hr hn
    cases hlocks : s.locks with
    | nil => exact ⟨[], s, .nil s, fun l hl => absurd hl List.not_mem_nil, hlocks, fun _ h => h⟩
    | cons k locks =>
      have hk : k ∈ s.locks := by simp [hlocks]
      obtain ⟨p, hp⟩ := ((locks_held H cut).reachable hr).2 k hk
      obtain ⟨ls, s₁, hrun, hsteps, hl, hnone, heng, hsame⟩ := releases H cut hp
      have hlt : s₁.locks.length < s.locks.length := by
        rw [hl, List.length_filter_lt_length_iff_exists]
        exact ⟨k, hk, by simp⟩
      obtain ⟨ls', s', hrun', hsteps', hfree, heng'⟩ := ih (hr.run hrun) (by omega)
      refine ⟨ls ++ ls', s', hrun.append hrun', ?_, hfree, fun p' hp' => heng' p' ?_⟩
      · refine (hsteps.mono ?_).append (hsteps'.mono fun p' hp' => ?_)
        · rintro p' rfl
          simp [hp]
        · by_cases e : p' = p
          · exact absurd (e ▸ hnone) hp'
          · rwa [hsame p' e] at hp'
      · by_cases e : p' = p
        · exact e ▸ heng
        · rwa [hsame p' e]

/-- Every row that is held is held by `p`. -/
def Alone (p : ι) (s : State ι) : Prop := ∀ k ∈ s.locks, (s.procs p).held = some k

/-- A process that is alone takes a step and is alone. -/
theorem Alone.next (h : Alone p s) (hf : ¬ (s.procs p).Free) :
    ∃ choice w q, procNext H s.toShared (s.procs p) choice = some (w, q) ∧ Alone p (s.move p w q) := by
  obtain ⟨choice, w, q, hnext⟩ := procNext_ready (H := H) hf h
  refine ⟨choice, w, q, hnext, fun k hk => ?_⟩
  rw [move_procs_self]
  change k ∈ w.locks at hk
  have ht : Turn H (fun _ => []) 0 _ _ _ w q := procNext_turn hnext
  rcases ht.held with ⟨hq, hl⟩ | ⟨k', hnone, hq, -, hl⟩ | ⟨k', hq, hnone, hl⟩
  · rw [hq]
    exact h k (hl ▸ hk)
  · rw [hl] at hk
    rcases List.mem_cons.1 hk with rfl | hk
    · exact hq
    · exact absurd (h k hk) (by simp [hnone])
  · rw [hl, List.mem_filter] at hk
    have hsome := h k hk.1
    rw [hq, Option.some.injEq] at hsome
    simp [hsome] at hk

/-- The process comes to its answer by its own steps. -/
def Finishes (H : Hashes) (cut : Cutter) (p : ι) (s : State ι) : Prop :=
  ∃ ls s' response, (server H cut).Run s ls s' ∧ StepsOf (· = p) ls ∧ s'.procs p = .done response

theorem Finishes.step {choice : Choice} {w : Shared} {q : Proc}
    (hnext : procNext H s.toShared (s.procs p) choice = some (w, q))
    (h : Finishes H cut p (s.move p w q)) : Finishes H cut p s := by
  obtain ⟨ls, s', response, hrun, hsteps, hdone⟩ := h
  exact ⟨_, s', response, (run_next hnext).append hrun,
    (stepsOf_single (P := (· = p)) rfl).append hsteps, hdone⟩

theorem Alone.finishes_left : ∀ {n : Nat} {s : State ι}, Alone p s → (s.procs p).Engaged →
    (s.procs p).left = some n → Finishes H cut p s := by
  intro n
  induction n using Nat.strong_induction_on with
  | _ n ih =>
    intro s h heng hn
    rcases heng with hf | ⟨response, hdone⟩
    · obtain ⟨choice, w, q, hnext, halone⟩ := h.next (H := H) hf
      have ht : Turn H cut 0 _ _ _ w q := procNext_turn hnext
      obtain ⟨m, hm, hleft⟩ := ht.left hf hn
      refine .step hnext (ih m hm halone ?_ ?_) <;> rw [move_procs_self]
      · exact procNext_engaged hnext
      · exact hleft
    · exact ⟨[], s, response, .nil s, fun l hl => absurd hl List.not_mem_nil, hdone⟩

omit [DecidableEq ι] in
theorem Alone.unlocked (h : Alone p s) (hnone : (s.procs p).held = none) : s.locks = [] := by
  refine List.eq_nil_iff_forall_not_mem.2 fun k hk => ?_
  have hsome := h k hk
  rw [hnone] at hsome
  cases hsome

omit [DecidableEq ι] in
theorem alone_of_unlocked (h : s.locks = []) : Alone p s := by
  intro k hk
  rw [h] at hk
  exact absurd hk List.not_mem_nil

/-- A run that lists the queue works the listing off. -/
theorem Alone.finishes_listing {r : Uuid} {n : Nat} (h : Alone p s) (hq : s.procs p = .listing r n) :
    Finishes H cut p s := by
  obtain ⟨entries, he⟩ := exists_listing s.db r
  have hnext : procNext H s.toShared (s.procs p) (.listing entries) =
      some (s.toShared, .draining r (entries.map (·.chunkId)) n) := by
    rw [hq]
    exact if_pos he
  have halone : Alone p (s.move p s.toShared (.draining r (entries.map (·.chunkId)) n)) :=
    alone_of_unlocked (h.unlocked (by rw [hq]; rfl))
  refine .step hnext (halone.finishes_left (n := 3 * (entries.map (·.chunkId)).length + 1) ?_ ?_)
  · rw [move_procs_self]
    exact .inl id
  · rw [move_procs_self]
    rfl

/-- `collect_due` deletes what is due, and then drains. -/
theorem Alone.finishes_collecting {r : Uuid} {n : Nat} {s : State ι} (h : Alone p s)
    (hq : s.procs p = .collecting r n) : Finishes H cut p s := by
  have hfree := h.unlocked (by rw [hq]; rfl)
  rcases noneDue_or_nextDue s.db s.clock r with hnone | ⟨oid, hdue⟩
  · have hnext : procNext H s.toShared (s.procs p) .auto = some (s.toShared, .listing r n) := by
      rw [hq]
      exact if_pos hnone
    have halone : Alone p (s.move p s.toShared (.listing r n)) := alone_of_unlocked hfree
    exact .step hnext (halone.finishes_listing (move_procs_self ..))
  · have hguard : NextDue s.db s.clock r oid ∧ ∀ o ∈ s.db.chunksOf r oid, (r, o.chunkId) ∉ s.locks := by
      rw [hfree]
      exact ⟨hdue, fun _ _ => List.not_mem_nil⟩
    cases hc : collectObject s.db s.clock r oid with
    | error e =>
      have hnext : procNext H s.toShared (s.procs p) (.tombstone oid) =
          some (s.toShared, .done (.adminFailed (.database e))) := by
        rw [hq, procNext, if_pos hguard, hc]
      exact .step hnext ⟨[], _, _, .nil _, fun l hl => absurd hl List.not_mem_nil, move_procs_self ..⟩
    | ok db =>
      have hnext : procNext H s.toShared (s.procs p) (.tombstone oid) =
          some ({ s.toShared with db := db }, .collecting r (n + 1)) := by
        rw [hq, procNext, if_pos hguard, hc]
      have hlt := dueKeys_lt hdue hc
      have halone : Alone p (s.move p { s.toShared with db := db } (.collecting r (n + 1))) :=
        alone_of_unlocked hfree
      exact .step hnext (halone.finishes_collecting (move_procs_self ..))
termination_by (dueKeys s.db s.clock r).length

theorem Alone.finishes (h : Alone p s) (heng : (s.procs p).Engaged) : Finishes H cut p s := by
  cases hleft : (s.procs p).left with
  | some n => exact h.finishes_left heng hleft
  | none =>
    cases hq : s.procs p with
    | collecting r n => exact h.finishes_collecting hq
    | listing r n => exact h.finishes_listing hq
    | _ => simp [hq, Proc.left] at hleft

/-! ## Bounded work -/

/-- A step of the process itself. -/
def Label.By (p : ι) : Label ι → Prop
  | .advance _ => False
  | .act p' _ => p' = p

instance (p : ι) : DecidablePred (Label.By p)
  | .advance _ => inferInstanceAs (Decidable False)
  | .act p' _ => inferInstanceAs (Decidable (p' = p))

omit [DecidableEq ι] in
@[simp] theorem not_by_advance (p : ι) (δ : Nat) : ¬ (Label.advance δ).By p := id

omit [DecidableEq ι] in
@[simp] theorem by_act (p p' : ι) (a : Action) : (Label.act p' a).By p ↔ p' = p := .rfl

/-- A process that is neither cut off nor given another request works off what is left. -/
theorem bounded_work {n : Nat} (hrun : (server H cut).Run s ls s')
    (hls : ∀ a, .act p a ∈ ls → ∃ choice, a = .next choice) (hn : (s.procs p).left = some n) :
    ls.countP (Label.By p ·) ≤ n := by
  induction hrun generalizing n with
  | nil => exact Nat.zero_le _
  | @cons s s₁ s' l ls hst _ ih =>
    have hls' : ∀ a, .act p a ∈ ls → ∃ choice, a = .next choice :=
      fun a ha => hls a (List.mem_cons_of_mem _ ha)
    rcases step_cases hst with ⟨δ, rfl, rfl⟩ | ⟨p', a, w, q, rfl, ht, rfl⟩
    · rw [List.countP_cons_of_neg (by simp)]
      exact ih hls' hn
    · by_cases e : p' = p
      · subst e
        obtain ⟨choice, rfl⟩ := hls a List.mem_cons_self
        have hf : ¬ (s.procs p').Free := by
          intro hfree
          obtain ⟨w', q', hact, -⟩ := step_act hst
          rw [procAct, procNext_free hfree] at hact
          cases hact
        obtain ⟨m, hm, hleft⟩ := ht.left hf hn
        have hle := ih hls' (n := m) (by rw [move_procs_self]; exact hleft)
        rw [List.countP_cons_of_pos (by simp)]
        omega
      · rw [List.countP_cons_of_neg (by simp [e])]
        exact ih hls' (by rw [move_procs, if_neg (Ne.symm e)]; exact hn)

/-- A process at work, or with its answer, is brought to it by its own steps and those of the drain
transactions that hold rows now. -/
theorem engaged_answers (hr : (server H cut).Reachable s) (hp : (s.procs p).Engaged) :
    ∃ ls s' response, (server H cut).Run s ls s' ∧ s'.procs p = .done response ∧
      StepsOf (fun p' => p' = p ∨ (s.procs p').held ≠ none) ls := by
  obtain ⟨ls, s₁, hrun, hsteps, hfree, heng⟩ := releases_all hr (Nat.le_refl _)
  have hfin : Finishes H cut p s₁ := (alone_of_unlocked hfree).finishes (heng p hp)
  obtain ⟨ls', s', response, hrun', hsteps', hdone⟩ := hfin
  refine ⟨ls ++ ls', s', response, hrun.append hrun', hdone, ?_⟩
  exact (hsteps.mono fun p' hp' => .inr hp').append (hsteps'.mono fun p' hp' => .inl hp')

/-- **Requests finish.** A process at work comes to its answer by its own steps and those of the
drain transactions that hold rows at that moment, whatever state the server is in. (Every other
transaction is one step here, so no two of them can wait for each other's rows.) And a request that
is not cut off takes at most `Proc.left` steps of its own, whatever else happens before, between and
after them. -/
theorem requests_finish (H : Hashes) (cut : Cutter) (s : State ι) (hr : (server H cut).Reachable s)
    (p : ι) (hp : ¬ (s.procs p).Free) :
    (∃ ls s' response, (server H cut).Run s ls s' ∧ s'.procs p = .done response ∧
      StepsOf (fun p' => p' = p ∨ (s.procs p').held ≠ none) ls) ∧
    ∀ n, (s.procs p).left = some n → ∀ ls s', (server H cut).Run s ls s' →
      (∀ a, .act p a ∈ ls → ∃ choice, a = .next choice) → ls.countP (Label.By p ·) ≤ n :=
  ⟨engaged_answers hr (.inl hp), fun _ hn _ _ hrun hls => bounded_work hrun hls hn⟩

end Runs

namespace Sample

/-- The first process has collected the object of byte `a` and drains its chunk; the second has
begun to upload the same object again and puts that chunk. -/
def waits : List (Label (Fin 2)) :=
  uploads first 1 7 [0x61] ++
    [.act first (.start (.submitSnapshot 1 "" [] 8)), .act first (.start (.submitSnapshot 1 "" [] 9)),
     .act first (.start (.stage 1 0)), .act first (.next .auto), .advance 1, .act first (.start (.collectDue 1)),
     .act first (.next (.tombstone (hashes.sha256 [0x61]))), .act first (.next .auto),
     .act first (.next (.listing [⟨1, hashes.blake3 [0x61], 1⟩])), .act first (.next .auto)] ++
    begins second 1 17 [0x61] ++ [.act second (.start (.uploadCdcChunk 1 (hashes.sha256 [0x61]) 17 0 [0x61]))]

end Sample

open Sample in
/-- A chunk that has to wait for a drain is accepted in the end. -/
theorem requests_finish_waiting : ∃ s : State (Fin 2), (server hashes Sample.cut).Reachable s ∧
    procNext hashes s.toShared (s.procs Sample.second) .auto = none ∧
    ∃ ls s' response, (server hashes Sample.cut).Run s ls s' ∧ s'.procs Sample.second = .done response := by
  obtain ⟨s, hr, hq, hwait⟩ : ∃ s : State (Fin 2), (server hashes Sample.cut).Reachable s ∧
      ¬ (s.procs Sample.second).Free ∧ (procNext hashes s.toShared (s.procs Sample.second) .auto).isNone = true :=
    LTS.exists_reachable_of_exec waits ⟨0, rfl⟩ (by decide +kernel)
  obtain ⟨ls, s', response, hrun, hdone, -⟩ := (requests_finish hashes Sample.cut s hr Sample.second hq).1
  exact ⟨s, hr, Option.isNone_iff_eq_none.1 hwait, ls, s', response, hrun, hdone⟩

end GitLfsDelta
