import Mathlib.Data.List.MinMax
import GitLfsDelta.Core.LTS
import GitLfsDelta.L3Server.Removal

/-!
# Concurrent runs of `collect_due` (`git-lfs-delta-server/src/gc.rs`)

Any number of runs of `collect_due`, each for its repository, on one database and at one clock,
with no `stage` between them. The advisory lock makes each iteration of the loop one transaction,
and so is each chunk that `drain_chunk_queue` takes behind the loop. A run has no state but its
count between two iterations; one that is cut off is one that takes no further step.

* `Collectors.Inv`: what has been deleted so far, and what that leaves.
* `Collectors.exists_finished`: a run that is left alone ends.
* `collect_due_exact`: the runs together delete each due object once, and nothing else; and what
  their loops leave does not depend on which of them were cut off.
-/
namespace GitLfsDelta

variable {ι : Type} [DecidableEq ι]

structure Collectors (ι : Type) where
  db : Db
  /-- The loop has found no due tombstone. -/
  finished : ι → Bool
  /-- The deleting iterations, with the run each belongs to. -/
  log : List (ι × Uuid × ObjectOid)

def Collectors.deleted (s : Collectors ι) : List (Uuid × ObjectOid) := s.log.map Prod.snd

inductive CollectorLabel (ι : Type)
  | collect (p : ι) (oid : ObjectOid)
  | finish (p : ι)
  | drain (p : ι) (c : ChunkId)

/-- mirrors crates/git-lfs-delta-server/src/gc.rs:144-205 -/
inductive CollectorStep (repo : ι → Uuid) (now : Nat) (s : Collectors ι) :
    CollectorLabel ι → Collectors ι → Prop
  | collect {p : ι} {oid : ObjectOid} {db' : Db} (hrun : s.finished p = false)
      (hnext : NextDue s.db now (repo p) oid) (hdb : collectObject s.db now (repo p) oid = .ok db') :
      CollectorStep repo now s (.collect p oid)
        { s with db := db', log := s.log ++ [(p, repo p, oid)] }
  | finish {p : ι} (hrun : s.finished p = false) (hnone : NoneDue s.db now (repo p)) :
      CollectorStep repo now s (.finish p) { s with finished := Function.update s.finished p true }
  | drain {p : ι} {c : ChunkId} {db' : Db} (hdone : s.finished p = true)
      (hdb : drainChunk s.db (repo p) c = .ok db') :
      CollectorStep repo now s (.drain p c) { s with db := db' }

def collectors (repo : ι → Uuid) (now : Nat) (db₀ : Db) : LTS (Collectors ι) (CollectorLabel ι) where
  init s := s = ⟨db₀, fun _ => false, []⟩
  step := CollectorStep repo now

/-- Only the loops take steps. -/
def InLoop : CollectorLabel ι → Prop
  | .drain _ _ => False
  | _ => True

/-- Only the loop of one run takes steps. -/
def InLoopOf (p : ι) : CollectorLabel ι → Prop
  | .collect q _ | .finish q => q = p
  | .drain _ _ => False

/-- The runs up to where their loops end. -/
def collectorLoops (repo : ι → Uuid) (now : Nat) (db₀ : Db) : LTS (Collectors ι) (CollectorLabel ι) :=
  (collectors repo now db₀).guard fun _ l => InLoop l

/-- The due tombstones of a repository. -/
def dueKeys (db : Db) (now : Nat) (r : Uuid) : List (Uuid × ObjectOid) :=
  (db.tombstones.rows.filter fun t => t.repositoryId = r ∧ t.deleteAfter ≤ now).map TombstoneRow.key

/-! ## Due tombstones -/

variable {repo : ι → Uuid} {now : Nat} {db₀ db db' : Db} {r : Uuid} {oid : ObjectOid}
  {s s' : Collectors ι} {p : ι}

theorem mem_dueKeys {x : Uuid × ObjectOid} : x ∈ dueKeys db now r ↔
    ∃ t ∈ db.tombstones, t.key = x ∧ t.repositoryId = r ∧ t.deleteAfter ≤ now := by
  simp only [dueKeys, List.mem_map, List.mem_filter, Table.mem_rows, decide_eq_true_eq]
  constructor
  · intro h
    obtain ⟨t, ⟨ht, hdue⟩, hkey⟩ := h
    exact ⟨t, ht, hkey, hdue⟩
  · intro h
    obtain ⟨t, ht, hkey, hdue⟩ := h
    exact ⟨t, ⟨ht, hdue⟩, hkey⟩

theorem dueKeys_nodup (db : Db) (now : Nat) (r : Uuid) : (dueKeys db now r).Nodup :=
  Table.nodup_filter db.tombstones _

/-- The query of the loop finds a tombstone if one is due. -/
theorem noneDue_or_nextDue (db : Db) (now : Nat) (r : Uuid) :
    NoneDue db now r ∨ ∃ oid, NextDue db now r oid := by
  cases hmin : (db.tombstones.rows.filter fun t => t.repositoryId = r ∧ t.deleteAfter ≤ now).argmin
      TombstoneRow.deleteAfter with
  | none =>
    refine .inl fun t ht hr => ?_
    rw [List.argmin_eq_none, List.filter_eq_nil_iff] at hmin
    have hnot := hmin t ht
    simp only [decide_eq_true_eq, not_and, not_le] at hnot
    exact hnot hr
  | some t =>
    have hmem := List.mem_filter.1 (List.argmin_mem hmin)
    obtain ⟨ht, hdue⟩ := hmem
    simp only [decide_eq_true_eq] at hdue
    refine .inr ⟨t.objectOid, t, ht, ⟨hdue.1, rfl⟩, hdue.2, fun t' ht' hr' hdue' => ?_⟩
    apply List.le_of_mem_argmin _ hmin
    exact List.mem_filter.2 ⟨ht', by simp [hr', hdue']⟩

/-- A deletion takes its tombstone, and no other. -/
theorem dueKeys_collect (hc : collectObject db now r oid = .ok db') (r' : Uuid) :
    dueKeys db' now r' = (dueKeys db now r').filter fun x => x ≠ (r, oid) := by
  obtain ⟨⟨C, Q, rfl⟩, -⟩ := collectObject_ok hc
  unfold dueKeys
  simp only [Db.deleteObject, Table.deleteWhere, List.filter_map, List.filter_filter]
  congr 1
  apply List.filter_congr
  intro t _
  rw [Bool.eq_iff_iff]
  simp only [TombstoneRow.key, Function.comp_apply, Bool.and_eq_true, Bool.not_eq_true', decide_eq_true_eq,
    decide_eq_false_iff_not, ne_eq, Prod.mk.injEq]
  tauto

theorem dueKeys_lt (hnext : NextDue db now r oid) (hc : collectObject db now r oid = .ok db') :
    (dueKeys db' now r).length < (dueKeys db now r).length := by
  obtain ⟨t, ht, ⟨hr, rfl⟩, hdue, -⟩ := hnext
  rw [dueKeys_collect hc, List.length_filter_lt_length_iff_exists]
  refine ⟨(r, t.objectOid), mem_dueKeys.2 ⟨t, ht, by rw [← hr]; rfl, hr, hdue⟩, by simp⟩

/-! ## The invariant -/

/-- The objects of the log are gone; each was due, and is there once. -/
structure Collectors.Inv (repo : ι → Uuid) (now : Nat) (db₀ : Db) (s : Collectors ι) : Prop where
  removed : Removed db₀ s.deleted s.db
  countable : s.db.Countable
  once : s.deleted.Nodup
  due : ∀ x ∈ s.deleted, x ∈ dueKeys db₀ now x.1
  own : ∀ e ∈ s.log, e.2.1 = repo e.1
  none : ∀ p, s.finished p = true → NoneDue s.db now (repo p)

theorem Collectors.Inv.step {l : CollectorLabel ι} (hs : s.Inv repo now db₀)
    (hst : CollectorStep repo now s l s') : s'.Inv repo now db₀ := by
  cases hst with
  | @collect p oid db' hrun hnext hdb =>
    have hdeleted : ∀ e, (s.log ++ [e]).map Prod.snd = s.deleted ++ [e.2] := by
      intro e
      simp [Collectors.deleted]
    obtain ⟨t, ht, ⟨hr, rfl⟩, hdue, -⟩ := hnext
    have htomb := ht
    rw [hs.removed.tombstones, Table.mem_deleteWhere] at htomb
    obtain ⟨ht₀, hnew⟩ := htomb
    have hkey : t.key = (repo p, t.objectOid) := by
      rw [← hr]
      rfl
    rw [hkey, decide_eq_false_iff_not] at hnew
    refine ⟨?_, hs.countable.collect hdb, ?_, ?_, ?_, ?_⟩
    · simp only [Collectors.deleted, hdeleted]
      exact hs.removed.collect hdb
    · simp only [Collectors.deleted, hdeleted]
      refine List.nodup_append.2 ⟨hs.once, List.nodup_singleton _, ?_⟩
      intro a ha b hb e
      rw [List.mem_singleton.1 hb] at e
      subst e
      exact hnew ha
    · intro x hx
      simp only [Collectors.deleted, hdeleted, List.mem_append, List.mem_singleton] at hx
      rcases hx with hx | rfl
      · exact hs.due x hx
      · exact mem_dueKeys.2 ⟨t, ht₀, hkey, hr, hdue⟩
    · intro e he
      rcases List.mem_append.1 he with he | he
      · exact hs.own e he
      · rw [List.mem_singleton.1 he]
    · intro q hq t' ht' hr'
      obtain ⟨⟨C, Q, rfl⟩, -⟩ := collectObject_ok hdb
      exact hs.none q hq t' (Table.mem_deleteWhere.1 ht').1 hr'
  | @finish p hrun hnone =>
    refine ⟨hs.removed, hs.countable, hs.once, hs.due, hs.own, fun q hq => ?_⟩
    by_cases e : q = p
    · subst e
      exact hnone
    · simp only [Function.update_of_ne e] at hq
      exact hs.none q hq
  | @drain p c db' hdone hdb =>
    have hcount := hs.countable.drain hdb
    obtain ⟨C, Q, rfl⟩ := drainChunk_ok hdb
    obtain ⟨ho, hx, ht, hse, hl, he, hre⟩ := hs.removed
    exact ⟨⟨ho, hx, ht, hse, hl, he, hre⟩, hcount, hs.once, hs.due, hs.own, hs.none⟩

theorem collectors_inductive (repo : ι → Uuid) (now : Nat) (h : db₀.Countable) :
    (collectors repo now db₀).Inductive (Collectors.Inv repo now db₀) where
  init s hs := by
    cases hs
    refine ⟨.refl db₀, h, List.nodup_nil, ?_, ?_, ?_⟩
    · intro x hx
      cases hx
    · intro e he
      cases he
    · intro p hp
      cases hp
  step s l s' hs hst := hs.step hst

/-! ## Ends of loops -/

omit [DecidableEq ι] in
/-- A loop that has ended has deleted all that was due in its repository. -/
theorem Collectors.Inv.complete (h : s.Inv repo now db₀) (hp : s.finished p = true) :
    (s.deleted.filter fun x => x.1 = repo p).Perm (dueKeys db₀ now (repo p)) := by
  refine (List.perm_ext_iff_of_nodup (h.once.filter _) (dueKeys_nodup db₀ now _)).2 fun x => ?_
  rw [List.mem_filter, decide_eq_true_eq]
  constructor
  · intro hx
    rw [← hx.2]
    exact h.due x hx.1
  · intro hx
    obtain ⟨t, ht, rfl, hr, hdue⟩ := mem_dueKeys.1 hx
    refine ⟨?_, hr⟩
    by_contra hnot
    have htomb : t ∈ s.db.tombstones := by
      rw [h.removed.tombstones, Table.mem_deleteWhere]
      exact ⟨ht, decide_eq_false hnot⟩
    have hlater := h.none p hp t htomb hr
    omega

omit [DecidableEq ι] in
/-- The log is no longer than the list of due tombstones. -/
theorem Collectors.Inv.bounded (h : s.Inv repo now db₀) :
    s.deleted.length ≤ (db₀.tombstones.rows.filter fun t => t.deleteAfter ≤ now).length := by
  rw [← List.length_map TombstoneRow.key]
  refine (h.once.subperm fun x hx => ?_).length_le
  obtain ⟨t, ht, hkey, -, hdue⟩ := mem_dueKeys.1 (h.due x hx)
  exact List.mem_map.2 ⟨t, List.mem_filter.2 ⟨ht, decide_eq_true hdue⟩, hkey⟩

/-- The iterations a run has left, the last of which finds nothing. -/
def Collectors.remaining (repo : ι → Uuid) (now : Nat) (p : ι) (s : Collectors ι) : Nat :=
  (dueKeys s.db now (repo p)).length + if s.finished p then 0 else 1

/-- **A run that is left alone ends.** -/
theorem Collectors.exists_finished (h : s.Inv repo now db₀) (p : ι) :
    ∃ ls s', ((collectorLoops repo now db₀).guard fun _ l => InLoopOf p l).Run s ls s' ∧
      s'.finished p = true := by
  -- every iteration takes a due tombstone, and the last step finds none
  refine LTS.exists_run_of_measure (P := Collectors.Inv repo now db₀) (Collectors.remaining repo now p)
    (fun s hs => ?_) s h
  by_cases hdone : s.finished p = true
  · exact .inl hdone
  have hrun : s.finished p = false := by simpa using hdone
  right
  rcases noneDue_or_nextDue s.db now (repo p) with hnone | ⟨oid, hnext⟩
  · have hst : CollectorStep repo now s (.finish p) _ := .finish hrun hnone
    refine ⟨.finish p, _, ⟨rfl, trivial, hst⟩, hs.step hst, ?_⟩
    simp [Collectors.remaining, hrun]
  · obtain ⟨db', hdb, -⟩ := collectObject_counts hs.countable.counts now (repo p) oid
    have hst : CollectorStep repo now s (.collect p oid) _ := .collect hrun hnext hdb
    refine ⟨.collect p oid, _, ⟨rfl, trivial, hst⟩, hs.step hst, ?_⟩
    have hlt := dueKeys_lt hnext hdb
    simpa [Collectors.remaining] using hlt

/-! ## What the loops leave -/

theorem collectorLoops_inductive (repo : ι → Uuid) (now : Nat) (h : db₀.Countable) :
    (collectorLoops repo now db₀).Inductive fun s =>
      s.Inv repo now db₀ ∧ Tallied now db₀ s.deleted s.db where
  init s hs := by
    refine ⟨(collectors_inductive repo now h).init s hs, ?_⟩
    cases hs
    exact .refl now db₀
  step s l s' hs hst := by
    refine ⟨hs.1.step hst.2, ?_⟩
    obtain ⟨hloop, hst⟩ := hst
    cases hst with
    | collect hrun hnext hdb =>
      have htally := hs.2.collect hs.1.removed hdb
      simpa [Collectors.deleted] using htally
    | finish hrun hnone => exact hs.2
    | drain hdone hdb => exact absurd hloop id

omit [DecidableEq ι] in
/-- Where all runs are for one repository, an ended loop has left what the deletion of its due
objects leaves. -/
theorem Collectors.Inv.left {r : Uuid} (h : s.Inv repo now db₀) (hrepo : ∀ p, repo p = r)
    (hp : s.finished p = true) : ∀ x, x ∈ s.deleted ↔ x ∈ dueKeys db₀ now r := by
  intro x
  rw [← hrepo p, ← (h.complete hp).mem_iff, List.mem_filter, decide_eq_true_eq]
  refine ⟨fun hx => ⟨hx, ?_⟩, fun hx => hx.1⟩
  obtain ⟨e, he, rfl⟩ := List.mem_map.1 hx
  rw [h.own e he, hrepo, hrepo]

/-- What is true of any state of the runs. -/
structure CollectsExactly (repo : ι → Uuid) (now : Nat) (db₀ : Db) (s : Collectors ι) : Prop where
  /-- No object is deleted twice, and only what is there and due. -/
  once : s.deleted.Nodup
  due : ∀ x ∈ s.deleted, x ∈ dueKeys db₀ now x.1 ∧ db₀.objects.HasKey x
  own : ∀ e ∈ s.log, e.2.1 = repo e.1
  removed : Removed db₀ s.deleted s.db
  /-- A loop that has ended has deleted each due object of its repository. -/
  complete : ∀ p, s.finished p = true →
    (s.deleted.filter fun x => x.1 = repo p).Perm (dueKeys db₀ now (repo p))
  /-- No iteration fails, and there are no more than due tombstones. -/
  succeeds : ∀ p oid, NextDue s.db now (repo p) oid →
    ∃ db', collectObject s.db now (repo p) oid = .ok db'
  bounded : s.deleted.length ≤ (db₀.tombstones.rows.filter fun t => t.deleteAfter ≤ now).length
  /-- A run that has not ended goes on, and left alone it ends. -/
  next : ∀ p, NoneDue s.db now (repo p) ∨ ∃ oid, NextDue s.db now (repo p) oid
  ends : ∀ p, ∃ ls s', ((collectorLoops repo now db₀).guard fun _ l => InLoopOf p l).Run s ls s' ∧
    s'.finished p = true

/-- **The runs of `collect_due` delete exactly the due objects, each once.** In any interleaving
the log of deleting iterations has no repetition, an ended loop has deleted every due object of
its repository, and the objects of the log are gone with their rows and tombstones and nothing
else. Up to the drains the counts are down by the uses, and the queue has grown by the chunks that
are used no more. So the loops of one repository leave the same objects, counts and queue, however
many of them there were and wherever the others were cut off. -/
theorem collect_due_exact (repo : ι → Uuid) (now : Nat) {db₀ : Db} (h : db₀.Countable) :
    (∀ s, (collectors repo now db₀).Reachable s → CollectsExactly repo now db₀ s) ∧
    (∀ s, (collectorLoops repo now db₀).Reachable s → Tallied now db₀ s.deleted s.db) ∧
    ∀ r, (∀ p, repo p = r) → ∀ s p, (collectorLoops repo now db₀).Reachable s → s.finished p = true →
      Removed db₀ (dueKeys db₀ now r) s.db ∧ Tallied now db₀ (dueKeys db₀ now r) s.db ∧
      ∀ s' q, (collectorLoops repo now db₀).Reachable s' → s'.finished q = true → Agrees s.db s'.db := by
  have hleft : ∀ r, (∀ p, repo p = r) → ∀ s p, (collectorLoops repo now db₀).Reachable s →
      s.finished p = true →
      Removed db₀ (dueKeys db₀ now r) s.db ∧ Tallied now db₀ (dueKeys db₀ now r) s.db := by
    intro r hrepo s p hs hp
    obtain ⟨hinv, htally⟩ := (collectorLoops_inductive repo now h).reachable hs
    have hmem := hinv.left hrepo hp
    exact ⟨hinv.removed.congr hmem, htally.congr hmem⟩
  refine ⟨fun s hs => ?_, fun s hs => ?_, fun r hrepo s p hs hp => ?_⟩
  · have hinv := (collectors_inductive repo now h).reachable hs
    refine ⟨hinv.once, fun x hx => ⟨hinv.due x hx, ?_⟩, hinv.own, hinv.removed,
      fun p hp => hinv.complete hp, fun p oid _ => ?_, hinv.bounded,
      fun p => noneDue_or_nextDue _ _ _, fun p => Collectors.exists_finished hinv p⟩
    · obtain ⟨t, ht, hkey, -⟩ := mem_dueKeys.1 (hinv.due x hx)
      rw [← hkey]
      exact h.tombstone t ht
    · obtain ⟨db', hdb, -⟩ := collectObject_counts hinv.countable.counts now (repo p) oid
      exact ⟨db', hdb⟩
  · exact ((collectorLoops_inductive repo now h).reachable hs).2
  · obtain ⟨hr, ht⟩ := hleft r hrepo s p hs hp
    refine ⟨hr, ht, fun s' q hs' hq => ?_⟩
    obtain ⟨hr', ht'⟩ := hleft r hrepo s' q hs' hq
    exact ht.unique hr hr' ht'

/-- Two objects share a chunk. The first, which is due, uses it twice, and one more by itself. -/
def Sample.collectable : Db :=
  { Db.empty with
    objects := ⟨[⟨1, ⟨10⟩, 4, ⟨.v1, .fastCdcV1, ⟨10⟩, 4, []⟩⟩, ⟨1, ⟨11⟩, 1, ⟨.v1, .fastCdcV1, ⟨11⟩, 1, []⟩⟩],
      by decide⟩
    chunks := ⟨[⟨1, ⟨20⟩, 1, 3⟩, ⟨1, ⟨21⟩, 2, 1⟩], by decide⟩
    objectChunks := ⟨[⟨1, ⟨10⟩, 0, ⟨20⟩, 0, 1⟩, ⟨1, ⟨10⟩, 1, ⟨21⟩, 1, 2⟩, ⟨1, ⟨10⟩, 2, ⟨20⟩, 3, 1⟩,
      ⟨1, ⟨11⟩, 0, ⟨20⟩, 0, 1⟩], by decide⟩
    tombstones := ⟨[⟨1, ⟨10⟩, 5⟩, ⟨1, ⟨11⟩, 9⟩], by decide⟩ }

theorem Sample.collectable_countable : Sample.collectable.Countable where
  counts := by
    unfold CountsOk
    decide
  rowChunk := by
    unfold Table.HasKey
    decide
  tombstone := by
    unfold Table.HasKey
    decide

/-- At time 7 the loop of a run leaves the shared chunk with one use and queues the other. -/
theorem collect_due_exact_shared :
    ∃ s, (collectorLoops (fun _ : Unit => 1) 7 Sample.collectable).Reachable s ∧
      (s.deleted.filter fun x => x.1 = 1).Perm [(1, ⟨10⟩)] ∧
      s.db.chunks.get? (1, ⟨20⟩) = some ⟨1, ⟨20⟩, 1, 1⟩ ∧
      s.db.queue.get? (1, ⟨20⟩) = none ∧ s.db.queue.get? (1, ⟨21⟩) = some ⟨1, ⟨21⟩, 7⟩ := by
  obtain ⟨hexact, -, hleft⟩ := collect_due_exact (fun _ : Unit => 1) 7 Sample.collectable_countable
  obtain ⟨ls, s, hrun, hdone⟩ :=
    (hexact ⟨Sample.collectable, fun _ => false, []⟩ ⟨_, [], rfl, .nil _⟩).ends ()
  have hs : (collectorLoops (fun _ : Unit => 1) 7 Sample.collectable).Reachable s :=
    ⟨_, ls, rfl, hrun.of_guard⟩
  obtain ⟨-, htally, -⟩ := hleft 1 (fun _ => rfl) s () hs hdone
  refine ⟨s, hs, (hexact s hs.of_guard).complete () hdone, ?_, ?_, ?_⟩
  · rw [htally.chunks]
    decide
  · rw [htally.queue]
    decide
  · rw [htally.queue]
    decide

end GitLfsDelta
