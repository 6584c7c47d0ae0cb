import GitLfsDelta.L4System.Invariant

/-!
# The evidence behind a deletion

`dry_run` proposes an object that the two newest complete epochs omit; `stage` writes a
tombstone and `collect_due` deletes the object when the tombstone is due, without looking
at the epochs again. What a tombstone still proves at that moment is `Settled`: every
epoch recorded before its `dry_run` either omits the object or has two newer epochs.

* `collect_unlisted_iff`: the object a `collect_due` transaction deletes is absent from
  both newest epochs exactly if no snapshot recorded since the `dry_run`, and still among
  the two newest, lists it. `collect_deletes_listed` is a run where one does.
* `dryRun_fresh_iff`: `dry_run` proposes only objects older than both newest epochs
  exactly if every younger object is listed by one of them or has a tombstone.
  `dryRun_proposes_newer` is a run where an upload follows two snapshots.

"Before" and "after" are the order of steps (`History`), not of the database clock: two
epochs may carry one timestamp, and are then ordered by id.
-/
namespace GitLfsDelta

/-! ## The two newest epochs -/

section Latest

variable {db : Db} {r : Uuid} {e : EpochRow} {oid : ObjectOid}

/-- A complete epoch of the repository. -/
def Db.Complete (db : Db) (r : Uuid) (e : EpochRow) : Prop :=
  e ∈ db.epochs ∧ e.repositoryId = r ∧ e.complete = true

theorem mem_completeEpochs : e ∈ completeEpochs db r ↔ db.Complete r e := by
  simp [completeEpochs, Db.Complete, Table.mem_rows]

theorem rank_injective {a b : EpochRow} (h : a.rank = b.rank) : a.id = b.id := by
  have := congrArg (fun x => (ofLex x).2) h
  exact BitVec.eq_of_toNat_eq this

theorem completeEpochs_nodup (db : Db) (r : Uuid) : (completeEpochs db r).Nodup :=
  db.epochs.rows_nodup.filter _

theorem completeEpochs_ranks (db : Db) (r : Uuid) : ((completeEpochs db r).map EpochRow.rank).Nodup := by
  refine List.Nodup.map_on ?_ (completeEpochs_nodup db r)
  intro a ha b hb hab
  exact Table.eq_of_key (mem_completeEpochs.1 ha).1 (mem_completeEpochs.1 hb).1 (rank_injective hab)

/-- Two different complete epochs outrank `e`. -/
def Superseded (db : Db) (r : Uuid) (e : EpochRow) : Prop :=
  ∃ a b, a ≠ b ∧ (db.Complete r a ∧ e.rank < a.rank) ∧ db.Complete r b ∧ e.rank < b.rank

theorem superseded_iff :
    Superseded db r e ↔ 2 ≤ (completeEpochs db r).countP fun y => e.rank < y.rank := by
  rw [List.countP_eq_length_filter]
  constructor
  · intro hs
    obtain ⟨a, b, hne, ⟨ha, hra⟩, hb, hrb⟩ := hs
    refine two_le_length (a := a) (b := b) ?_ ?_ hne
    · exact List.mem_filter.2 ⟨mem_completeEpochs.2 ha, by simpa using hra⟩
    · exact List.mem_filter.2 ⟨mem_completeEpochs.2 hb, by simpa using hrb⟩
  · intro h
    obtain ⟨a, ha, b, hb, hne⟩ := exists_pair_of_two_le ((completeEpochs_nodup db r).filter _) h
    obtain ⟨ha, hra⟩ := List.mem_filter.1 ha
    obtain ⟨hb, hrb⟩ := List.mem_filter.1 hb
    exact ⟨a, b, hne, ⟨mem_completeEpochs.1 ha, by simpa using hra⟩, mem_completeEpochs.1 hb,
      by simpa using hrb⟩

/-- The two newest complete epochs are the ones not superseded. -/
theorem mem_latestEpochs : e ∈ latestEpochs db r ↔ db.Complete r e ∧ ¬ Superseded db r e := by
  rw [latestEpochs, mem_newest (completeEpochs_ranks db r), mem_completeEpochs, superseded_iff,
    Nat.not_le]

theorem length_latestEpochs :
    (latestEpochs db r).length = 2 ↔ ∃ a b, a ≠ b ∧ db.Complete r a ∧ db.Complete r b := by
  rw [latestEpochs, length_newest, min_eq_left_iff]
  constructor
  · intro h
    obtain ⟨a, ha, b, hb, hne⟩ := exists_pair_of_two_le (completeEpochs_nodup db r) h
    exact ⟨a, b, hne, mem_completeEpochs.1 ha, mem_completeEpochs.1 hb⟩
  · intro hs
    obtain ⟨a, b, hne, ha, hb⟩ := hs
    exact two_le_length (mem_completeEpochs.2 ha) (mem_completeEpochs.2 hb) hne

theorem mem_dryRun {c : GcCandidate} :
    c ∈ dryRun db r ↔ ∃ o ∈ db.objects, o.repositoryId = r ∧ Proposable db o ∧ c = ⟨o.oid, o.size⟩ := by
  simp only [dryRun, List.mem_map, (List.perm_insertionSort _ _).mem_iff, List.mem_filter,
    Table.mem_rows, decide_eq_true_eq]
  constructor
  · intro h
    obtain ⟨o, ⟨ho, hr, hp⟩, rfl⟩ := h
    exact ⟨o, ho, hr, hp, rfl⟩
  · intro h
    obtain ⟨o, ho, hr, hp, rfl⟩ := h
    exact ⟨o, ⟨ho, hr, hp⟩, rfl⟩

end Latest

/-! ## What each step does to epochs, objects and tombstones -/

variable {H : Hashes} {cut : Cutter} {now : Nat} {w w' : Shared} {q q' : Proc}

/-- Epochs change only by a snapshot, which adds one and leaves the others alone. -/
theorem Effect.epochs (h : Effect H w w') :
    (w'.db.epochs = w.db.epochs ∧ w'.db.reachable = w.db.reachable) ∨
    w'.db.objects = w.db.objects ∧ ∃ epoch r fp, ∃ oids : List ObjectOid,
      epoch ∈ w'.issued ∧ w.db.epochs.get? epoch = none ∧
      (∀ e, e ∈ w'.db.epochs ↔ e ∈ w.db.epochs ∨ e = ⟨epoch, r, fp, true, some w.clock⟩) ∧
      ∀ x, x ∈ w'.db.reachable ↔ x ∈ w.db.reachable ∨ x.epochId = epoch ∧ x.objectOid ∈ oids := by
  cases h with
  | session _ hs =>
    obtain ⟨⟨S, rfl⟩, -⟩ := resumeOrCreate_ok hs
    exact .inl ⟨rfl, rfl⟩
  | register _ hr =>
    obtain ⟨⟨C, L, rfl⟩, -⟩ := registerChunk_ok hr
    exact .inl ⟨rfl, rfl⟩
  | publish _ hp =>
    obtain ⟨-, O, C, R, S, rfl⟩ := publishManifest_frame hp
    exact .inl ⟨rfl, rfl⟩
  | snapshot _ hs =>
    obtain ⟨⟨E, R, rfl⟩, hnone, hE, hR⟩ := submitSnapshot_ok hs
    exact .inr ⟨rfl, _, _, _, _, List.mem_cons_self, hnone, hE, hR⟩
  | stage hs =>
    obtain ⟨⟨T, rfl⟩, -⟩ := stageTombstones_ok hs
    exact .inl ⟨rfl, rfl⟩
  | collect _ hc =>
    obtain ⟨⟨C, Q, rfl⟩, -⟩ := collectObject_ok hc
    exact .inl ⟨rfl, rfl⟩
  | @reclaim r grace =>
    obtain ⟨S, L, Q, hS, -⟩ := reclaimSessions_spec w.db w.clock r grace
    simp only [hS]
    exact .inl ⟨trivial, trivial⟩
  | commit _ hc =>
    obtain ⟨rfl, -⟩ := drainCommit_ok hc
    exact .inl ⟨rfl, rfl⟩
  | _ => exact .inl ⟨rfl, rfl⟩

/-- A new tombstone is one that a `stage` run writes for a candidate of its `dry_run`. -/
theorem Turn.tombstones {a : Action} (h : Turn H cut now w q a w' q') : ∀ t ∈ w'.db.tombstones,
    t ∈ w.db.tombstones ∨ w.db.tombstones.get? t.key = none ∧
      ∃ sec cs ev, q = .staging t.repositoryId sec cs ev ∧ ∃ c ∈ cs, c.oid = t.objectOid := by
  intro t ht
  cases h with
  | beginCdc _ _ hb =>
    obtain ⟨⟨S, rfl⟩, -⟩ := resumeOrCreate_ok (beginCdc_ok hb).2.2
    exact .inl ht
  | beginBasic _ _ _ _ hs =>
    obtain ⟨⟨S, rfl⟩, -⟩ := resumeOrCreate_ok hs
    exact .inl ht
  | snapshot _ _ hs =>
    obtain ⟨⟨E, R, rfl⟩, -⟩ := submitSnapshot_ok hs
    exact .inl ht
  | @reclaim _ r grace =>
    obtain ⟨S, L, Q, hS, -⟩ := reclaimSessions_spec w.db w.clock r grace
    simp only [hS] at ht
    exact .inl ht
  | register _ hr =>
    obtain ⟨⟨C, L, rfl⟩, -⟩ := registerChunk_ok hr
    exact .inl ht
  | basicRegister _ hr =>
    obtain ⟨⟨C, L, rfl⟩, -⟩ := registerChunk_ok hr
    exact .inl ht
  | publish _ _ hp =>
    obtain ⟨-, O, C, R, S, rfl⟩ := publishManifest_frame hp
    exact .inl ht
  | stage hs =>
    obtain ⟨-, -, hnew⟩ := stageTombstones_ok hs
    rcases hnew t ht with ht | ⟨hn, rfl, hc⟩
    · exact .inl ht
    · exact .inr ⟨hn, _, _, _, rfl, hc⟩
  | collect _ _ hc =>
    obtain ⟨⟨C, Q, rfl⟩, -⟩ := collectObject_ok hc
    exact .inl (Table.mem_deleteWhere.1 ht).1
  | commit hc =>
    obtain ⟨rfl, -⟩ := drainCommit_ok hc
    exact .inl ht
  | _ => exact .inl ht

/-- A process is staging only what its own `dry_run` proposed. -/
theorem Turn.staging {a : Action} {r : Uuid} {sec ev : Nat} {cs : List GcCandidate}
    (h : Turn H cut now w q a w' (.staging r sec cs ev)) :
    w' = w ∧ cs = GitLfsDelta.dryRun w.db r ∧ ev = now := by
  cases h; exact ⟨rfl, rfl, rfl⟩

/-- An object row disappears only under a due tombstone of its own. -/
theorem Turn.objects_removed {a : Action} (h : Turn H cut now w q a w' q') {o : ObjectRow}
    (ho : o ∈ w.db.objects) (hgone : o ∉ w'.db.objects) :
    ∃ t ∈ w.db.tombstones, t.repositoryId = o.repositoryId ∧ t.objectOid = o.oid := by
  rcases h.objects with hsame | ⟨r, u, m, b, -, hp, -⟩ | ⟨r, oid, hdue, hdel⟩
  · exact absurd (hsame ▸ ho) hgone
  · exact absurd ((publishManifest_objects hp).1 o ho) hgone
  · obtain ⟨t, ht, ⟨hr, hoid⟩, -⟩ := hdue
    have hsame : o.repositoryId = r ∧ o.oid = oid := by
      by_contra hne
      rw [hdel] at hgone
      exact hgone (Table.mem_deleteWhere.2 ⟨ho, by simpa using hne⟩)
    exact ⟨t, ht, hr.trans hsame.1.symm, hoid.trans hsame.2.symm⟩

/-! ## The invariant -/

variable {ι : Type} [DecidableEq ι] {s s' : State ι} {l : Label ι}

/-- What a `dry_run` at step `ev` proves about an object for good: two epochs exist, and
every epoch recorded before it either omits the object or has been superseded. -/
structure Settled (db : Db) (hist : History) (r : Uuid) (oid : ObjectOid) (ev : Nat) : Prop where
  past : ev ≤ hist.now
  pair : ∃ a b, a ≠ b ∧ db.Complete r a ∧ db.Complete r b
  omitted : ∀ e, db.Complete r e → hist.recorded e.id < ev → Lists db e oid → Superseded db r e

structure EvidenceInv (s : State ι) : Prop where
  /-- Rows are stamped with past steps, and no step records an epoch and publishes. -/
  recorded : ∀ e ∈ s.db.epochs, s.hist.recorded e.id < s.hist.now
  published : ∀ o ∈ s.db.objects, s.hist.published o.repositoryId o.oid < s.hist.now
  distinct : ∀ o ∈ s.db.objects, ∀ e ∈ s.db.epochs,
    s.hist.published o.repositoryId o.oid ≠ s.hist.recorded e.id
  staging : ∀ p r sec cs ev, s.procs p = .staging r sec cs ev →
    ∀ c ∈ cs, Settled s.db s.hist r c.oid ev
  tombstone : ∀ t ∈ s.db.tombstones, Settled s.db s.hist t.repositoryId t.objectOid
    (s.hist.evidence t.repositoryId t.objectOid)

section Stamps

variable {ρ κ : Type} {key : ρ → κ} [DecidableEq κ] {t t' : Table key} {x : ρ} {n m : Nat}

theorem stamp_old (h : x ∈ t) : stamp t t' (key x) n m = m := by
  unfold stamp
  rw [Table.get?_some.2 ⟨h, rfl⟩]
  simp

theorem stamp_new (hn : t.get? (key x) = none) (h : x ∈ t') : stamp t t' (key x) n m = n := by
  unfold stamp
  rw [hn, Table.get?_some.2 ⟨h, rfl⟩]
  simp

end Stamps

section After

variable {h : History} {ev : Nat} {db db' : Db}

theorem after_recorded_old {e : EpochRow} (he : e ∈ db.epochs) :
    (h.after ev db db').recorded e.id = h.recorded e.id := stamp_old he

theorem after_recorded_new {e : EpochRow} (hn : db.epochs.get? e.id = none) (he : e ∈ db'.epochs) :
    (h.after ev db db').recorded e.id = h.now := stamp_new hn he

theorem after_published_old {o : ObjectRow} (ho : o ∈ db.objects) :
    (h.after ev db db').published o.repositoryId o.oid = h.published o.repositoryId o.oid :=
  stamp_old ho

theorem after_published_new {o : ObjectRow} (hn : db.objects.get? o.key = none)
    (ho : o ∈ db'.objects) : (h.after ev db db').published o.repositoryId o.oid = h.now :=
  stamp_new hn ho

theorem after_evidence_old {t : TombstoneRow} (ht : t ∈ db.tombstones) :
    (h.after ev db db').evidence t.repositoryId t.objectOid = h.evidence t.repositoryId t.objectOid :=
  stamp_old ht

theorem after_evidence_new {t : TombstoneRow} (hn : db.tombstones.get? t.key = none)
    (ht : t ∈ db'.tombstones) : (h.after ev db db').evidence t.repositoryId t.objectOid = ev :=
  stamp_new hn ht

end After

/-- Later snapshots take nothing away from what a `dry_run` settled. -/
theorem Settled.after {hist : History} {r : Uuid} {oid : ObjectOid} {ev x : Nat}
    (hs : Settled w.db hist r oid ev) (h : Effect H w w') :
    Settled w'.db (hist.after x w.db w'.db) r oid ev := by
  have hpast : ev ≤ (hist.after x w.db w'.db).now := Nat.le_succ_of_le hs.past
  rcases h.epochs with ⟨hE, hR⟩ | ⟨-, epoch, r₁, fp, oids, -, hnone, hE, hR⟩
  · refine ⟨hpast, ?_, fun e he hrec hl => ?_⟩
    · have := hs.pair
      simpa only [Db.Complete, hE] using this
    · simp only [Db.Complete, Superseded, Lists, hE, hR] at *
      rw [after_recorded_old he.1] at hrec
      exact hs.omitted e he hrec hl
  · have hmono : ∀ e, w.db.Complete r e → w'.db.Complete r e :=
      fun e he => ⟨(hE e).2 (.inl he.1), he.2⟩
    refine ⟨hpast, ?_, fun e he hrec hl => ?_⟩
    · obtain ⟨a, b, hne, ha, hb⟩ := hs.pair
      exact ⟨a, b, hne, hmono a ha, hmono b hb⟩
    · rcases (hE e).1 he.1 with hold | rfl
      · rw [after_recorded_old hold] at hrec
        have hl' : Lists w.db e oid := by
          rcases (hR _).1 hl with hl | ⟨hid, -⟩
          · exact hl
          · exact absurd hid (Table.get?_none.1 hnone e hold)
        obtain ⟨a, b, hne, ⟨ha, hra⟩, hb, hrb⟩ := hs.omitted e ⟨hold, he.2⟩ hrec hl'
        exact ⟨a, b, hne, ⟨hmono a ha, hra⟩, hmono b hb, hrb⟩
      · -- the new epoch is recorded now, not before `ev`
        rw [after_recorded_new hnone he.1] at hrec
        have := hs.past
        omega

/-- What `dry_run` proposes is settled at that moment. -/
theorem settled_dryRun {db : Db} {hist : History} {r : Uuid} {c : GcCandidate}
    (h : c ∈ dryRun db r) : Settled db hist r c.oid hist.now := by
  obtain ⟨o, ho, rfl, ⟨hlen, homit, -⟩, rfl⟩ := mem_dryRun.1 h
  refine ⟨le_refl _, length_latestEpochs.1 hlen, fun e he _ hl => ?_⟩
  by_contra hns
  exact homit e (mem_latestEpochs.2 ⟨he, hns⟩) hl

theorem Effect.objects (h : Effect H w w') : ∀ o ∈ w'.db.objects,
    o ∈ w.db.objects ∨ w.db.objects.get? o.key = none ∧ w'.db.epochs = w.db.epochs := by
  intro o ho
  cases h with
  | session _ hs =>
    obtain ⟨⟨S, rfl⟩, -⟩ := resumeOrCreate_ok hs
    exact .inl ho
  | register _ hr =>
    obtain ⟨⟨C, L, rfl⟩, -⟩ := registerChunk_ok hr
    exact .inl ho
  | publish _ hp =>
    rcases (publishManifest_objects hp).2 o ho with ho | ⟨rfl, hnone, -⟩
    · exact .inl ho
    · obtain ⟨-, O, C, R, S, rfl⟩ := publishManifest_frame hp
      exact .inr ⟨hnone, rfl⟩
  | snapshot _ hs =>
    obtain ⟨⟨E, R, rfl⟩, -⟩ := submitSnapshot_ok hs
    exact .inl ho
  | stage hs =>
    obtain ⟨⟨T, rfl⟩, -⟩ := stageTombstones_ok hs
    exact .inl ho
  | collect _ hc =>
    obtain ⟨⟨C, Q, rfl⟩, -⟩ := collectObject_ok hc
    exact .inl (Table.mem_deleteWhere.1 ho).1
  | @reclaim r grace =>
    obtain ⟨S, L, Q, hS, -⟩ := reclaimSessions_spec w.db w.clock r grace
    simp only [hS] at ho
    exact .inl ho
  | commit _ hc =>
    obtain ⟨rfl, -⟩ := drainCommit_ok hc
    exact .inl ho
  | _ => exact .inl ho

/-- The stamps of a step: old rows keep theirs, new rows get the step's number. -/
theorem stamps_step {hist : History} {x : Nat} (h : Effect H w w')
    (hrec : ∀ e ∈ w.db.epochs, hist.recorded e.id < hist.now)
    (hpub : ∀ o ∈ w.db.objects, hist.published o.repositoryId o.oid < hist.now)
    (hne : ∀ o ∈ w.db.objects, ∀ e ∈ w.db.epochs,
      hist.published o.repositoryId o.oid ≠ hist.recorded e.id) :
    (∀ e ∈ w'.db.epochs, (hist.after x w.db w'.db).recorded e.id < hist.now + 1) ∧
    (∀ o ∈ w'.db.objects, (hist.after x w.db w'.db).published o.repositoryId o.oid < hist.now + 1) ∧
    ∀ o ∈ w'.db.objects, ∀ e ∈ w'.db.epochs,
      (hist.after x w.db w'.db).published o.repositoryId o.oid ≠
        (hist.after x w.db w'.db).recorded e.id := by
  have hepoch : ∀ e ∈ w'.db.epochs, e ∈ w.db.epochs ∨
      (hist.after x w.db w'.db).recorded e.id = hist.now ∧ w'.db.objects = w.db.objects := by
    intro e he
    rcases h.epochs with ⟨hE, -⟩ | ⟨hO, epoch, r, fp, oids, -, hnone, hE, -⟩
    · exact .inl (hE ▸ he)
    · rcases (hE e).1 he with he' | rfl
      · exact .inl he'
      · exact .inr ⟨after_recorded_new hnone he, hO⟩
  have hobj : ∀ o ∈ w'.db.objects, o ∈ w.db.objects ∨
      (hist.after x w.db w'.db).published o.repositoryId o.oid = hist.now ∧
        w'.db.epochs = w.db.epochs := by
    intro o ho
    rcases h.objects o ho with ho' | ⟨hn, hE⟩
    · exact .inl ho'
    · exact .inr ⟨after_published_new hn ho, hE⟩
  refine ⟨fun e he => ?_, fun o ho => ?_, fun o ho e he => ?_⟩
  · rcases hepoch e he with he' | ⟨hnow, -⟩
    · rw [after_recorded_old he']; have := hrec e he'; omega
    · omega
  · rcases hobj o ho with ho' | ⟨hnow, -⟩
    · rw [after_published_old ho']; have := hpub o ho'; omega
    · omega
  · rcases hobj o ho with ho' | ⟨hnow, hE⟩
    · rw [after_published_old ho']
      rcases hepoch e he with he' | ⟨hnow', -⟩
      · rw [after_recorded_old he']; exact hne o ho' e he'
      · have := hpub o ho'; omega
    · -- a publishing step adds no epoch
      rw [hE] at he
      rw [hnow, after_recorded_old he]
      have := hrec e he
      omega

theorem evidenceInv_step (ho : Owned s) (hi : EvidenceInv s) (h : step H cut s l = some s') :
    EvidenceInv s' := by
  have heff := step_effect ho h
  rcases step_cases h with ⟨δ, -, rfl⟩ | ⟨p, a, w, q, -, ht, rfl⟩
  · obtain ⟨h₁, h₂, h₃⟩ := stamps_step (x := 0) heff hi.recorded hi.published hi.distinct
    refine ⟨h₁, h₂, h₃, fun p r sec cs ev hp c hc => ?_, fun t htm => ?_⟩
    · exact (hi.staging p r sec cs ev hp c hc).after heff
    · have hset := (hi.tombstone t htm).after (x := 0) heff
      rwa [← after_evidence_old (h := s.hist) htm] at hset
  · obtain ⟨h₁, h₂, h₃⟩ :=
      stamps_step (x := (s.procs p).evidence) heff hi.recorded hi.published hi.distinct
    refine ⟨h₁, h₂, h₃, fun p' r sec cs ev hp c hc => ?_, fun t htm => ?_⟩
    · rw [move_procs] at hp
      split at hp
      · subst hp
        obtain ⟨rfl, rfl, rfl⟩ := ht.staging
        exact (settled_dryRun hc).after heff
      · exact (hi.staging p' r sec cs ev hp c hc).after heff
    · rcases ht.tombstones t htm with hold | ⟨hn, sec, cs, ev, hq, c, hc, hoid⟩
      · have hset := (hi.tombstone t hold).after (x := (s.procs p).evidence) heff
        rwa [← after_evidence_old (h := s.hist) hold] at hset
      · have hset := (hi.staging p _ sec cs ev hq c hc).after (x := (s.procs p).evidence) heff
        rw [hoid] at hset
        have hev : (s.move p w q).hist.evidence t.repositoryId t.objectOid = ev := by
          apply (after_evidence_new hn htm).trans
          rw [hq]; rfl
        rw [hev]; exact hset

theorem server_evidence (H : Hashes) (cut : Cutter) :
    (server H cut : LTS (State ι) (Label ι)).Inductive
      fun s => (Owned s ∧ SharedInv H s.toShared) ∧ EvidenceInv s := by
  refine (server_inv H cut).of_known ?_ fun s l s' hJ hi hst => evidenceInv_step hJ.1 hi hst
  intro s hs
  obtain ⟨t, rfl⟩ := hs
  refine ⟨fun e he => ?_, fun o ho => ?_, fun o ho => ?_, fun _ _ _ _ _ h => ?_, fun t ht => ?_⟩
  · exact absurd he (Table.not_mem_empty e)
  · exact absurd ho (Table.not_mem_empty o)
  · exact absurd ho (Table.not_mem_empty o)
  · cases h
  · exact absurd ht (Table.not_mem_empty t)

/-! ## Deletion -/

/-- **What a deletion rests on.** A step that removes the `objects` row of `oid` removes an
object absent from both newest complete epochs exactly if those of them that were recorded
since the `dry_run` behind its tombstone do not list it: what older epochs say is settled. -/
theorem collect_unlisted_iff (H : Hashes) (cut : Cutter) (s s' : State ι) (l : Label ι) (r : Uuid)
    (oid : ObjectOid) (hr : (server H cut).Reachable s) (hst : (server H cut).step s l s')
    (hdel : s.db.objects.get? (r, oid) ≠ none ∧ s'.db.objects.get? (r, oid) = none) :
    ((latestEpochs s.db r).length = 2 ∧ ∀ e ∈ latestEpochs s.db r, ¬ Lists s.db e oid) ↔
      ∀ e ∈ latestEpochs s.db r, s.hist.evidence r oid ≤ s.hist.recorded e.id →
        ¬ Lists s.db e oid := by
  obtain ⟨o, ho⟩ := Option.ne_none_iff_exists'.1 hdel.1
  obtain ⟨hom, hokey⟩ := Table.get?_some.1 ho
  obtain ⟨rfl, rfl⟩ := Prod.mk.inj hokey
  have hgone : o ∉ s'.db.objects := fun h => Table.get?_none.1 hdel.2 o h rfl
  have htomb : ∃ t ∈ s.db.tombstones, t.repositoryId = o.repositoryId ∧ t.objectOid = o.oid := by
    rcases step_cases hst with ⟨δ, -, rfl⟩ | ⟨p, a, w, q, -, ht, rfl⟩
    · exact absurd hom hgone
    · exact ht.objects_removed hom hgone
  obtain ⟨t, ht, htr, hto⟩ := htomb
  have hset := ((server_evidence H cut).reachable hr).2.tombstone t ht
  rw [htr, hto] at hset
  constructor
  · rintro ⟨-, hall⟩ e he -
    exact hall e he
  · intro hnew
    refine ⟨length_latestEpochs.2 hset.pair, fun e he hl => ?_⟩
    obtain ⟨hc, hns⟩ := mem_latestEpochs.1 he
    rcases Nat.lt_or_ge (s.hist.recorded e.id) (s.hist.evidence o.repositoryId o.oid) with hlt | hge
    · exact hns (hset.omitted e hc hlt hl)
    · exact hnew e he hge hl

namespace Sample

/-- Byte `a` is published; two snapshots omit it; it is staged with no grace; a third
snapshot lists it again; `collect_due` starts. -/
def staleTombstone : List (Label (Fin 1)) :=
  uploads 0 1 7 [0x61] ++
    [.act 0 (.start (.submitSnapshot 1 "" [] 8)), .act 0 (.start (.submitSnapshot 1 "" [] 9)),
     .act 0 (.start (.stage 1 0)), .act 0 (.next .auto), .advance 1,
     .act 0 (.start (.submitSnapshot 1 "" [hashes.sha256 [0x61]] 10)),
     .act 0 (.start (.collectDue 1))]

/-- The `collect_due` transaction of the object of byte `a`. -/
def collects : Label (Fin 1) := .act 0 (.next (.tombstone (hashes.sha256 [0x61])))

end Sample

open Sample in
/-- The deleted object is listed by the newest complete epoch. -/
theorem collect_deletes_listed :
    ∃ s s' : State (Fin 1), (server hashes Sample.cut).Reachable s ∧
      (server hashes Sample.cut).step s collects s' ∧
      (s.db.objects.get? (1, hashes.sha256 [0x61]) ≠ none ∧
        s'.db.objects.get? (1, hashes.sha256 [0x61]) = none) ∧
      ∃ e ∈ latestEpochs s.db 1, Lists s.db e (hashes.sha256 [0x61]) := by
  obtain ⟨s, hs, hstep, hlist⟩ : ∃ s : State (Fin 1), (server hashes Sample.cut).Reachable s ∧
      ((step hashes Sample.cut s collects).any fun s' =>
        s.db.objects.get? (1, hashes.sha256 [0x61]) ≠ none ∧
          s'.db.objects.get? (1, hashes.sha256 [0x61]) = none) = true ∧
      ∃ e ∈ latestEpochs s.db 1, Lists s.db e (hashes.sha256 [0x61]) :=
    LTS.exists_reachable_of_exec staleTombstone ⟨0, rfl⟩ (by decide +kernel)
  obtain ⟨s', hs', hdel⟩ := (Option.any_eq_true _ _).1 hstep
  exact ⟨s, s', hs, hs', by simpa using hdel, hlist⟩

open Sample in
/-- Without the third snapshot the deletion meets the condition. -/
theorem collect_unlisted_iff_holds :
    ∃ s s' : State (Fin 1), (server hashes Sample.cut).Reachable s ∧
      (server hashes Sample.cut).step s collects s' ∧
      ∀ e ∈ latestEpochs s.db 1, ¬ Lists s.db e (hashes.sha256 [0x61]) := by
  obtain ⟨s, hs, hstep, hcond⟩ : ∃ s : State (Fin 1), (server hashes Sample.cut).Reachable s ∧
      ((step hashes Sample.cut s collects).any fun s' =>
        s.db.objects.get? (1, hashes.sha256 [0x61]) ≠ none ∧
          s'.db.objects.get? (1, hashes.sha256 [0x61]) = none) = true ∧
      ∀ e ∈ latestEpochs s.db 1, s.hist.evidence 1 (hashes.sha256 [0x61]) ≤ s.hist.recorded e.id →
        ¬ Lists s.db e (hashes.sha256 [0x61]) :=
    LTS.exists_reachable_of_exec (staleTombstone.eraseIdx 14) ⟨0, rfl⟩ (by decide +kernel)
  obtain ⟨s', hs', hdel⟩ := (Option.any_eq_true _ _).1 hstep
  have hdel : s.db.objects.get? (1, hashes.sha256 [0x61]) ≠ none ∧
      s'.db.objects.get? (1, hashes.sha256 [0x61]) = none := by simpa using hdel
  have := (collect_unlisted_iff hashes Sample.cut s s' collects 1 _ hs hs' hdel).2 hcond
  exact ⟨s, s', hs, hs', this.2⟩

/-! ## Proposal -/

/-- **When proposals are old enough.** Everything `dry_run` proposes was published before
both newest complete epochs were recorded, and is omitted by both, exactly if every object
published after one of the two is listed by one of them or has a tombstone already. -/
theorem dryRun_fresh_iff (H : Hashes) (cut : Cutter) (s : State ι) (r : Uuid)
    (hr : (server H cut).Reachable s) :
    (∀ c ∈ dryRun s.db r, ∀ e ∈ latestEpochs s.db r,
      s.hist.published r c.oid < s.hist.recorded e.id ∧ ¬ Lists s.db e c.oid) ↔
    ((latestEpochs s.db r).length = 2 → ∀ o ∈ s.db.objects, o.repositoryId = r →
      (∃ e ∈ latestEpochs s.db r, s.hist.recorded e.id < s.hist.published r o.oid) →
      (∃ e ∈ latestEpochs s.db r, Lists s.db e o.oid) ∨
        ∃ t ∈ s.db.tombstones, t.repositoryId = r ∧ t.objectOid = o.oid) := by
  have hi := ((server_evidence H cut).reachable hr).2
  constructor
  · rintro h hlen o ho rfl hs
    obtain ⟨e, he, hlt⟩ := hs
    by_contra hno
    rw [not_or] at hno
    have htomb : s.db.tombstones.get? (o.repositoryId, o.oid) = none :=
      Table.get?_none.2 fun t ht e => hno.2 ⟨t, ht, Prod.mk.inj e⟩
    have hprop : Proposable s.db o := ⟨hlen, fun e he hl => hno.1 ⟨e, he, hl⟩, htomb⟩
    have := (h _ (mem_dryRun.2 ⟨o, ho, rfl, hprop, rfl⟩) e he).1
    exact absurd hlt (Nat.lt_asymm this)
  · intro h c hc e he
    obtain ⟨o, ho, rfl, ⟨hlen, homit, htomb⟩, rfl⟩ := mem_dryRun.1 hc
    refine ⟨?_, homit e he⟩
    -- not before, and not in the same step: after
    by_contra hnlt
    have hnlt : ¬ s.hist.published o.repositoryId o.oid < s.hist.recorded e.id := hnlt
    have hne := hi.distinct o ho e (mem_latestEpochs.1 he).1.1
    have hlt : s.hist.recorded e.id < s.hist.published o.repositoryId o.oid := by omega
    rcases h hlen o ho rfl ⟨e, he, hlt⟩ with ⟨e', he', hl⟩ | ⟨t, ht, htr, hto⟩
    · exact homit e' he' hl
    · exact Table.get?_none.1 htomb t ht (Prod.ext htr hto)

open Sample in
/-- Two snapshots, then an upload: `dry_run` proposes the new object at once. -/
theorem dryRun_proposes_newer :
    ∃ s : State (Fin 1), (server hashes Sample.cut).Reachable s ∧
      ∃ c ∈ dryRun s.db 1, ∀ e ∈ latestEpochs s.db 1,
        s.hist.recorded e.id < s.hist.published 1 c.oid :=
  LTS.exists_reachable_of_exec ([.act 0 (.start (.submitSnapshot 1 "" [] 8)),
    .act 0 (.start (.submitSnapshot 1 "" [] 9))] ++ uploads 0 1 7 [0x61]) ⟨0, rfl⟩
    (by decide +kernel)

open Sample in
/-- An upload, then two snapshots that omit it: the proposal is sound. -/
theorem dryRun_fresh_iff_old :
    ∃ s : State (Fin 1), (server hashes Sample.cut).Reachable s ∧ dryRun s.db 1 ≠ [] ∧
      ∀ c ∈ dryRun s.db 1, ∀ e ∈ latestEpochs s.db 1,
        s.hist.published 1 c.oid < s.hist.recorded e.id ∧ ¬ Lists s.db e c.oid := by
  obtain ⟨s, hs, hne, hcond⟩ : ∃ s : State (Fin 1), (server hashes Sample.cut).Reachable s ∧
      dryRun s.db 1 ≠ [] ∧ ∀ o ∈ s.db.objects, ∀ e ∈ latestEpochs s.db 1,
        ¬ s.hist.recorded e.id < s.hist.published 1 o.oid :=
    LTS.exists_reachable_of_exec (uploads 0 1 7 [0x61] ++
      [.act 0 (.start (.submitSnapshot 1 "" [] 8)), .act 0 (.start (.submitSnapshot 1 "" [] 9))])
      ⟨0, rfl⟩ (by decide +kernel)
  refine ⟨s, hs, hne, (dryRun_fresh_iff hashes Sample.cut s 1 hs).2 ?_⟩
  rintro - o ho - ⟨e, he, hlt⟩
  exact absurd hlt (hcond o ho e he)

end GitLfsDelta
