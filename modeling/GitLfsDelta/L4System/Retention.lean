import Mathlib.Data.Prod.Lex
import GitLfsDelta.L4System.Evidence

/-!
# The history of a deletion

The journal of a run lists what its operator sees of collection: snapshots submitted, objects
published, what each `stage` run proposed and staged, and objects deleted. `Allowed` says what the
journal so far lets happen next, in terms of the journal alone: a proposal rests on the two newest
snapshots, a staging on the proposal of the same run, and a deletion on a staging that no earlier
deletion of the object has used up and whose grace period is over.

* `chronicle_kept`: the journal of every run consists of allowed entries, and the `objects` table
  is what it says.
* `deletion_announced`: so behind every deletion stand two snapshots that omit the object, a
  proposal made on their strength, and the whole grace period its run was started with.
-/
namespace GitLfsDelta

/-! ## Journals -/

/-- A snapshot as `submit_snapshot` recorded it. -/
structure Submission where
  repositoryId : Uuid
  epoch : Uuid
  completedAt : Nat
  oids : List ObjectOid
  deriving DecidableEq, Repr

/-- The sort key of its epoch. -/
def Submission.rank (x : Submission) : Nat ×ₗ Nat := toLex (x.completedAt, x.epoch.toNat)

inductive RetentionEvent (ι : Type)
  | submitted (x : Submission)
  | published (r : Uuid) (oid : ObjectOid)
  /-- A `stage` run with this grace period, after its `dry_run`. -/
  | proposed (p : ι) (r : Uuid) (seconds : Nat) (oids : List ObjectOid)
  /-- The same run wrote these tombstones. -/
  | staged (p : ι) (r : Uuid) (seconds : Nat) (oids : List ObjectOid) (time : Nat)
  | deleted (r : Uuid) (oid : ObjectOid) (time : Nat)
  deriving DecidableEq, Repr

/-- The `stage` run an entry belongs to. -/
def RetentionEvent.run? {ι : Type} : RetentionEvent ι → Option ι
  | .proposed p .. | .staged p .. => some p
  | _ => none

/-- The clock reading an entry carries. -/
def RetentionEvent.time? {ι : Type} : RetentionEvent ι → Option Nat
  | .submitted x => some x.completedAt
  | .staged _ _ _ _ time => some time
  | .deleted _ _ time => some time
  | _ => none

abbrev Journal (ι : Type) := List (RetentionEvent ι)

variable {ι : Type}

/-- The entries delete no object under this key. -/
def Undeleted (j : Journal ι) (r : Uuid) (oid : ObjectOid) : Prop := ∀ time, .deleted r oid time ∉ j

/-- Published, and not deleted since. -/
def PresentIn (j : Journal ι) (r : Uuid) (oid : ObjectOid) : Prop :=
  ∃ a b, j = a ++ .published r oid :: b ∧ Undeleted b r oid

/-- `x` and `y` are the two newest snapshots of the repository. -/
structure NewestIn (j : Journal ι) (r : Uuid) (x y : Submission) : Prop where
  left : .submitted x ∈ j ∧ x.repositoryId = r
  right : .submitted y ∈ j ∧ y.repositoryId = r
  different : x.epoch ≠ y.epoch
  newest : ∀ z, .submitted z ∈ j → z.repositoryId = r →
    z.epoch = x.epoch ∨ z.epoch = y.epoch ∨ z.rank < x.rank ∧ z.rank < y.rank

/-- The run has proposed these objects and staged nothing since. -/
def ProposedBy (j : Journal ι) (p : ι) (r : Uuid) (seconds : Nat) (oids : List ObjectOid) : Prop :=
  ∃ a b, j = a ++ .proposed p r seconds oids :: b ∧ ∀ e ∈ b, e.run? ≠ some p

/-- Staged, not deleted since, and due at this time. -/
def DueIn (j : Journal ι) (r : Uuid) (oid : ObjectOid) (deadline : Nat) : Prop :=
  ∃ a p seconds oids time b, j = a ++ .staged p r seconds oids time :: b ∧ oid ∈ oids ∧
    Undeleted b r oid ∧ deadline = time + seconds * second

/-- What may come next in a journal. -/
def RetentionEvent.Allowed (j : Journal ι) : RetentionEvent ι → Prop
  | .submitted x => ∀ y, .submitted y ∈ j → y.epoch ≠ x.epoch
  | .published r oid => ¬ PresentIn j r oid
  | .proposed _ r _ oids => ∀ oid ∈ oids, PresentIn j r oid ∧
      ∃ x y, NewestIn j r x y ∧ oid ∉ x.oids ∧ oid ∉ y.oids
  | .staged p r seconds oids _ => ∃ cs, ProposedBy j p r seconds cs ∧ ∀ oid ∈ oids, oid ∈ cs
  | .deleted r oid time => PresentIn j r oid ∧ ∃ deadline ≤ time, DueIn j r oid deadline

/-- No entry carries a later time. -/
def TimedBy (j : Journal ι) (now : Nat) : Prop := ∀ e ∈ j, ∀ t, e.time? = some t → t ≤ now

section Append

variable {j : Journal ι} {e : RetentionEvent ι} {r : Uuid} {oid : ObjectOid} {p : ι}
  {seconds deadline : Nat} {oids : List ObjectOid}

/-- The last entry of a list, or one before it. -/
theorem snoc_cases {α : Type} {j a b : List α} {e x : α} (h : j ++ [e] = a ++ x :: b) :
    (a = j ∧ x = e ∧ b = []) ∨ ∃ c, j = a ++ x :: c ∧ b = c ++ [e] := by
  rcases List.eq_nil_or_concat b with rfl | ⟨c, y, rfl⟩
  · obtain ⟨rfl, hlast⟩ := List.append_inj' h rfl
    obtain ⟨rfl, -⟩ := List.cons.inj hlast
    exact .inl ⟨rfl, rfl, rfl⟩
  · rw [List.concat_eq_append, ← List.cons_append, ← List.append_assoc] at h
    obtain ⟨hj, hlast⟩ := List.append_inj' h rfl
    obtain ⟨rfl, -⟩ := List.cons.inj hlast
    exact .inr ⟨c, hj, List.concat_eq_append⟩

theorem undeleted_snoc :
    Undeleted (j ++ [e]) r oid ↔ Undeleted j r oid ∧ ∀ time, e ≠ .deleted r oid time := by
  constructor
  · intro h
    refine ⟨fun t ht => h t (List.mem_append_left _ ht), ?_⟩
    rintro t rfl
    exact h t (by simp)
  · intro h t ht
    rcases List.mem_append.1 ht with ht | ht
    · exact h.1 t ht
    · exact h.2 t (List.mem_singleton.1 ht).symm

theorem presentIn_snoc : PresentIn (j ++ [e]) r oid ↔
    e = .published r oid ∨ PresentIn j r oid ∧ ∀ time, e ≠ .deleted r oid time := by
  constructor
  · intro h
    obtain ⟨a, b, hj, hb⟩ := h
    rcases snoc_cases hj with ⟨-, rfl, -⟩ | ⟨c, rfl, rfl⟩
    · exact .inl rfl
    · obtain ⟨hc, he⟩ := undeleted_snoc.1 hb
      exact .inr ⟨⟨a, c, rfl, hc⟩, he⟩
  · intro h
    rcases h with rfl | ⟨⟨a, b, rfl, hb⟩, he⟩
    · exact ⟨j, [], rfl, fun _ => List.not_mem_nil⟩
    · exact ⟨a, b ++ [e], by simp, undeleted_snoc.2 ⟨hb, he⟩⟩

theorem DueIn.snoc (h : DueIn j r oid deadline) (he : ∀ time, e ≠ .deleted r oid time) :
    DueIn (j ++ [e]) r oid deadline := by
  obtain ⟨a, p, seconds, oids, time, b, rfl, hmem, hb, hd⟩ := h
  exact ⟨a, p, seconds, oids, time, b ++ [e], by simp, hmem, undeleted_snoc.2 ⟨hb, he⟩, hd⟩

theorem ProposedBy.snoc (h : ProposedBy j p r seconds oids) (he : e.run? ≠ some p) :
    ProposedBy (j ++ [e]) p r seconds oids := by
  obtain ⟨a, b, rfl, hb⟩ := h
  refine ⟨a, b ++ [e], by simp, fun x hx => ?_⟩
  rcases List.mem_append.1 hx with hx | hx
  · exact hb x hx
  · exact List.mem_singleton.1 hx ▸ he

end Append

/-! ## The journal of a run -/

/-- The key is new in the second table. -/
def Appears {ρ κ : Type} {key : ρ → κ} [DecidableEq κ] (t t' : Table key) (k : κ) : Prop :=
  t.get? k = none ∧ t'.get? k ≠ none

instance {ρ κ : Type} {key : ρ → κ} [DecidableEq κ] [DecidableEq ρ] (t t' : Table key) (k : κ) :
    Decidable (Appears t t' k) := by
  unfold Appears; infer_instance

/-- The objects that have a tombstone now and had none before. -/
def newlyStaged (db db' : Db) : List ObjectOid :=
  (db'.tombstones.rows.filter fun t => db.tombstones.get? t.key = none).map (·.objectOid)

/-- The entry of a move of process `p`. -/
def retentionOf (p : ι) (w : Shared) (q : Proc) (a : Action) (w' : Shared) (q' : Proc) :
    Option (RetentionEvent ι) :=
  match a with
  | .kill => none
  | .start (.submitSnapshot r _ oids epoch) =>
    if Appears w.db.epochs w'.db.epochs epoch then some (.submitted ⟨r, epoch, w.clock, oids⟩)
    else none
  | .start (.stage r seconds) =>
    match q' with
    | .staging _ _ candidates _ => some (.proposed p r seconds (candidates.map (·.oid)))
    | _ => none
  | .start _ => none
  | .next .auto =>
    match q with
    | .basic r _ m [] | .verifying r _ _ m [] _ =>
      if Appears w.db.objects w'.db.objects (r, m.objectOid) then some (.published r m.objectOid)
      else none
    | .staging r seconds _ _ =>
      if newlyStaged w.db w'.db = [] then none
      else some (.staged p r seconds (newlyStaged w.db w'.db) w.clock)
    | _ => none
  | .next (.tombstone oid) =>
    match q with
    | .collecting r _ =>
      if Appears w'.db.objects w.db.objects (r, oid) then some (.deleted r oid w.clock) else none
    | _ => none
  | .next (.listing _) => none

/-- The entry of a step. -/
def retentionEvent (s : State ι) (l : Label ι) (s' : State ι) : Option (RetentionEvent ι) :=
  match l with
  | .advance _ => none
  | .act p a => retentionOf p s.toShared (s.procs p) a s'.toShared (s'.procs p)

/-- A `stage` run between its `dry_run` and its transaction. -/
def Proc.Staging : Proc → Prop
  | .staging .. => True
  | _ => False

/-- What a move of process `p` does to what the journal is about, with its entry. -/
inductive Retained (p : ι) (w : Shared) (q : Proc) (w' : Shared) (q' : Proc) :
    Option (RetentionEvent ι) → Prop
  | quiet : (∀ k, w'.db.objects.HasKey k ↔ w.db.objects.HasKey k) → w'.db.epochs = w.db.epochs →
      w'.db.reachable = w.db.reachable → (∀ t ∈ w'.db.tombstones, t ∈ w.db.tombstones) →
      ¬ q'.Staging → Retained p w q w' q' none
  | submitted {r epoch fp oids} : w'.db.objects = w.db.objects →
      w'.db.tombstones = w.db.tombstones → w.db.epochs.get? epoch = none →
      (∀ e, e ∈ w'.db.epochs ↔ e ∈ w.db.epochs ∨ e = ⟨epoch, r, fp, true, some w.clock⟩) →
      (∀ x, x ∈ w'.db.reachable ↔ x ∈ w.db.reachable ∨ x.epochId = epoch ∧ x.objectOid ∈ oids) →
      ¬ q'.Staging → Retained p w q w' q' (some (.submitted ⟨r, epoch, w.clock, oids⟩))
  | published {r oid} : ¬ w.db.objects.HasKey (r, oid) →
      (∀ k, w'.db.objects.HasKey k ↔ w.db.objects.HasKey k ∨ k = (r, oid)) →
      w'.db.epochs = w.db.epochs → w'.db.reachable = w.db.reachable →
      w'.db.tombstones = w.db.tombstones → ¬ q'.Staging →
      Retained p w q w' q' (some (.published r oid))
  | proposed {r seconds ev} : w' = w → q' = .staging r seconds (dryRun w.db r) ev →
      Retained p w q w' q' (some (.proposed p r seconds ((dryRun w.db r).map (·.oid))))
  | staged {r seconds cs ev oids} : q = .staging r seconds cs ev →
      w'.db.objects = w.db.objects → w'.db.epochs = w.db.epochs →
      w'.db.reachable = w.db.reachable → (∀ oid ∈ oids, ∃ c ∈ cs, c.oid = oid) →
      (∀ t ∈ w'.db.tombstones, t ∈ w.db.tombstones ∨ t.repositoryId = r ∧ t.objectOid ∈ oids ∧
        t.deleteAfter = w.clock + seconds * second) →
      ¬ q'.Staging → Retained p w q w' q' (some (.staged p r seconds oids w.clock))
  | deleted {r oid} : w.db.objects.HasKey (r, oid) →
      (∃ t ∈ w.db.tombstones, t.key = (r, oid) ∧ t.deleteAfter ≤ w.clock) →
      (∀ k, w'.db.objects.HasKey k ↔ w.db.objects.HasKey k ∧ k ≠ (r, oid)) →
      (∀ t ∈ w'.db.tombstones, t ∈ w.db.tombstones ∧ t.key ≠ (r, oid)) →
      w'.db.epochs = w.db.epochs → w'.db.reachable = w.db.reachable → ¬ q'.Staging →
      Retained p w q w' q' (some (.deleted r oid w.clock))

theorem not_appears {ρ κ : Type} {key : ρ → κ} [DecidableEq κ] (t : Table key) (k : κ) :
    ¬ Appears t t k := fun h => h.2 h.1

theorem mem_newlyStaged {db db' : Db} {oid : ObjectOid} : oid ∈ newlyStaged db db' ↔
    ∃ t ∈ db'.tombstones, db.tombstones.get? t.key = none ∧ t.objectOid = oid := by
  simp [newlyStaged, Table.mem_rows, and_assoc]

theorem newlyStaged_same {db db' : Db} (h : db'.tombstones = db.tombstones) :
    newlyStaged db db' = [] := by
  refine List.eq_nil_iff_forall_not_mem.2 fun oid hoid => ?_
  obtain ⟨t, ht, hnone, -⟩ := mem_newlyStaged.1 hoid
  exact Table.get?_none.1 hnone t (h ▸ ht) rfl

section Turns

variable {H : Hashes} {cut : Cutter} {now : Nat} {p : ι} {w w' : Shared} {q q' : Proc} {a : Action}

theorem retentionOf_quiet (hO : w'.db.objects = w.db.objects) (hE : w'.db.epochs = w.db.epochs)
    (hT : w'.db.tombstones = w.db.tombstones) (hq : ¬ q'.Staging) :
    retentionOf p w q a w' q' = none := by
  unfold retentionOf
  rw [hO, hE, newlyStaged_same hT]
  cases a with
  | kill => rfl
  | start request =>
    cases request with
    | submitSnapshot => exact if_neg (not_appears _ _)
    | stage =>
      cases q' with
      | staging => exact absurd trivial hq
      | _ => rfl
    | _ => rfl
  | next choice =>
    cases choice with
    | auto =>
      simp only [not_appears, if_false, if_true]
      split <;> rfl
    | tombstone =>
      simp only [not_appears, if_false]
      split <;> rfl
    | listing => rfl

theorem retained_quiet (hO : w'.db.objects = w.db.objects) (hE : w'.db.epochs = w.db.epochs)
    (hR : w'.db.reachable = w.db.reachable) (hT : w'.db.tombstones = w.db.tombstones)
    (hq : ¬ q'.Staging) : Retained p w q w' q' (retentionOf p w q a w' q') := by
  rw [retentionOf_quiet hO hE hT hq]
  exact .quiet (fun k => by rw [hO]) hE hR (fun t ht => hT ▸ ht) hq

/-- What `publish_manifest` does to the keys of `objects`. -/
theorem publishManifest_keys {db db' : Db} {r u : Uuid} {m : ObjectManifest} {b : Bool}
    (h : publishManifest db now r u m = .ok (b, db')) (k : Uuid × ObjectOid) :
    db'.objects.HasKey k ↔ db.objects.HasKey k ∨ Appears db.objects db'.objects (r, m.objectOid) ∧
      k = (r, m.objectOid) := by
  obtain ⟨hold, hnew⟩ := publishManifest_objects h
  constructor
  · intro hk
    obtain ⟨o, ho, rfl⟩ := hk
    rcases hnew o ho with ho' | ⟨rfl, hnone, -⟩
    · exact .inl ⟨o, ho', rfl⟩
    · exact .inr ⟨⟨hnone, Table.get?_ne_none.2 ⟨_, ho, rfl⟩⟩, rfl⟩
  · intro hk
    rcases hk with ⟨o, ho, rfl⟩ | ⟨happ, rfl⟩
    · exact ⟨o, hold o ho, rfl⟩
    · exact Table.get?_ne_none.1 happ.2

theorem publish_retained {r u : Uuid} {m : ObjectManifest} {b : Bool} {db : Db} {n : Nat}
    (hq : q = .basic r u m [] ∨ ∃ oid hashed, q = .verifying r oid u m [] hashed)
    (h : publishManifest w.db w.clock r u m = .ok (b, db)) :
    Retained p w q { w with db := db, logicalUploaded := n } (.done .noContent)
      (retentionOf p w q (.next .auto) { w with db := db, logicalUploaded := n }
        (.done .noContent)) := by
  have hevent : retentionOf p w q (.next .auto) { w with db := db, logicalUploaded := n }
      (.done .noContent) = if Appears w.db.objects db.objects (r, m.objectOid)
        then some (.published r m.objectOid) else none := by
    rcases hq with rfl | ⟨oid, hashed, rfl⟩ <;> rfl
  have hkeys := publishManifest_keys h
  obtain ⟨-, O, C, R, S, rfl⟩ := publishManifest_frame h
  rw [hevent]
  split
  · rename_i happ
    refine .published (fun hk => Table.get?_ne_none.2 hk happ.1) (fun k => ?_) rfl rfl rfl id
    rw [hkeys, and_iff_right happ]
  · rename_i happ
    refine .quiet (fun k => ?_) rfl rfl (fun _ ht => ht) id
    rw [hkeys]
    simp [happ]

/-- Every tombstone a `stage` run adds has its whole grace period before it. -/
theorem stageTombstones_deadline {r : Uuid} {seconds : Nat} : ∀ {cs : List GcCandidate} {db db' : Db},
    stageTombstones now r seconds cs db = .ok db' →
    ∀ t ∈ db'.tombstones, t ∈ db.tombstones ∨ t.deleteAfter = now + seconds * second
  | [], db, db', h => by
    cases h
    exact fun t ht => .inl ht
  | c :: cs, db, db', h => by
    unfold stageTombstones at h
    split at h; · cases h
    rename_i db₁ h₁
    intro t ht
    rcases stageTombstones_deadline h t ht with ht | hd
    · unfold Db.insertTombstone at h₁
      split at h₁
      · cases h₁
        exact .inl ht
      · split at h₁; · cases h₁
        cases h₁
        rcases Table.mem_insert.1 ht with ht | ⟨rfl, -⟩
        · exact .inl ht
        · exact .inr rfl
    · exact .inr hd

theorem stage_retained {r : Uuid} {seconds ev n : Nat} {cs : List GcCandidate} {db : Db}
    (h : stageTombstones w.clock r seconds cs w.db = .ok db) :
    Retained p w (.staging r seconds cs ev) { w with db := db } (.done (.admin n))
      (retentionOf p w (.staging r seconds cs ev) (.next .auto) { w with db := db }
        (.done (.admin n))) := by
  have hdeadline := stageTombstones_deadline h
  obtain ⟨⟨T, rfl⟩, -, hnew⟩ := stageTombstones_ok h
  simp only [retentionOf]
  split
  · rename_i hnone
    refine .quiet (fun k => .rfl) rfl rfl (fun t ht => ?_) id
    rcases hnew t ht with hold | ⟨hn, -, -⟩
    · exact hold
    · have hmem := mem_newlyStaged.2 ⟨t, ht, hn, rfl⟩
      rw [hnone] at hmem
      exact absurd hmem List.not_mem_nil
  · refine .staged rfl rfl rfl rfl (fun oid hoid => ?_) (fun t ht => ?_) id
    · obtain ⟨t, ht, hn, rfl⟩ := mem_newlyStaged.1 hoid
      rcases hnew t ht with hold | ⟨-, -, hc⟩
      · exact absurd rfl (Table.get?_none.1 hn t hold)
      · exact hc
    · rcases hnew t ht with hold | ⟨hn, hr, -⟩
      · exact .inl hold
      · rcases hdeadline t ht with hold | hd
        · exact .inl hold
        · exact .inr ⟨hr, mem_newlyStaged.2 ⟨t, ht, hn, rfl⟩, hd⟩

theorem collect_retained {r : Uuid} {n : Nat} {oid : ObjectOid} {db : Db}
    (hdue : NextDue w.db w.clock r oid) (h : collectObject w.db w.clock r oid = .ok db) :
    Retained p w (.collecting r n) { w with db := db } (.collecting r (n + 1))
      (retentionOf p w (.collecting r n) (.next (.tombstone oid)) { w with db := db }
        (.collecting r (n + 1))) := by
  obtain ⟨⟨C, Q, rfl⟩, -⟩ := collectObject_ok h
  have hkeys : ∀ k, (w.db.deleteObject r oid).objects.HasKey k ↔
      w.db.objects.HasKey k ∧ k ≠ (r, oid) := by
    intro k
    constructor
    · intro hk
      obtain ⟨o, ho, rfl⟩ := hk
      obtain ⟨ho, hp⟩ := Table.mem_deleteWhere.1 ho
      exact ⟨⟨o, ho, rfl⟩, fun e => by simp [Prod.mk.inj e] at hp⟩
    · intro hk
      refine hk.1.deleteWhere fun o ho => decide_eq_false fun hp => hk.2 ?_
      rw [← ho, ObjectRow.key, hp.1, hp.2]
  have htomb : ∀ t ∈ (w.db.deleteObject r oid).tombstones, t ∈ w.db.tombstones ∧ t.key ≠ (r, oid) := by
    intro t ht
    obtain ⟨ht, hp⟩ := Table.mem_deleteWhere.1 ht
    exact ⟨ht, fun e => by simp [Prod.mk.inj e] at hp⟩
  simp only [retentionOf]
  split
  · rename_i happ
    obtain ⟨t, ht, ⟨rfl, rfl⟩, hd, -⟩ := hdue
    exact .deleted (Table.get?_ne_none.1 happ.2) ⟨t, ht, rfl, hd⟩ hkeys htomb rfl rfl id
  · rename_i happ
    -- there was no row to delete
    have hnone : ¬ w.db.objects.HasKey (r, oid) := by
      intro hk
      refine happ ⟨?_, Table.get?_ne_none.2 hk⟩
      by_contra hne
      exact ((hkeys _).1 (Table.get?_ne_none.1 hne)).2 rfl
    refine .quiet (fun k => ?_) rfl rfl (fun t ht => (htomb t ht).1) id
    refine (hkeys k).trans (and_iff_left_of_imp ?_)
    rintro hk rfl
    exact hnone hk

/-- **What a turn does to a journal.** -/
theorem Turn.retained (h : Turn H cut now w q a w' q') (p : ι) :
    Retained p w q w' q' (retentionOf p w q a w' q') := by
  cases h with
  | beginCdc _ _ hb =>
    obtain ⟨⟨S, rfl⟩, -⟩ := resumeOrCreate_ok (beginCdc_ok hb).2.2
    exact retained_quiet rfl rfl rfl rfl id
  | beginBasic _ _ _ _ hs =>
    obtain ⟨⟨S, rfl⟩, -⟩ := resumeOrCreate_ok hs
    exact retained_quiet rfl rfl rfl rfl id
  | @snapshot _ r fp oids epoch _ _ _ hs =>
    obtain ⟨⟨E, R, rfl⟩, hnone, hE, hR⟩ := submitSnapshot_ok hs
    have happ : Appears w.db.epochs E epoch :=
      ⟨hnone, Table.get?_ne_none.2 ⟨_, (hE _).2 (.inr rfl), rfl⟩⟩
    simp only [retentionOf, if_pos happ]
    exact .submitted rfl rfl hnone hE hR id
  | dryRun _ => exact .proposed rfl rfl
  | @reclaim _ r grace n =>
    obtain ⟨S, L, Q, hS, -⟩ := reclaimSessions_spec w.db w.clock r grace
    rw [hS]
    exact retained_quiet rfl rfl rfl rfl id
  | register _ hr =>
    obtain ⟨⟨C, L, rfl⟩, -⟩ := registerChunk_ok hr
    exact retained_quiet rfl rfl rfl rfl id
  | basicRegister _ hr =>
    obtain ⟨⟨C, L, rfl⟩, -⟩ := registerChunk_ok hr
    exact retained_quiet rfl rfl rfl rfl id
  | publish hq _ hp => exact publish_retained hq hp
  | stage hs => exact stage_retained hs
  | collect hdue _ hc => exact collect_retained hdue hc
  | commit hc =>
    obtain ⟨rfl, -⟩ := drainCommit_ok hc
    exact retained_quiet rfl rfl rfl rfl id
  | _ => exact retained_quiet rfl rfl rfl rfl id

end Turns

/-! ## What the tables say of the journal -/

/-- The epoch of the snapshot, with what it lists. -/
def Records (db : Db) (x : Submission) : Prop :=
  ∃ e ∈ db.epochs, e.id = x.epoch ∧ e.repositoryId = x.repositoryId ∧ e.complete = true ∧
    e.completedAt = some x.completedAt ∧ ∀ oid, Lists db e oid ↔ oid ∈ x.oids

/-- What the journal so far admits, no earlier than what it holds. -/
def Admits (j : Journal ι) (e : RetentionEvent ι) : Prop :=
  e.Allowed j ∧ ∀ t, e.time? = some t → TimedBy j t

/-- The database is what the journal says, and the journal is in order. -/
structure Chronicle (s : State ι) (j : Journal ι) : Prop where
  objects : ∀ r oid, s.db.objects.HasKey (r, oid) ↔ PresentIn j r oid
  submitted : ∀ x, .submitted x ∈ j → Records s.db x
  epochs : ∀ e ∈ s.db.epochs, ∃ x, .submitted x ∈ j ∧ x.epoch = e.id
  /-- `reachable_objects.epoch_id REFERENCES reachability_epochs`. -/
  listed : ∀ x ∈ s.db.reachable, s.db.epochs.HasKey x.epochId
  staging : ∀ p r seconds cs ev, s.procs p = .staging r seconds cs ev →
    ProposedBy j p r seconds (cs.map (·.oid))
  tombstones : ∀ t ∈ s.db.tombstones, DueIn j t.repositoryId t.objectOid t.deleteAfter
  timed : TimedBy j s.clock
  admitted : LTS.Admitted Admits j

section Newest

variable {db : Db} {r : Uuid} {a b e e' : EpochRow} {x y : Submission}

theorem latestEpochs_nodup (db : Db) (r : Uuid) : (latestEpochs db r).Nodup :=
  ((perm_by_rank _ _).nodup_iff.2 (completeEpochs_nodup db r)).sublist (List.take_sublist _ _)

theorem rank_lt_iff (he : e.completedAt = some x.completedAt) (hid : e.id = x.epoch)
    (he' : e'.completedAt = some y.completedAt) (hid' : e'.id = y.epoch) :
    e.rank < e'.rank ↔ x.rank < y.rank := by
  simp [EpochRow.rank, Submission.rank, Prod.Lex.toLex_lt_toLex, he, he', hid, hid']

/-- A superseded epoch is older than either of the two newest. -/
theorem Superseded.older (h : Superseded db r e) (ha : a ∈ latestEpochs db r) : e.rank < a.rank := by
  obtain ⟨u, v, hne, ⟨hu, hru⟩, hv, hrv⟩ := h
  by_contra hle
  have hle := not_lt.1 hle
  exact (mem_latestEpochs.1 ha).2
    ⟨u, v, hne, ⟨hu, lt_of_le_of_lt hle hru⟩, hv, lt_of_le_of_lt hle hrv⟩

end Newest

section Reading

variable {s : State ι} {j : Journal ι} {r : Uuid}

/-- The two epochs `dry_run` looks at are the two newest snapshots of the journal. -/
theorem Chronicle.newest (h : Chronicle s j) (hlen : (latestEpochs s.db r).length = 2) :
    ∃ x y, NewestIn j r x y ∧ ∀ oid, (∀ e ∈ latestEpochs s.db r, ¬ Lists s.db e oid) →
      oid ∉ x.oids ∧ oid ∉ y.oids := by
  obtain ⟨a, b, hab⟩ := List.length_eq_two.1 hlen
  have hnd := latestEpochs_nodup s.db r
  rw [hab] at hnd
  have hmem : ∀ e ∈ latestEpochs s.db r, ∃ x, .submitted x ∈ j ∧ x.epoch = e.id ∧
      x.repositoryId = r ∧ e.completedAt = some x.completedAt ∧ ∀ oid, Lists s.db e oid ↔ oid ∈ x.oids := by
    intro e he
    obtain ⟨⟨hee, hr, -⟩, -⟩ := mem_latestEpochs.1 he
    obtain ⟨x, hx, hid⟩ := h.epochs e hee
    obtain ⟨e', he', hid', hr', -, ht, hl⟩ := h.submitted x hx
    obtain rfl := Table.eq_of_key he' hee (hid'.trans hid)
    exact ⟨x, hx, hid, hr'.symm.trans hr, ht, hl⟩
  have ha : a ∈ latestEpochs s.db r := by simp [hab]
  have hb : b ∈ latestEpochs s.db r := by simp [hab]
  obtain ⟨x, hx, hxa, hxr, hxt, hxl⟩ := hmem a ha
  obtain ⟨y, hy, hyb, hyr, hyt, hyl⟩ := hmem b hb
  refine ⟨x, y, ⟨⟨hx, hxr⟩, ⟨hy, hyr⟩, fun e => ?_, fun z hz hzr => ?_⟩, fun oid homit => ?_⟩
  · have hkey : a = b := Table.eq_of_key (mem_latestEpochs.1 ha).1.1 (mem_latestEpochs.1 hb).1.1
      (hxa.symm.trans (e.trans hyb))
    simp [hkey] at hnd
  · obtain ⟨e, he, hid, hr, hc, ht, -⟩ := h.submitted z hz
    by_cases hlatest : e ∈ latestEpochs s.db r
    · rw [hab] at hlatest
      rcases List.mem_pair.1 hlatest with rfl | rfl
      · exact .inl (hid.symm.trans hxa.symm)
      · exact .inr (.inl (hid.symm.trans hyb.symm))
    · have hsup : Superseded s.db r e := by
        by_contra hns
        exact hlatest (mem_latestEpochs.2 ⟨⟨he, hr.trans hzr, hc⟩, hns⟩)
      exact .inr (.inr ⟨(rank_lt_iff ht hid hxt hxa.symm).1 (hsup.older ha),
        (rank_lt_iff ht hid hyt hyb.symm).1 (hsup.older hb)⟩)
  · exact ⟨fun hoid => homit a ha ((hxl oid).2 hoid), fun hoid => homit b hb ((hyl oid).2 hoid)⟩

end Reading

section Steps

variable [DecidableEq ι] {H : Hashes} {cut : Cutter} {s s' : State ι} {j : Journal ι} {p : ι}
  {w : Shared} {q : Proc} {e : RetentionEvent ι} {l : Label ι}

theorem Records.congr {db db' : Db} {x : Submission} (h : Records db x)
    (hE : db'.epochs = db.epochs) (hR : db'.reachable = db.reachable) : Records db' x := by
  unfold Records Lists at *
  rwa [hE, hR]

omit [DecidableEq ι] in
theorem TimedBy.mono {t t' : Nat} (h : TimedBy j t) (hle : t ≤ t') : TimedBy j t' :=
  fun e he u hu => (h e he u hu).trans hle

omit [DecidableEq ι] in
theorem TimedBy.snoc {t : Nat} (h : TimedBy j t) (he : ∀ u, e.time? = some u → u ≤ t) :
    TimedBy (j ++ [e]) t := by
  intro e' he'
  rcases List.mem_append.1 he' with he' | he'
  · exact h e' he'
  · obtain rfl := List.mem_singleton.1 he'
    exact he

/-- A `stage` run waits with its proposal while others add entries. -/
theorem Chronicle.staging_other (h : Chronicle s j) (he : e.run? ≠ none → e.run? = some p)
    {p' : ι} (hp : p' ≠ p) {r : Uuid} {seconds ev : Nat} {cs : List GcCandidate}
    (hq : (s.move p w q).procs p' = .staging r seconds cs ev) :
    ProposedBy (j ++ [e]) p' r seconds (cs.map (·.oid)) := by
  rw [move_procs, if_neg hp] at hq
  refine (h.staging p' r seconds cs ev hq).snoc fun hrun => ?_
  rw [he (by rw [hrun]; simp), Option.some.injEq] at hrun
  exact hp hrun.symm

theorem Chronicle.staging_kept (h : Chronicle s j) (hq : ¬ q.Staging)
    (he : e.run? ≠ none → e.run? = some p) : ∀ p' r seconds cs ev,
    (s.move p w q).procs p' = .staging r seconds cs ev →
    ProposedBy (j ++ [e]) p' r seconds (cs.map (·.oid)) := by
  intro p' r seconds cs ev hp'
  by_cases hp : p' = p
  · subst hp
    rw [move_procs_self] at hp'
    subst hp'
    exact absurd trivial hq
  · exact h.staging_other he hp hp'

/-- **A step keeps the chronicle.** -/
theorem Retained.chronicle {event : Option (RetentionEvent ι)}
    (h : Retained p s.toShared (s.procs p) w q event) (hclock : w.clock = s.clock)
    (hc : Chronicle s j) : Chronicle (s.move p w q) (j ++ event.toList) := by
  cases h with
  | quiet hO hE hR hT hq =>
    rw [Option.toList_none, List.append_nil]
    refine ⟨fun r oid => (hO _).trans (hc.objects r oid), fun x hx => (hc.submitted x hx).congr hE hR,
      hE ▸ hc.epochs, ?_, ?_, fun t ht => hc.tombstones t (hT t ht), hclock ▸ hc.timed, hc.admitted⟩
    · simp only [move_toShared, hE, hR]
      exact hc.listed
    · intro p' r seconds cs ev hp'
      rw [move_procs] at hp'
      split at hp'
      · subst hp'
        exact absurd trivial hq
      · exact hc.staging p' r seconds cs ev hp'
  | @submitted r epoch fp oids hO hT hnone hE hR hq =>
    rw [Option.toList_some]
    have hfresh : ∀ y, .submitted y ∈ j → y.epoch ≠ epoch := by
      intro y hy hid
      obtain ⟨e, he, hid', -⟩ := hc.submitted y hy
      exact Table.get?_none.1 hnone e he (hid'.trans hid)
    refine ⟨fun r' oid => ?_, fun x hx => ?_, fun e he => ?_, fun x hx => ?_,
      hc.staging_kept hq (by simp [RetentionEvent.run?]), fun t ht => ?_, ?_,
      hc.admitted.snoc ⟨hfresh, ?_⟩⟩
    · rw [presentIn_snoc]
      simp only [move_toShared, hO, hc.objects]
      simp
    · rcases List.mem_append.1 hx with hx | hx
      · obtain ⟨e, he, hid, hr', hcomp, ht, hl⟩ := hc.submitted x hx
        refine ⟨e, (hE e).2 (.inl he), hid, hr', hcomp, ht, fun oid => ?_⟩
        rw [← hl oid]
        refine (hR _).trans (or_iff_left ?_)
        rintro ⟨hid', -⟩
        exact hfresh x hx (hid.symm.trans hid')
      · obtain rfl := RetentionEvent.submitted.inj (List.mem_singleton.1 hx)
        refine ⟨_, (hE _).2 (.inr rfl), rfl, rfl, rfl, rfl, fun oid => (hR _).trans ?_⟩
        rw [and_iff_right rfl]
        refine or_iff_right fun hold => ?_
        exact Table.get?_ne_none.2 (hc.listed _ hold) hnone
    · rcases (hE e).1 he with he | rfl
      · obtain ⟨x, hx, hid⟩ := hc.epochs e he
        exact ⟨x, List.mem_append_left _ hx, hid⟩
      · exact ⟨_, List.mem_append_right _ (List.mem_singleton.2 rfl), rfl⟩
    · rcases (hR x).1 hx with hx | ⟨hid, -⟩
      · obtain ⟨e, he, hid⟩ := hc.listed x hx
        exact ⟨e, (hE e).2 (.inl he), hid⟩
      · exact ⟨_, (hE _).2 (.inr rfl), hid.symm⟩
    · exact (hc.tombstones t (hT ▸ ht)).snoc (by simp)
    · exact (hclock ▸ hc.timed).snoc (by simp [RetentionEvent.time?, hclock])
    · simpa [RetentionEvent.time?] using hc.timed
  | @published r oid hnone hO hE hR hT hq =>
    rw [Option.toList_some]
    refine ⟨fun r' oid' => ?_, fun x hx => ?_, fun e he => ?_, ?_,
      hc.staging_kept hq (by simp [RetentionEvent.run?]), fun t ht => ?_, ?_,
      hc.admitted.snoc ⟨fun hpres => hnone ((hc.objects r oid).2 hpres), ?_⟩⟩
    · rw [move_toShared, hO, presentIn_snoc, hc.objects]
      simp [or_comm, eq_comm]
    · exact (hc.submitted x (by simpa using hx)).congr hE hR
    · obtain ⟨x, hx, hid⟩ := hc.epochs e (hE ▸ he)
      exact ⟨x, List.mem_append_left _ hx, hid⟩
    · simp only [move_toShared, hE, hR]
      exact hc.listed
    · exact (hc.tombstones t (hT ▸ ht)).snoc (by simp)
    · exact (hclock ▸ hc.timed).snoc (by simp [RetentionEvent.time?])
    · simp [RetentionEvent.time?]
  | @proposed r seconds ev hw hq =>
    subst hw hq
    rw [Option.toList_some]
    refine ⟨fun r' oid' => ?_, fun x hx => hc.submitted x (by simpa using hx), fun e he => ?_,
      hc.listed, fun p' r' seconds' cs ev' hp' => ?_, fun t ht => ?_, ?_,
      hc.admitted.snoc ⟨?_, ?_⟩⟩
    · rw [move_toShared, hc.objects, presentIn_snoc]
      simp
    · obtain ⟨x, hx, hid⟩ := hc.epochs e he
      exact ⟨x, List.mem_append_left _ hx, hid⟩
    · by_cases hp : p' = p
      · subst hp
        rw [move_procs_self] at hp'
        cases hp'
        exact ⟨j, [], rfl, fun _ h => absurd h List.not_mem_nil⟩
      · exact hc.staging_other (fun _ => rfl) hp hp'
    · exact (hc.tombstones t ht).snoc (by simp)
    · exact hc.timed.snoc (by simp [RetentionEvent.time?])
    · intro oid hoid
      obtain ⟨c, hcm, rfl⟩ := List.mem_map.1 hoid
      obtain ⟨o, ho, rfl, ⟨hlen, homit, -⟩, rfl⟩ := mem_dryRun.1 hcm
      obtain ⟨x, y, hxy, hnone⟩ := hc.newest hlen
      exact ⟨(hc.objects _ _).1 ⟨o, ho, rfl⟩, x, y, hxy, hnone _ homit⟩
    · simp [RetentionEvent.time?]
  | @staged r seconds cs ev oids hq hO hE hR hoids hT hq' =>
    rw [Option.toList_some]
    have hprop := hc.staging p r seconds cs ev hq
    refine ⟨fun r' oid' => ?_, fun x hx => ?_, fun e he => ?_, ?_,
      hc.staging_kept hq' (by simp [RetentionEvent.run?]), fun t ht => ?_, ?_,
      hc.admitted.snoc ⟨⟨_, hprop, fun oid hoid => ?_⟩, ?_⟩⟩
    · rw [move_toShared, hO, hc.objects, presentIn_snoc]
      simp
    · exact (hc.submitted x (by simpa using hx)).congr hE hR
    · obtain ⟨x, hx, hid⟩ := hc.epochs e (hE ▸ he)
      exact ⟨x, List.mem_append_left _ hx, hid⟩
    · simp only [move_toShared, hE, hR]
      exact hc.listed
    · rcases hT t ht with ht | ⟨rfl, hoid, hd⟩
      · exact (hc.tombstones t ht).snoc (by simp)
      · exact ⟨j, p, seconds, oids, s.clock, [], rfl, hoid, fun _ => List.not_mem_nil, hd⟩
    · exact (hclock ▸ hc.timed).snoc (by simp [RetentionEvent.time?, hclock])
    · obtain ⟨c, hcm, rfl⟩ := hoids oid hoid
      exact List.mem_map_of_mem hcm
    · simpa [RetentionEvent.time?] using hc.timed
  | @deleted r oid hkey hdue hO hT hE hR hq =>
    rw [Option.toList_some]
    refine ⟨fun r' oid' => ?_, fun x hx => ?_, fun e he => ?_, ?_,
      hc.staging_kept hq (by simp [RetentionEvent.run?]), fun t ht => ?_, ?_,
      hc.admitted.snoc ⟨⟨(hc.objects r oid).1 hkey, ?_⟩, ?_⟩⟩
    · rw [move_toShared, hO, presentIn_snoc, hc.objects, or_iff_right (by simp)]
      refine and_congr_right fun _ => ⟨?_, ?_⟩
      · rintro hne time he
        cases he
        exact hne rfl
      · rintro hne he
        cases he
        exact hne _ rfl
    · exact (hc.submitted x (by simpa using hx)).congr hE hR
    · obtain ⟨x, hx, hid⟩ := hc.epochs e (hE ▸ he)
      exact ⟨x, List.mem_append_left _ hx, hid⟩
    · simp only [move_toShared, hE, hR]
      exact hc.listed
    · obtain ⟨ht, hne⟩ := hT t ht
      refine (hc.tombstones t ht).snoc fun time h => hne ?_
      cases h
      rfl
    · exact (hclock ▸ hc.timed).snoc (by simp [RetentionEvent.time?, hclock])
    · obtain ⟨t, ht, hk, hle⟩ := hdue
      obtain ⟨rfl, rfl⟩ := Prod.mk.inj hk
      exact ⟨t.deleteAfter, hle, hc.tombstones t ht⟩
    · simpa [RetentionEvent.time?] using hc.timed

theorem Chronicle.step (hc : Chronicle s j) (h : step H cut s l = some s') :
    Chronicle s' (j ++ (retentionEvent s l s').toList) := by
  rcases step_cases h with ⟨δ, rfl, rfl⟩ | ⟨p, a, w, q, rfl, ht, rfl⟩
  · simp only [retentionEvent, Option.toList_none, List.append_nil]
    exact ⟨hc.objects, hc.submitted, hc.epochs, hc.listed, hc.staging, hc.tombstones,
      hc.timed.mono (Nat.le_add_right _ _), hc.admitted⟩
  · have hr := ht.retained p
    simp only [retentionEvent, move_toShared, move_procs_self]
    exact hr.chronicle ht.clock hc

/-- **The journal tells the whole story.** -/
theorem chronicle_kept (H : Hashes) (cut : Cutter) :
    ((server H cut : LTS (State ι) (Label ι)).record retentionEvent).Inductive
      fun x => Chronicle x.1 x.2 where
  init := by
    rintro ⟨s, j⟩ ⟨⟨t, rfl⟩, rfl⟩
    refine ⟨fun r oid => ⟨?_, ?_⟩, fun x hx => ?_, fun e he => ?_, fun x hx => ?_,
      fun p r seconds cs ev hp => ?_, fun t ht => ?_, fun e he => ?_, .nil⟩
    · rintro ⟨o, ho, -⟩
      exact absurd ho (Table.not_mem_empty o)
    · rintro ⟨a, b, h, -⟩
      simp at h
    · cases hx
    · exact absurd he (Table.not_mem_empty e)
    · exact absurd hx (Table.not_mem_empty x)
    · cases hp
    · exact absurd ht (Table.not_mem_empty t)
    · cases he
  step := by
    rintro ⟨s, j⟩ l ⟨s', j'⟩ hc ⟨hst, hj⟩
    simp only at hst hj
    rw [hj]
    exact Chronicle.step hc hst

omit [DecidableEq ι] in
/-- The two snapshots, the proposal and the staging behind a deletion. -/
theorem Chronicle.behind (hc : Chronicle s j) {a b : Journal ι} {r : Uuid} {oid : ObjectOid}
    {time : Nat} (hj : j = a ++ .deleted r oid time :: b) :
    ∃ p seconds cs oids staged a₁ a₂ a₃ x y,
      a = a₁ ++ .proposed p r seconds cs :: (a₂ ++ .staged p r seconds oids staged :: a₃) ∧
      (oid ∈ cs ∧ PresentIn a₁ r oid ∧ NewestIn a₁ r x y ∧ oid ∉ x.oids ∧ oid ∉ y.oids) ∧
      (oid ∈ oids ∧ ∀ e ∈ a₂, e.run? ≠ some p) ∧
      (PresentIn a r oid ∧ Undeleted a₃ r oid) ∧
      x.completedAt ≤ staged ∧ y.completedAt ≤ staged ∧ staged + seconds * second ≤ time := by
  obtain ⟨⟨hpres, deadline, hle, hdue⟩, -⟩ := hc.admitted.entry hj
  obtain ⟨a', p, seconds, oids, staged, a₃, rfl, hoid, hun, rfl⟩ := hdue
  -- the staging, and then the proposal of its run
  rw [List.append_assoc, List.cons_append] at hj
  obtain ⟨⟨cs, ⟨a₁, a₂, rfl, hrun⟩, hsub⟩, htimed⟩ := hc.admitted.entry hj
  rw [List.append_assoc, List.cons_append] at hj
  obtain ⟨hprop, -⟩ := hc.admitted.entry hj
  obtain ⟨hthere, x, y, hxy, hx, hy⟩ := hprop oid (hsub oid hoid)
  have hbefore := htimed staged rfl
  refine ⟨p, seconds, cs, oids, staged, a₁, a₂, a₃, x, y, by simp,
    ⟨hsub oid hoid, hthere, hxy, hx, hy⟩, ⟨hoid, hrun⟩, ⟨hpres, hun⟩, ?_, ?_, hle⟩
  · exact hbefore _ (List.mem_append_left _ hxy.left.1) _ rfl
  · exact hbefore _ (List.mem_append_left _ hxy.right.1) _ rfl

/-- **What stands behind a deletion.** The `objects` table is what the journal of the run says;
and before every deletion in it lie, in this order: two snapshots, the newest of the repository
at the time, that omit the object although it is there; the proposal of a `stage` run made on
their strength; the staging of that same run, which no other deletion of the object has used;
and the grace period the run was started with. -/
theorem deletion_announced (H : Hashes) (cut : Cutter) (s : State ι) (j : Journal ι)
    (hr : ((server H cut).record retentionEvent).Reachable (s, j)) :
    (∀ r oid, s.db.objects.get? (r, oid) ≠ none ↔ PresentIn j r oid) ∧
    ∀ a r oid time b, j = a ++ .deleted r oid time :: b →
      ∃ p seconds cs oids staged a₁ a₂ a₃ x y,
        a = a₁ ++ .proposed p r seconds cs :: (a₂ ++ .staged p r seconds oids staged :: a₃) ∧
        (oid ∈ cs ∧ PresentIn a₁ r oid ∧ NewestIn a₁ r x y ∧ oid ∉ x.oids ∧ oid ∉ y.oids) ∧
        (oid ∈ oids ∧ ∀ e ∈ a₂, e.run? ≠ some p) ∧
        (PresentIn a r oid ∧ Undeleted a₃ r oid) ∧
        x.completedAt ≤ staged ∧ y.completedAt ≤ staged ∧ staged + seconds * second ≤ time := by
  have hc := (chronicle_kept H cut).reachable hr
  exact ⟨fun r oid => Table.get?_ne_none.trans (hc.objects r oid),
    fun a r oid time b hj => hc.behind hj⟩

end Steps

namespace Sample

/-- Byte `a` is published; two snapshots omit it; it is staged for a second and collected when
the second is over. -/
def collected : List (Label Unit) :=
  uploads () 1 7 [0x61] ++
    [.act () (.start (.submitSnapshot 1 "" [] 8)), .act () (.start (.submitSnapshot 1 "" [] 9)),
     .act () (.start (.stage 1 1)), .act () (.next .auto), .advance 1000000,
     .act () (.start (.collectDue 1)), .act () (.next (.tombstone (hashes.sha256 [0x61])))]

end Sample

open Sample in
/-- The journal of a publication, a staging with a grace of one second, and a deletion. -/
theorem deletion_announced_once : ∃ (s : State Unit) (a : Journal Unit),
    ((server hashes Sample.cut).record retentionEvent).Reachable
      (s, a ++ [.deleted 1 (hashes.sha256 [0x61]) 1000000]) ∧
    ∃ p seconds cs a₁ b x y, a = a₁ ++ .proposed p 1 seconds cs :: b ∧ NewestIn a₁ 1 x y ∧
      hashes.sha256 [0x61] ∉ x.oids ∧ hashes.sha256 [0x61] ∉ y.oids ∧
      x.completedAt + seconds * 1000000 ≤ 1000000 := by
  obtain ⟨⟨s, j⟩, hr, hj⟩ : ∃ x : State Unit × Journal Unit,
      ((server hashes Sample.cut).record retentionEvent).Reachable x ∧
      x.2 = [.published 1 (hashes.sha256 [0x61]), .submitted ⟨1, 8, 0, []⟩,
        .submitted ⟨1, 9, 0, []⟩, .proposed () 1 1 [hashes.sha256 [0x61]],
        .staged () 1 1 [hashes.sha256 [0x61]] 0] ++ [.deleted 1 (hashes.sha256 [0x61]) 1000000] :=
    LTS.exists_recorded_of_exec collected ⟨0, rfl⟩ (by decide +kernel)
  simp only at hj
  subst hj
  obtain ⟨p, seconds, cs, oids, staged, a₁, a₂, a₃, x, y, ha, ⟨-, -, hxy, hx, hy⟩, -, -, ht, -, hle⟩ :=
    (deletion_announced hashes Sample.cut s _ hr).2 _ _ _ _ [] rfl
  exact ⟨s, _, hr, p, seconds, cs, a₁, _, x, y, ha, hxy, hx, hy,
    (Nat.add_le_add_right ht _).trans hle⟩

end GitLfsDelta
