import GitLfsDelta.L3Server.Pointers
import GitLfsDelta.L4System.Evidence

/-!
# Reconciliation: from the listed blobs to a snapshot

`reconcile` submits what the scan found, or nothing. The rows of `reachable_objects` belong to
epochs, and an epoch's id is fresh (`SnapshotInv`, of every reachable state), so the only
way to break their primary key is to list one OID twice.

* `insertReachable_nodup`: without repetition the rows of a fresh epoch go in.
* `pointers_fail_closed`: the parse reads every blob or fails, misses no pointer, and what
  it returns is always accepted.
-/
namespace GitLfsDelta

/-- mirrors crates/git-lfs-delta-server/src/bin/git-lfs-delta-admin.rs:143-162, the errors -/
inductive ReconcileError
  | scan (e : ScanError)
  | database (e : DbError)
  deriving DecidableEq, Repr

/-- The command, given what the scan returned.
mirrors crates/git-lfs-delta-server/src/bin/git-lfs-delta-admin.rs:143-162 -/
def reconcile (db : Db) (now : Nat) (r : Uuid) (scanned : Except ScanError ReachabilityScan)
    (newId : Uuid) : Except ReconcileError Db :=
  match scanned with
  | .error e => .error (.scan e)
  | .ok scan =>
    match submitSnapshot db now r scan.refFingerprint scan.reachableObjects newId with
    | .error e => .error (.database e)
    | .ok db => .ok db

/-! ## Rows of a fresh epoch -/

theorem insertReachable_nodup {epoch : Uuid} {oids : List ObjectOid} : ∀ {db : Db}, oids.Nodup →
    (∀ oid ∈ oids, db.reachable.get? ⟨epoch, oid⟩ = none) →
    ∃ db', insertReachable epoch oids db = .ok db' := by
  induction oids with
  | nil => intro db _ _; exact ⟨db, rfl⟩
  | cons oid oids ih =>
    intro db hnodup hfresh
    obtain ⟨hnot, hnodup⟩ := List.nodup_cons.1 hnodup
    unfold insertReachable
    rw [if_neg (by rw [hfresh oid List.mem_cons_self]; simp)]
    apply ih hnodup
    intro oid' hoid'
    rw [Table.get?_none]
    intro x hx
    rcases Table.mem_insert.1 hx with hx | ⟨rfl, -⟩
    · exact Table.get?_none.1 (hfresh oid' (List.mem_cons_of_mem _ hoid')) x hx
    · intro heq
      cases heq
      exact hnot hoid'

/-- A snapshot without repetition is accepted under an id no row refers to. -/
theorem submitSnapshot_nodup {db : Db} {now : Nat} {r epoch : Uuid} {fp : String}
    {oids : List ObjectOid} (hepoch : ∀ e ∈ db.epochs, e.id ≠ epoch)
    (hrows : ∀ x ∈ db.reachable, x.epochId ≠ epoch) (hnodup : oids.Nodup) :
    ∃ db', submitSnapshot db now r fp oids epoch = .ok db' := by
  have hfresh : ∀ oid ∈ oids, db.reachable.get? ⟨epoch, oid⟩ = none := by
    intro oid _
    rw [Table.get?_none]
    intro x hx heq
    exact hrows x hx (congrArg ReachableRow.epochId heq)
  obtain ⟨db₁, hdb₁⟩ : ∃ db₁, insertReachable epoch oids
      { db with epochs := db.epochs.insert ⟨epoch, r, fp, false, none⟩ } = .ok db₁ :=
    insertReachable_nodup hnodup hfresh
  unfold submitSnapshot
  rw [if_neg (by rw [Table.get?_none.2 hepoch]; simp), hdb₁]
  exact ⟨_, rfl⟩

/-! ## Epochs along a run -/

/-- Epoch ids have been issued, and every listed object belongs to an epoch. -/
structure SnapshotInv (w : Shared) : Prop where
  issued : ∀ e ∈ w.db.epochs, e.id ∈ w.issued
  owner : ∀ x ∈ w.db.reachable, ∃ e ∈ w.db.epochs, e.id = x.epochId

variable {H : Hashes} {cut : Cutter} {w w' : Shared}

theorem Effect.snapshotInv (h : Effect H w w') (hi : SnapshotInv w) : SnapshotInv w' := by
  rcases h.epochs with ⟨hE, hR⟩ | ⟨-, epoch, r, fp, oids, hissued, -, hE, hR⟩
  · refine ⟨fun e he => ?_, fun x hx => ?_⟩
    · rw [hE] at he
      exact h.issued_mono (hi.issued e he)
    · rw [hR] at hx
      rw [hE]
      exact hi.owner x hx
  · refine ⟨fun e he => ?_, fun x hx => ?_⟩
    · rcases (hE e).1 he with hold | rfl
      · exact h.issued_mono (hi.issued e hold)
      · exact hissued
    · rcases (hR x).1 hx with hold | ⟨hnew, -⟩
      · obtain ⟨e, he, hid⟩ := hi.owner x hold
        exact ⟨e, (hE e).2 (.inl he), hid⟩
      · exact ⟨_, (hE _).2 (.inr rfl), hnew.symm⟩

variable {ι : Type} [DecidableEq ι]

theorem server_snapshots (H : Hashes) (cut : Cutter) :
    (server H cut : LTS (State ι) (Label ι)).Inductive
      fun s => Owned s ∧ SnapshotInv s.toShared where
  init s hs := by
    have howned := (server_inv H cut).init s hs
    obtain ⟨t, rfl⟩ := hs
    exact ⟨howned.1, fun e he => absurd he (Table.not_mem_empty e),
      fun x hx => absurd hx (Table.not_mem_empty x)⟩
  step _ _ _ hs hst := ⟨hs.1.step hst, (step_effect hs.1 hst).snapshotInv hs.2⟩

/-- In every reachable state a fresh epoch takes any snapshot without repetition. -/
theorem submitSnapshot_fresh {s : State ι} (hr : (server H cut).Reachable s) {r newId : Uuid}
    {fp : String} {oids : List ObjectOid} (hnew : newId ∉ s.issued) (hnodup : oids.Nodup) :
    ∃ db', submitSnapshot s.db s.clock r fp oids newId = .ok db' := by
  have hi := ((server_snapshots H cut).reachable hr).2
  have hepoch : ∀ e ∈ s.db.epochs, e.id ≠ newId := by
    intro e he heq
    exact hnew (heq ▸ hi.issued e he)
  refine submitSnapshot_nodup hepoch ?_ hnodup
  intro x hx heq
  obtain ⟨e, he, hid⟩ := hi.owner x hx
  exact hepoch e he (hid.trans heq)

/-! ## The parse and what is submitted -/

/-- **Pointer parsing fails closed and drops nothing.** Whatever `git show` prints for the
listed specifications: the parse succeeds exactly if every blob is UTF-8 and is a whole
pointer or does not begin like one. Then the OIDs are strictly increasing, and they are
those of the blobs with the version line, each of which has one. A reconciliation that goes
through has recorded them all, and in every reachable state the server takes them. -/
theorem pointers_fail_closed (H : Hashes) (cut : Cutter) (shown : Text → Option Content)
    (mirror candidates : Text) :
    ((∃ v, parseShown shown mirror candidates = .ok v) ↔
      ∀ s ∈ listed candidates, ∃ t, shown s = some (.utf8 t) ∧ (¬ Announces t ∨ PointerText t)) ∧
    (∀ v, parseShown shown mirror candidates = .ok v →
      Increasing v ∧
      (∀ oid, oid ∈ v ↔ ∃ s ∈ listed candidates, ∃ t, shown s = some (.utf8 t) ∧ Announces t ∧
        IsPointer (.utf8 t) oid) ∧
      (∀ s ∈ listed candidates, ∀ t, shown s = some (.utf8 t) → Announces t →
        ∃ oid ∈ v, IsPointer (.utf8 t) oid) ∧
      ∀ s : State ι, (server H cut).Reachable s → ∀ r fp newId, newId ∉ s.issued →
        ∃ db, submitSnapshot s.db s.clock r fp v newId = .ok db) ∧
    ∀ db now r fp newId db',
      reconcile db now r ((parseShown shown mirror candidates).map (⟨fp, ·⟩)) newId = .ok db' →
      ∀ s ∈ listed candidates, ∃ t, shown s = some (.utf8 t) ∧
        (Announces t → ∃ oid, IsPointer (.utf8 t) oid ∧ ⟨newId, oid⟩ ∈ db'.reachable) := by
  have hok : (∃ v, parseShown shown mirror candidates = .ok v) ↔
      ∀ s ∈ listed candidates, ∃ t, shown s = some (.utf8 t) ∧ (¬ Announces t ∨ PointerText t) := by
    rw [parseShown, collectShown_ok_iff]
    simp only [Readable]
    constructor
    · intro h s hs
      obtain ⟨_, hshow, t, rfl, ht⟩ := h s hs
      exact ⟨t, hshow, ht⟩
    · intro h s hs
      obtain ⟨t, hshow, ht⟩ := h s hs
      exact ⟨_, hshow, t, rfl, ht⟩
  have hmem : ∀ {v}, parseShown shown mirror candidates = .ok v → ∀ oid, oid ∈ v ↔
      ∃ s ∈ listed candidates, ∃ t, shown s = some (.utf8 t) ∧ IsPointer (.utf8 t) oid := by
    intro v hv oid
    rw [mem_collectShown hv]
    simp
  -- a blob with the version line is a whole pointer, or the parse had failed
  have hwhole : ∀ {v}, parseShown shown mirror candidates = .ok v → ∀ s ∈ listed candidates,
      ∀ t, shown s = some (.utf8 t) → Announces t → ∃ oid ∈ v, IsPointer (.utf8 t) oid := by
    intro v hv s hs t hshow hann
    obtain ⟨t', hshow', hread⟩ := hok.1 ⟨v, hv⟩ s hs
    rw [hshow] at hshow'
    cases hshow'
    rcases hread with hpass | hpointer
    · exact absurd hann hpass
    · obtain ⟨oid, hoid⟩ := pointerText_iff.1 hpointer
      exact ⟨oid, (hmem hv oid).2 ⟨s, hs, t, hshow, hoid⟩, hoid⟩
  refine ⟨hok, fun v hv => ⟨?_, fun oid => ?_, hwhole hv, ?_⟩, ?_⟩
  · exact collectShown_increasing hv List.Pairwise.nil
  · rw [hmem hv]
    constructor
    · intro h
      obtain ⟨s, hs, t, hshow, hp⟩ := h
      exact ⟨s, hs, t, hshow, hp.announces, hp⟩
    · intro h
      obtain ⟨s, hs, t, hshow, -, hp⟩ := h
      exact ⟨s, hs, t, hshow, hp⟩
  · intro s hr r fp newId hnew
    exact submitSnapshot_fresh hr hnew (collectShown_increasing hv List.Pairwise.nil).nodup
  · intro db now r fp newId db' hrec s hs
    cases hv : parseShown shown mirror candidates with
    | error e =>
      rw [hv] at hrec
      cases hrec
    | ok v =>
      rw [hv] at hrec
      simp only [reconcile, Except.map] at hrec
      split at hrec
      · cases hrec
      rename_i db₁ hsubmit
      cases hrec
      obtain ⟨t, hshow, -⟩ := hok.1 ⟨v, hv⟩ s hs
      refine ⟨t, hshow, fun hann => ?_⟩
      obtain ⟨oid, hoid, hp⟩ := hwhole hv s hs t hshow hann
      exact ⟨oid, hp, ((submitSnapshot_ok hsubmit).2.2.2 _).2 (.inr ⟨rfl, hoid⟩)⟩

end GitLfsDelta
