import GitLfsDelta.L1Data.Manifest
import GitLfsDelta.Core.Table

/-!
# The schema gate (`git-lfs-delta-server/src/lib.rs`)

`schema_status` compares the migrations embedded in the binary with the history in
`_sqlx_migrations`, in two passes: over the embedded up-migrations, where it counts what is
pending and stops at the first dirty or changed record, and over the history, where it stops at
any dirty record. `schema_check`, which decides whether the server starts, also refuses what is
pending.

* `countPending_ok`, `countPending_error`: the first pass, on any list of migrations.
* `schema_gate`: what the two functions accept and report.
-/
namespace GitLfsDelta

/-- `sqlx::migrate::MigrationType`. -/
inductive MigrationType
  | simple | reversibleUp | reversibleDown
  deriving DecidableEq, Repr

def MigrationType.isDownMigration : MigrationType → Bool
  | .reversibleDown => true
  | _ => false

/-- The fields of an embedded migration that are read. -/
structure Migration where
  version : Int
  migrationType : MigrationType
  checksum : Bytes
  deriving DecidableEq, Repr

/-- A row of `_sqlx_migrations`. -/
structure AppliedRow where
  version : Int
  checksum : Bytes
  success : Bool
  deriving DecidableEq, Repr

/-- The history table, if it exists. -/
abbrev MigrationHistory := Option (Table AppliedRow.version)

/-- mirrors crates/git-lfs-delta-server/src/lib.rs:306-316 -/
structure SchemaStatus where
  targetVersion : Int
  appliedVersion : Int
  pending : Nat
  newer : Nat
  deriving DecidableEq, Repr

/-- The errors of a schema inspection that reaches the database.
mirrors crates/git-lfs-delta-server/src/lib.rs:320-341 -/
inductive SchemaError
  | dirty (version : Int)
  | checksum (version : Int)
  | pending (pending : Nat)
  deriving DecidableEq, Repr

/-- `.max().unwrap_or(0)`. -/
def maxVersion (versions : List Int) : Int := versions.max?.getD 0

/-- The embedded migrations without the down-migrations. -/
def upMigrations (migrator : List Migration) : List Migration :=
  migrator.filter fun m => !m.migrationType.isDownMigration

/-- The loop over the embedded migrations.
mirrors crates/git-lfs-delta-server/src/lib.rs:395-415 -/
def countPending (applied : List AppliedRow) : Nat → List Migration → Except SchemaError Nat
  | pending, [] => .ok pending
  | pending, m :: ms =>
    match applied.find? fun a => a.version = m.version with
    | none => countPending applied (pending + 1) ms
    | some a =>
      if a.success = false then .error (.dirty a.version)
      else if a.checksum ≠ m.checksum then .error (.checksum a.version)
      else countPending applied pending ms

/-- mirrors crates/git-lfs-delta-server/src/lib.rs:368-435 -/
def schemaStatus (migrator : List Migration) (history : MigrationHistory) : Except SchemaError SchemaStatus :=
  let targetVersion := maxVersion ((upMigrations migrator).map (·.version))
  match history with
  | none => .ok ⟨targetVersion, 0, (upMigrations migrator).length, 0⟩
  | some table =>
    let applied := table.rows.insertionSort fun a b => a.version ≤ b.version
    match countPending applied 0 (upMigrations migrator) with
    | .error e => .error e
    | .ok pending =>
      match applied.find? fun a => !a.success with
      | some a => .error (.dirty a.version)
      | none =>
        .ok {
          targetVersion := targetVersion
          appliedVersion := maxVersion ((applied.filter fun a => a.success).map (·.version))
          pending := pending
          newer := (applied.filter fun a => a.success ∧ targetVersion < a.version).length }

/-- mirrors crates/git-lfs-delta-server/src/lib.rs:442-448 -/
def schemaCheck (migrator : List Migration) (history : MigrationHistory) : Except SchemaError SchemaStatus :=
  match schemaStatus migrator history with
  | .error e => .error e
  | .ok status => if 0 < status.pending then .error (.pending status.pending) else .ok status

/-! ## What a history records -/

/-- The rows of the history, none without a table. -/
def MigrationHistory.rows (history : MigrationHistory) : List AppliedRow := (history.map (·.rows)).getD []

def Recorded (rows : List AppliedRow) (m : Migration) : Prop := ∃ a ∈ rows, a.version = m.version

instance (rows : List AppliedRow) (m : Migration) : Decidable (Recorded rows m) := by
  unfold Recorded; infer_instance

/-- The record of the migration, if there is one, is complete and has its checksum. -/
def Fits (rows : List AppliedRow) (m : Migration) : Prop :=
  ∀ a ∈ rows, a.version = m.version → a.success = true ∧ a.checksum = m.checksum

/-- The history contradicts the binary: a record of an embedded up-migration has another
checksum, or some migration did not complete. -/
def Contradicts (rows : List AppliedRow) (migrator : List Migration) : Prop :=
  (∃ m ∈ upMigrations migrator, ∃ a ∈ rows, a.version = m.version ∧ a.checksum ≠ m.checksum) ∨
    ∃ a ∈ rows, a.success = false

/-- What the binary needs is there as the binary has it, and every migration completed. -/
def Compatible (rows : List AppliedRow) (migrator : List Migration) : Prop :=
  (∀ a ∈ rows, a.success = true) ∧
    ∀ m ∈ upMigrations migrator, ∃ a ∈ rows, a.version = m.version ∧ a.checksum = m.checksum

instance (rows : List AppliedRow) (migrator : List Migration) : Decidable (Compatible rows migrator) := by
  unfold Compatible; infer_instance

variable {migrator ms : List Migration} {m : Migration} {rows : List AppliedRow}

theorem fits_of_not_contradicts (h : ¬ Contradicts rows migrator) :
    ∀ m ∈ upMigrations migrator, Fits rows m := by
  intro m hm a ha hv
  constructor
  · by_contra hs
    exact h (.inr ⟨a, ha, by simpa using hs⟩)
  · by_contra hc
    exact h (.inl ⟨m, hm, a, ha, hv, hc⟩)

theorem compatible_iff (hnd : (rows.map (·.version)).Nodup) : Compatible rows migrator ↔
    ¬ Contradicts rows migrator ∧ ∀ m ∈ upMigrations migrator, Recorded rows m := by
  constructor
  · intro h
    obtain ⟨hclean, hall⟩ := h
    refine ⟨?_, fun m hm => ?_⟩
    · intro hbad
      rcases hbad with ⟨m, hm, a, ha, hv, hc⟩ | ⟨a, ha, hs⟩
      · obtain ⟨b, hb, hbv, hbc⟩ := hall m hm
        rw [List.inj_on_of_nodup_map hnd ha hb (hv.trans hbv.symm)] at hc
        exact hc hbc
      · rw [hclean a ha] at hs
        cases hs
    · obtain ⟨a, ha, hv, -⟩ := hall m hm
      exact ⟨a, ha, hv⟩
  · intro h
    obtain ⟨hgood, hall⟩ := h
    refine ⟨fun a ha => ?_, fun m hm => ?_⟩
    · by_contra hs
      exact hgood (.inr ⟨a, ha, by simpa using hs⟩)
    · obtain ⟨a, ha, hv⟩ := hall m hm
      exact ⟨a, ha, hv, (fits_of_not_contradicts hgood m hm a ha hv).2⟩

/-! ## The loop over the embedded migrations -/

/-- Without an error the loop counts the migrations that have no record. -/
theorem countPending_ok {n : Nat} (h : ∀ m ∈ ms, Fits rows m) :
    countPending rows n ms = .ok (n + (ms.filter fun m => ¬ Recorded rows m).length) := by
  induction ms generalizing n with
  | nil => rfl
  | cons m ms ih =>
    have ih := fun n => ih (n := n) fun x hx => h x (List.mem_cons_of_mem _ hx)
    unfold countPending
    split
    · rename_i hfind
      have hnone : ¬ Recorded rows m := by
        intro hr
        obtain ⟨a, ha, hv⟩ := hr
        have := List.find?_eq_none.1 hfind a ha
        simp [hv] at this
      rw [ih, List.filter_cons_of_pos (by simpa using hnone), List.length_cons]
      congr 1
      omega
    · rename_i a hfind
      have ha := List.mem_of_find?_eq_some hfind
      have hv : a.version = m.version := by simpa using List.find?_some hfind
      obtain ⟨hs, hc⟩ := h m List.mem_cons_self a ha hv
      have hrecorded : Recorded rows m := ⟨a, ha, hv⟩
      rw [if_neg (by simp [hs]), if_neg (by simp [hc]), ih,
        List.filter_cons_of_neg (by simpa using hrecorded)]

/-- A record that does not fit ends the loop. -/
theorem countPending_error {n : Nat} (hnd : (rows.map (·.version)).Nodup) (h : ¬ ∀ m ∈ ms, Fits rows m) :
    ∃ v, countPending rows n ms = .error (.dirty v) ∨ countPending rows n ms = .error (.checksum v) := by
  induction ms generalizing n with
  | nil => exact absurd (fun _ h => absurd h List.not_mem_nil) h
  | cons m ms ih =>
    -- the first migration fits, or the loop ends with it
    have hrest : Fits rows m → ¬ ∀ x ∈ ms, Fits rows x := by
      intro hm hall
      exact h (List.forall_mem_cons.2 ⟨hm, hall⟩)
    unfold countPending
    split
    · rename_i hfind
      apply ih
      apply hrest
      intro a ha hv
      have := List.find?_eq_none.1 hfind a ha
      simp [hv] at this
    · rename_i a hfind
      split
      · exact ⟨_, .inl rfl⟩
      · rename_i hs
        split
        · exact ⟨_, .inr rfl⟩
        · rename_i hc
          apply ih
          apply hrest
          intro b hb hv
          have hav : a.version = m.version := by simpa using List.find?_some hfind
          rw [List.inj_on_of_nodup_map hnd hb (List.mem_of_find?_eq_some hfind) (hv.trans hav.symm)]
          exact ⟨by simpa using hs, by simpa using hc⟩

/-! ## The two functions -/

variable {history : MigrationHistory}

theorem rows_versions_nodup (history : MigrationHistory) : (history.rows.map (·.version)).Nodup := by
  cases history with
  | none => exact List.nodup_nil
  | some table => exact table.nodup

/-- The greatest embedded up-migration. -/
def targetVersion (migrator : List Migration) : Int := maxVersion ((upMigrations migrator).map (·.version))

/-- Where the history does not contradict the binary, `schema_status` reports it. -/
theorem schemaStatus_ok (h : ¬ Contradicts history.rows migrator) :
    ∃ status, schemaStatus migrator history = .ok status ∧
      status.pending = ((upMigrations migrator).filter fun m => ¬ Recorded history.rows m).length ∧
      status.newer = (history.rows.filter fun a => targetVersion migrator < a.version).length := by
  cases history with
  | none =>
    refine ⟨_, rfl, ?_, rfl⟩
    show _ = ((upMigrations migrator).filter fun m => ¬ Recorded [] m).length
    rw [List.filter_eq_self.2 fun m _ => by simp [Recorded]]
  | some table =>
    have hperm := List.perm_insertionSort (fun a b : AppliedRow => a.version ≤ b.version) table.rows
    have hrows : MigrationHistory.rows (some table) = table.rows := rfl
    rw [hrows] at h ⊢
    unfold schemaStatus
    simp only
    generalize table.rows.insertionSort (fun a b => a.version ≤ b.version) = applied at hperm
    have hfits : ∀ m ∈ upMigrations migrator, Fits applied m :=
      fun m hm a ha => fits_of_not_contradicts h m hm a (hperm.mem_iff.1 ha)
    have hclean : ∀ a ∈ applied, a.success = true := by
      intro a ha
      by_contra hs
      exact h (.inr ⟨a, hperm.mem_iff.1 ha, by simpa using hs⟩)
    rw [countPending_ok hfits, List.find?_eq_none.2 (by simpa using hclean)]
    refine ⟨_, rfl, ?_, ?_⟩
    · simp only [Nat.zero_add]
      congr 1
      apply List.filter_congr
      intro m _
      simp [Recorded, hperm.mem_iff]
    · simp only
      rw [List.filter_congr (q := fun a => decide (targetVersion migrator < a.version)) fun a ha => by
        simp only [hclean a ha, true_and]
        rfl]
      exact (hperm.filter _).length_eq

theorem schemaStatus_error (h : Contradicts history.rows migrator) :
    ∃ v, schemaStatus migrator history = .error (.dirty v) ∨
      schemaStatus migrator history = .error (.checksum v) := by
  cases history with
  | none =>
    rcases h with ⟨m, -, a, ha, -⟩ | ⟨a, ha, -⟩
    · exact absurd ha List.not_mem_nil
    · exact absurd ha List.not_mem_nil
  | some table =>
    have hperm := List.perm_insertionSort (fun a b : AppliedRow => a.version ≤ b.version) table.rows
    have hnd : ((table.rows.insertionSort fun a b => a.version ≤ b.version).map (·.version)).Nodup :=
      (hperm.map _).nodup_iff.2 table.nodup
    have hrows : MigrationHistory.rows (some table) = table.rows := rfl
    rw [hrows] at h
    unfold schemaStatus
    simp only
    generalize table.rows.insertionSort (fun a b => a.version ≤ b.version) = applied at hperm hnd
    by_cases hfits : ∀ m ∈ upMigrations migrator, Fits applied m
    · -- every embedded migration fits, so the second pass finds the dirty record
      rw [countPending_ok hfits]
      simp only
      rcases h with ⟨m, hm, a, ha, hv, hc⟩ | ⟨a, ha, hs⟩
      · exact absurd (hfits m hm a (hperm.mem_iff.2 ha) hv).2 hc
      · cases hfind : applied.find? fun a => !a.success with
        | none =>
          have := List.find?_eq_none.1 hfind a (hperm.mem_iff.2 ha)
          simp [hs] at this
        | some b => exact ⟨b.version, .inl rfl⟩
    · obtain ⟨v, hv | hv⟩ := countPending_error (n := 0) hnd hfits
      · exact ⟨v, .inl (by rw [hv])⟩
      · exact ⟨v, .inr (by rw [hv])⟩

theorem maxVersion_lt {l : List Int} (h : l ≠ []) {v : Int} : maxVersion l < v ↔ ∀ x ∈ l, x < v := by
  unfold maxVersion
  cases hmax : l.max? with
  | none => exact absurd (List.max?_eq_none_iff.1 hmax) h
  | some a =>
    obtain ⟨ha, hle⟩ := List.max?_eq_some_iff.1 hmax
    constructor
    · intro hlt x hx
      have := hle x hx
      simp only [Option.getD_some] at hlt
      omega
    · intro hall
      exact hall a ha

/-- **The schema gate accepts exactly compatible databases**, and `schema_status` reports the
others. -/
theorem schema_gate (migrator : List Migration) (hup : upMigrations migrator ≠ [])
    (history : MigrationHistory) :
    ((∃ status, schemaCheck migrator history = .ok status) ↔ Compatible history.rows migrator) ∧
      (∀ status, schemaCheck migrator history = .ok status → status.pending = 0 ∧
        status.newer =
          (history.rows.filter fun a => ∀ m ∈ upMigrations migrator, m.version < a.version).length) ∧
      ((∃ v, schemaStatus migrator history = .error (.dirty v) ∨
          schemaStatus migrator history = .error (.checksum v)) ↔ Contradicts history.rows migrator) ∧
      (¬ Contradicts history.rows migrator → ∃ status, schemaStatus migrator history = .ok status ∧
        status.pending = ((upMigrations migrator).filter fun m => ¬ Recorded history.rows m).length) := by
  by_cases h : Contradicts history.rows migrator
  · obtain ⟨v, hv⟩ := schemaStatus_error h
    have herror : ∀ status, schemaCheck migrator history ≠ .ok status := by
      intro status hok
      unfold schemaCheck at hok
      rcases hv with hv | hv
      · rw [hv] at hok
        cases hok
      · rw [hv] at hok
        cases hok
    refine ⟨?_, fun status hok => absurd hok (herror status), ⟨fun _ => h, fun _ => ⟨v, hv⟩⟩,
      fun hn => absurd h hn⟩
    constructor
    · intro hok
      obtain ⟨status, hok⟩ := hok
      exact absurd hok (herror status)
    · intro hcompatible
      exact absurd h ((compatible_iff (rows_versions_nodup history)).1 hcompatible).1
  · obtain ⟨status, hstatus, hpending, hnewer⟩ := schemaStatus_ok h
    have hcheck : schemaCheck migrator history =
        if 0 < status.pending then .error (.pending status.pending) else .ok status := by
      unfold schemaCheck
      rw [hstatus]
    have hzero : status.pending = 0 ↔ ∀ m ∈ upMigrations migrator, Recorded history.rows m := by
      rw [hpending, List.length_eq_zero_iff, List.filter_eq_nil_iff]
      simp
    have hcompatible : Compatible history.rows migrator ↔ status.pending = 0 := by
      rw [compatible_iff (rows_versions_nodup history), hzero]
      exact and_iff_right h
    refine ⟨?_, ?_, ?_, fun _ => ⟨status, hstatus, hpending⟩⟩
    · rw [hcompatible, hcheck]
      constructor
      · intro hok
        obtain ⟨status', hok⟩ := hok
        split at hok
        · cases hok
        · omega
      · intro h0
        exact ⟨status, if_neg (by omega)⟩
    · intro status' hok
      rw [hcheck] at hok
      split at hok
      · cases hok
      · cases hok
        refine ⟨by omega, ?_⟩
        have hne : (upMigrations migrator).map (·.version) ≠ [] := by simpa using hup
        rw [hnewer]
        congr 1
        apply List.filter_congr
        intro a _
        simp [targetVersion, maxVersion_lt hne]
    · constructor
      · intro herror
        obtain ⟨v, hv | hv⟩ := herror
        · rw [hstatus] at hv
          cases hv
        · rw [hstatus] at hv
          cases hv
      · intro hbad
        exact absurd hbad h

/-- A binary with one migration, on a database that also has a newer one. -/
theorem schema_gate_newer :
    ∃ status, schemaCheck [⟨1, .simple, [7]⟩] (some ⟨[⟨2, [9], true⟩, ⟨1, [7], true⟩], by decide⟩) =
      .ok status ∧ status.pending = 0 ∧ status.newer = 1 := by
  have hgate := schema_gate [⟨1, .simple, [7]⟩] (by decide)
    (some ⟨[⟨2, [9], true⟩, ⟨1, [7], true⟩], by decide⟩)
  obtain ⟨status, hok⟩ := hgate.1.2 (by decide)
  obtain ⟨hpending, hnewer⟩ := hgate.2.1 status hok
  exact ⟨status, hok, hpending, hnewer⟩

end GitLfsDelta
