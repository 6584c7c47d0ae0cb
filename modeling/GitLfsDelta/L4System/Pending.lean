import GitLfsDelta.L3Server.RefCounts
import GitLfsDelta.L4System.Statements

/-!
# What pending writes come to

The writes of a transaction are applied to what is committed when it commits, not to what was
committed when it made them. `Write.Justified` says what a write relied on, in terms of the
committed database and the writes before it.

* `Intact β`: every foreign key holds, and a chunk's count is ahead of `object_chunks` by `β`.
* `Intact.applyAll`: justified writes keep the foreign keys, and leave the counts ahead by
  their `balance`.
* `Justified.stable`: a write stays justified while its transaction holds its locks, whatever
  others commit.
-/
namespace GitLfsDelta.Sql

open RowLocks (applyAll Guards Covers)

/-! ## Rows and the keys they refer to -/

/-- The row is there; of the tables that foreign keys refer to. -/
def Present (db : Db) : Resource → Prop
  | .chunk r c => db.chunks.HasKey (r, c)
  | .object r oid => db.objects.HasKey (r, oid)
  | .session u => db.sessions.HasKey u
  | _ => False

def Write.inserts : Write → Option Resource
  | .chunk row => some (.chunk row.repositoryId row.chunkId)
  | .object row => some (.object row.repositoryId row.oid)
  | .session row => some (.session row.id)
  | _ => none

def Write.deletes : Write → Option Resource
  | .deleteChunk r c => some (.chunk r c)
  | .deleteObject r oid => some (.object r oid)
  | .deleteSession u => some (.session u)
  | _ => none

/-- The foreign keys of an inserted row. -/
def Write.refers : Write → List Resource
  | .objectChunk row => [.object row.repositoryId row.objectOid, .chunk row.repositoryId row.chunkId]
  | .link row => [.session row.sessionId, .chunk row.repositoryId row.chunkId]
  | .tombstone row => [.object row.repositoryId row.objectOid]
  | _ => []

/-- The row that `w` inserts is there; of the tables with foreign keys. -/
def Recorded (db : Db) : Write → Prop
  | .objectChunk row => row ∈ db.objectChunks
  | .link row => row ∈ db.sessionChunks
  | .tombstone row => row ∈ db.tombstones
  | _ => False

variable {w v : Write} {d db : Db} {x : Resource}

theorem Write.demands_inserts (h : w.inserts = some x) : (x, .write) ∈ w.demands := by
  cases w <;> simp_all [Write.inserts, Write.demands]

theorem Write.demands_deletes (h : w.deletes = some x) : (x, .write) ∈ w.demands := by
  cases w <;> simp_all [Write.deletes, Write.demands]

theorem Write.demands_refers (h : x ∈ w.refers) : (x, .keyShare) ∈ w.demands := by
  cases w <;> simp_all [Write.refers, Write.demands]

theorem Present.apply (h : Present d x) (hd : w.deletes ≠ some x) : Present (w.apply d) x := by
  cases x with
  | chunk r c =>
    cases w with
    | chunk row => exact Table.hasKey_insert.2 (.inl h)
    | addReference | dropReference => exact (Table.hasKey_updateWhere (by intro; rfl)).2 h
    | deleteChunk r' c' =>
      apply Table.HasKey.deleteWhere h
      intro k hk
      obtain ⟨rfl, rfl⟩ := Prod.mk.inj hk
      simp only [Write.deletes, ne_eq, Option.some.injEq, Resource.chunk.injEq] at hd
      grind
    | _ => exact h
  | object r oid =>
    cases w with
    | object row => exact Table.hasKey_insert.2 (.inl h)
    | deleteObject r' oid' =>
      apply Table.HasKey.deleteWhere h
      intro o ho
      obtain ⟨rfl, rfl⟩ := Prod.mk.inj ho
      simp only [Write.deletes, ne_eq, Option.some.injEq, Resource.object.injEq] at hd
      grind
    | _ => exact h
  | session u =>
    cases w with
    | session row => exact Table.hasKey_insert.2 (.inl h)
    | renew | expire | finalize => exact (Table.hasKey_updateWhere (by intro; rfl)).2 h
    | deleteSession u' =>
      apply Table.HasKey.deleteWhere h
      intro s hs
      simp only [Write.deletes, ne_eq, Option.some.injEq, Resource.session.injEq] at hd
      grind
    | _ => exact h
  | _ => exact h

theorem Present.inserted (h : w.inserts = some x) : Present (w.apply d) x := by
  cases w <;> simp only [Write.inserts, Option.some.injEq, reduceCtorEq] at h <;> subst h <;>
    exact Table.hasKey_insert.2 (.inr rfl)

/-- A row that is there after a write was there before, or the write inserted it. -/
theorem Present.of_apply (h : Present (w.apply d) x) : Present d x ∨ w.inserts = some x := by
  cases x with
  | chunk r c =>
    cases w with
    | chunk row => simpa [Present, Write.apply, Table.hasKey_insert, Write.inserts, ChunkRow.key] using h
    | addReference | dropReference => exact .inl (((Table.hasKey_updateWhere (by intro; rfl)).1 h))
    | deleteChunk => exact .inl (Table.HasKey.of_deleteWhere h)
    | _ => exact .inl h
  | object r oid =>
    cases w with
    | object row => simpa [Present, Write.apply, Table.hasKey_insert, Write.inserts, ObjectRow.key] using h
    | deleteObject => exact .inl (Table.HasKey.of_deleteWhere h)
    | _ => exact .inl h
  | session u =>
    cases w with
    | session row => simpa [Present, Write.apply, Table.hasKey_insert, Write.inserts] using h
    | renew | expire | finalize => exact .inl (((Table.hasKey_updateWhere (by intro; rfl)).1 h))
    | deleteSession => exact .inl (Table.HasKey.of_deleteWhere h)
    | _ => exact .inl h
  | _ => exact .inl h

theorem Recorded.of_apply (h : Recorded (w.apply d) v) : Recorded d v ∨ v = w := by
  cases v with
  | objectChunk row =>
    cases w with
    | objectChunk row' =>
      rcases Table.mem_insert.1 h with h | ⟨rfl, -⟩
      · exact .inl h
      · exact .inr rfl
    | deleteObject => exact .inl (Table.mem_deleteWhere.1 h).1
    | _ => exact .inl h
  | link row =>
    cases w with
    | link row' =>
      rcases Table.mem_insert.1 h with h | ⟨rfl, -⟩
      · exact .inl h
      · exact .inr rfl
    | deleteSession => exact .inl (Table.mem_deleteWhere.1 h).1
    | _ => exact .inl h
  | tombstone row =>
    cases w with
    | tombstone row' =>
      rcases Table.mem_insert.1 h with h | ⟨rfl, -⟩
      · exact .inl h
      · exact .inr rfl
    | deleteObject => exact .inl (Table.mem_deleteWhere.1 h).1
    | _ => exact .inl h
  | _ => exact .inl h

/-! ## The counts -/

/-- How far a write puts the count of `(r, c)` ahead of its `object_chunks` rows; `db` is the
database a deletion finds. -/
def Write.delta (db : Db) (r : Uuid) (c : ChunkId) : Write → Int
  | .addReference r' c' => if r' = r ∧ c' = c then 1 else 0
  | .dropReference r' c' => if r' = r ∧ c' = c then -1 else 0
  | .objectChunk row => if row.repositoryId = r ∧ row.chunkId = c then -1 else 0
  | .deleteObject r' oid => if r = r' then ((db.chunksOf r' oid).map (·.chunkId)).count c else 0
  | _ => 0

def balance (db : Db) : List Write → Uuid → ChunkId → Int
  | [], _, _ => 0
  | w :: ws, r, c => w.delta db r c + balance db ws r c

@[simp] theorem balance_nil (db : Db) (r : Uuid) (c : ChunkId) : balance db [] r c = 0 := rfl

@[simp] theorem balance_append (db : Db) (ws ws' : List Write) (r : Uuid) (c : ChunkId) :
    balance db (ws ++ ws') r c = balance db ws r c + balance db ws' r c := by
  induction ws with
  | nil => simp
  | cons w ws ih => simp only [List.cons_append, balance, ih, Int.add_assoc]

/-- A count is `β` more than the number of rows naming the chunk. -/
def Counted (β : Uuid → ChunkId → Int) (d : Db) : Prop :=
  ∀ k ∈ d.chunks, (k.referenceCount : Int) =
    references d.objectChunks k.repositoryId k.chunkId + β k.repositoryId k.chunkId

/-- The counts, and the foreign keys. -/
structure Intact (β : Uuid → ChunkId → Int) (d : Db) : Prop where
  counts : Counted β d
  refers : ∀ v, Recorded d v → ∀ x ∈ v.refers, Present d x

theorem intact_empty : Intact (fun _ _ => 0) .empty where
  counts k hk := absurd hk (Table.not_mem_empty k)
  refers v hv := by
    cases v with
    | objectChunk row => exact absurd hv (Table.not_mem_empty row)
    | link row => exact absurd hv (Table.not_mem_empty row)
    | tombstone row => exact absurd hv (Table.not_mem_empty row)
    | _ => exact absurd hv id

theorem Intact.balanced {β γ : Uuid → ChunkId → Int} (h : Intact β d) (e : ∀ r c, β r c = γ r c) :
    Intact γ d where
  counts k hk := by rw [← e]; exact h.counts k hk
  refers := h.refers

/-- Nothing refers to the chunk. -/
def Loose (db : Db) (r : Uuid) (c : ChunkId) : Prop :=
  ∀ v, Recorded db v → .chunk r c ∉ v.refers

/-- An absent chunk is named by no row. -/
theorem Intact.unnamed {β : Uuid → ChunkId → Int} (h : Intact β d) {r : Uuid} {c : ChunkId}
    (hc : d.chunks.get? (r, c) = none) : references d.objectChunks r c = 0 := by
  apply references_eq_zero.2
  intro y hy e
  obtain ⟨rfl, rfl⟩ := Prod.mk.inj e
  have hp := h.refers (.objectChunk y) hy (.chunk y.repositoryId y.chunkId) (by simp [Write.refers])
  exact Table.get?_ne_none.2 hp hc

/-! ## What a write relies on -/

/-- The transaction deletes no row that is referred to. -/
def Adds (ws : List Write) : Prop := ∀ w ∈ ws, w.deletes = none

/-- The row is committed, or the transaction inserted it. -/
def InHand (db : Db) (ws : List Write) (x : Resource) : Prop :=
  Present db x ∨ ∃ w ∈ ws, w.inserts = some x

/-- What a write relies on besides its foreign keys; `pre` are the writes before it. -/
def Write.Allowed (db : Db) (pre : List Write) : Write → Prop
  | .chunk row => row.referenceCount = 0 ∧ balance db pre row.repositoryId row.chunkId = 0
  | .dropReference r c => 0 < balance db pre r c
  | .deleteChunk r c => pre = [] ∧ Loose db r c
  | .objectChunk row => ¬ Present db (.object row.repositoryId row.objectOid) ∧
      ∀ y, .objectChunk y ∈ pre → y.key ≠ row.key
  | .deleteObject _ _ => pre = []
  | _ => True

structure Write.Justified (db : Db) (pre : List Write) (w : Write) : Prop where
  refers : ∀ x ∈ w.refers, Adds pre ∧ InHand db pre x
  allowed : w.Allowed db pre

/-- All the writes of a transaction are justified. -/
def Justified (db : Db) : List Write → Prop := LTS.Admitted (Write.Justified db)

theorem InHand.view {ws : List Write} (h : InHand db ws x) (hadds : Adds ws) :
    Present (applyAll Write.apply ws db) x := by
  induction ws generalizing db with
  | nil =>
    rcases h with h | ⟨w, hw, -⟩
    · exact h
    · exact absurd hw List.not_mem_nil
  | cons w ws ih =>
    apply ih
    · rcases h with h | ⟨w', hw', hi⟩
      · exact .inl (h.apply (by rw [hadds w List.mem_cons_self]; simp))
      · rcases List.mem_cons.1 hw' with rfl | hw'
        · exact .inl (Present.inserted hi)
        · exact .inr ⟨w', hw', hi⟩
    · intro w' hw'
      exact hadds w' (List.mem_cons_of_mem _ hw')

theorem InHand.of_view {ws : List Write} (h : Present (applyAll Write.apply ws db) x) :
    InHand db ws x := by
  induction ws generalizing db with
  | nil => exact .inl h
  | cons w ws ih =>
    rcases ih h with h | ⟨w', hw', hi⟩
    · rcases h.of_apply with h | hi
      · exact .inl h
      · exact .inr ⟨w, List.mem_cons_self, hi⟩
    · exact .inr ⟨w', List.mem_cons_of_mem _ hw', hi⟩

theorem Recorded.of_view {ws : List Write} (h : Recorded (applyAll Write.apply ws db) v) :
    Recorded db v ∨ v ∈ ws := by
  induction ws generalizing db with
  | nil => exact .inl h
  | cons w ws ih =>
    rcases ih h with h | h
    · rcases h.of_apply with h | rfl
      · exact .inl h
      · exact .inr List.mem_cons_self
    · exact .inr (List.mem_cons_of_mem _ h)

/-! ## One write -/

/-- No row is left that refers to a deleted one. -/
theorem Intact.cascade {β : Uuid → ChunkId → Int} (h : Intact β d) (hd : w.deletes = some x)
    (hloose : ∀ r c, w = .deleteChunk r c → Loose d r c) (hv : Recorded (w.apply d) v) :
    x ∉ v.refers := by
  cases w with
  | deleteChunk r c =>
    cases hd
    rcases hv.of_apply with hv | rfl
    · exact hloose r c rfl v hv
    · simp [Write.refers]
  | deleteObject r oid =>
    cases hd
    intro hx
    cases v with
    | objectChunk row =>
      have hne := (Table.mem_deleteWhere.1 hv).2
      simp [Write.refers] at hx
      grind
    | tombstone row =>
      have hne := (Table.mem_deleteWhere.1 hv).2
      simp [Write.refers] at hx
      grind
    | _ => simp [Write.refers] at hx
  | deleteSession u =>
    cases hd
    intro hx
    cases v with
    | link row =>
      obtain ⟨hrow, hne⟩ := Table.mem_deleteWhere.1 hv
      obtain rfl : u = row.sessionId := by simpa [Write.refers] using hx
      obtain ⟨s, hs, hid⟩ : Present d (.session row.sessionId) :=
        h.refers (.link row) hrow _ (by simp [Write.refers])
      rw [Table.get?_some.2 ⟨hs, hid⟩] at hne
      simp [hid] at hne
    | _ => simp [Write.refers] at hx
  | _ => cases hd

theorem Intact.apply_refers {β : Uuid → ChunkId → Int} (h : Intact β d)
    (hx : ∀ x ∈ w.refers, Present d x) (hloose : ∀ r c, w = .deleteChunk r c → Loose d r c)
    (hv : Recorded (w.apply d) v) : ∀ x ∈ v.refers, Present (w.apply d) x := by
  intro x hxv
  have hd : w.deletes ≠ some x := fun hd => h.cascade hd hloose hv hxv
  rcases hv.of_apply with hv | rfl
  · exact (h.refers v hv x hxv).apply hd
  · exact (hx x hxv).apply hd

theorem Intact.insertChunk {β : Uuid → ChunkId → Int} (h : Intact β d) {row : ChunkRow}
    (h0 : row.referenceCount = 0) (hβ : β row.repositoryId row.chunkId = 0) :
    Counted β ((Write.chunk row).apply d) := by
  intro k hk
  rcases Table.mem_insert.1 hk with hk | ⟨rfl, hnone⟩
  · exact h.counts k hk
  · have hunnamed : references d.objectChunks k.repositoryId k.chunkId = 0 := h.unnamed hnone
    show (k.referenceCount : Int) = references d.objectChunks k.repositoryId k.chunkId + _
    rw [h0, hβ, hunnamed]
    rfl

theorem Intact.addReference {β : Uuid → ChunkId → Int} (h : Intact β d) (r : Uuid) (c : ChunkId) :
    Counted (fun r' c' => β r' c' + (Write.addReference r c).delta db r' c')
      ((Write.addReference r c).apply d) := by
  intro k hk
  rcases (Table.mem_updateWhere (by intro; rfl)).1 hk with ⟨hk, hp⟩ | ⟨k₀, hk₀, hp, rfl⟩
  · have hcount := h.counts k hk
    simp only [decide_eq_false_iff_not] at hp
    simp only [Write.delta, Write.apply, Db.addReference]
    grind
  · have hcount := h.counts k₀ hk₀
    simp only [decide_eq_true_eq] at hp
    simp only [Write.delta, Write.apply, Db.addReference]
    grind

theorem Intact.dropReference {β : Uuid → ChunkId → Int} (h : Intact β d) {r : Uuid} {c : ChunkId}
    (hβ : 0 < β r c) :
    Counted (fun r' c' => β r' c' + (Write.dropReference r c).delta db r' c')
      ((Write.dropReference r c).apply d) := by
  intro k hk
  rcases (Table.mem_updateWhere (by intro; rfl)).1 hk with ⟨hk, hp⟩ | ⟨k₀, hk₀, hp, rfl⟩
  · have hcount := h.counts k hk
    simp only [decide_eq_false_iff_not] at hp
    simp only [Write.delta, Write.apply]
    grind
  · have hcount := h.counts k₀ hk₀
    simp only [decide_eq_true_eq] at hp
    simp only [Write.delta, Write.apply]
    grind

theorem Intact.insertObjectChunk {β : Uuid → ChunkId → Int} (h : Intact β d) {row : ObjectChunkRow}
    (hnone : d.objectChunks.get? row.key = none) :
    Counted (fun r' c' => β r' c' + (Write.objectChunk row).delta db r' c')
      ((Write.objectChunk row).apply d) := by
  intro k hk
  have hcount := h.counts k hk
  have hrefs := references_insert hnone k.repositoryId k.chunkId
  simp only [Write.delta, Write.apply]
  grind

theorem Intact.deleteObject {β : Uuid → ChunkId → Int} (h : Intact β d) (r : Uuid) (oid : ObjectOid) :
    Counted (fun r' c' => β r' c' + (Write.deleteObject r oid).delta d r' c')
      ((Write.deleteObject r oid).apply d) := by
  intro k hk
  have hcount := h.counts k hk
  have hrefs := references_deleteObject d r k.repositoryId oid k.chunkId
  simp only [Write.delta, Write.apply]
  grind

/-- A write keeps what the writes before it made of an intact database. -/
theorem Intact.step {pre : List Write} (hdb : Intact (fun _ _ => 0) db)
    (h : Intact (balance db pre) (applyAll Write.apply pre db)) (hj : w.Justified db pre) :
    Intact (balance db (pre ++ [w])) (applyAll Write.apply (pre ++ [w]) db) := by
  obtain ⟨hrefers, hallowed⟩ := hj
  rw [RowLocks.applyAll_append]
  have hcounts : Counted (fun r c => balance db pre r c + w.delta db r c)
      (w.apply (applyAll Write.apply pre db)) := by
    cases w with
    | chunk row => simpa [Write.delta] using h.insertChunk hallowed.1 hallowed.2
    | addReference r c => exact h.addReference r c
    | dropReference r c => exact h.dropReference hallowed
    | objectChunk row =>
      apply h.insertObjectChunk
      apply Table.get?_none.2
      intro y hy hkey
      rcases Recorded.of_view (v := .objectChunk y) hy with hy | hy
      · -- a row of an object that is not committed
        obtain ⟨e₁, e₂⟩ := Prod.mk.inj hkey
        obtain ⟨e₂, -⟩ := Prod.mk.inj e₂
        apply hallowed.1
        rw [← e₁, ← e₂]
        exact hdb.refers (.objectChunk y) hy _ (by simp [Write.refers])
      · exact hallowed.2 y hy hkey
    | deleteObject r oid =>
      obtain rfl : pre = [] := hallowed
      exact h.deleteObject r oid
    | deleteChunk r c =>
      intro k hk
      simp only [Write.delta, add_zero]
      exact h.counts k (Table.mem_deleteWhere.1 hk).1
    | _ =>
      simp only [Write.delta, add_zero]
      exact h.counts
  constructor
  · intro k hk
    simpa [balance] using hcounts k hk
  · intro v hv
    apply h.apply_refers _ _ hv
    · intro x hx
      obtain ⟨hadds, hx⟩ := hrefers x hx
      exact hx.view hadds
    · intro r c e
      subst e
      obtain ⟨rfl, hloose⟩ := hallowed
      exact hloose

/-- **Justified writes leave an intact database, up to their balance.** -/
theorem Intact.applyAll {ws : List Write} (hdb : Intact (fun _ _ => 0) db) (h : Justified db ws) :
    Intact (balance db ws) (applyAll Write.apply ws db) := by
  induction h with
  | nil => exact hdb
  | snoc _ hj ih => exact hdb.step ih hj

/-! ## What a lock preserves -/

section Guards

variable {m : LockMode} {r : Uuid} {c : ChunkId} {oid : ObjectOid}

theorem present_guarded : Guards Write.apply Write.demands x m fun d => Present d x := by
  intro w d hw h
  apply h.apply
  intro hd
  have hcompatible := hw .write (Write.demands_deletes hd)
  rw [m.compatible_write] at hcompatible
  cases hcompatible

theorem absent_guarded : Guards Write.apply Write.demands x m fun d => ¬ Present d x := by
  intro w d hw h hp
  rcases hp.of_apply with hp | hi
  · exact h hp
  · have hcompatible := hw .write (Write.demands_inserts hi)
    rw [m.compatible_write] at hcompatible
    cases hcompatible

/-- A foreign key needs the `keyShare` lock. -/
theorem loose_guarded (hm : m.compatible .keyShare = false) :
    Guards Write.apply Write.demands (.chunk r c) m fun d => Loose d r c := by
  intro w d hw h v hv hx
  rcases hv.of_apply with hv | rfl
  · exact h v hv hx
  · have hcompatible := hw .keyShare (Write.demands_refers hx)
    rw [hm] at hcompatible
    cases hcompatible

theorem unreferenced_guarded :
    Guards Write.apply Write.demands (.chunk r c) .update fun d => d.Unreferenced r c := by
  intro w d hw h
  have hnot : ∀ n, (.chunk r c, n) ∉ w.demands := by
    intro n hn
    have hcompatible := hw n hn
    rw [LockMode.update_alone] at hcompatible
    cases hcompatible
  obtain ⟨k, hk, hkey, h0⟩ := h
  obtain ⟨rfl, rfl⟩ := Prod.mk.inj hkey
  cases w with
  | chunk row => exact ⟨k, Table.mem_insert_of_mem hk, rfl, h0⟩
  | addReference r' c' | dropReference r' c' =>
    simp only [Write.demands, List.mem_singleton, Prod.mk.injEq, Resource.chunk.injEq] at hnot
    exact ⟨k, (Table.mem_updateWhere (by intro; rfl)).2 (.inl ⟨hk, by grind⟩), rfl, h0⟩
  | deleteChunk r' c' =>
    simp only [Write.demands, List.mem_singleton, Prod.mk.injEq, Resource.chunk.injEq] at hnot
    exact ⟨k, Table.mem_deleteWhere.2 ⟨hk, by grind⟩, rfl, h0⟩
  | _ => exact ⟨k, hk, rfl, h0⟩

/-- The sessions that link the chunk exist, and none is open. -/
def Dormant (d : Db) (r : Uuid) (c : ChunkId) : Prop :=
  ∀ l ∈ d.sessionChunks, l.repositoryId = r → l.chunkId = c →
    ∃ s ∈ d.sessions, s.id = l.sessionId ∧ s.state ≠ .opened

theorem Dormant.inactive (h : Dormant d r c) : ¬ d.ActivelyLinked r c := by
  intro ha
  obtain ⟨l, hl, ⟨hr, hc⟩, s, hs, hid, ho⟩ := ha
  obtain ⟨s', hs', hid', hne⟩ := h l hl hr hc
  rw [Table.eq_of_key hs' hs (hid'.trans hid.symm)] at hne
  exact hne ho

theorem Intact.dormant {β : Uuid → ChunkId → Int} (h : Intact β d) (hna : ¬ d.ActivelyLinked r c) :
    Dormant d r c := by
  intro l hl hr hc
  obtain ⟨s, hs, hid⟩ : Present d (.session l.sessionId) :=
    h.refers (.link l) hl _ (by simp [Write.refers])
  exact ⟨s, hs, hid, fun ho => hna ⟨l, hl, ⟨hr, hc⟩, s, hs, hid, ho⟩⟩

/-- No session is opened again, and no other may be linked. -/
theorem dormant_guarded :
    Guards Write.apply Write.demands (.chunk r c) .update fun d => Dormant d r c := by
  intro w d hw h l hl hr hc
  cases w with
  | link row =>
    rcases Table.mem_insert.1 hl with hl | ⟨rfl, -⟩
    · exact h l hl hr hc
    · have hcompatible := hw .keyShare (by simp [Write.demands, hr, hc])
      rw [LockMode.update_alone] at hcompatible
      cases hcompatible
  | session row =>
    obtain ⟨s, hs, hid, hne⟩ := h l hl hr hc
    exact ⟨s, Table.mem_insert_of_mem hs, hid, hne⟩
  | renew u t | expire u | finalize u =>
    obtain ⟨s, hs, hid, hne⟩ := h l hl hr hc
    by_cases hu : s.id = u
    · refine ⟨_, (Table.mem_updateWhere (by intro; rfl)).2 (.inr ⟨s, hs, by simpa using hu, rfl⟩), hid, ?_⟩
      simp [hne]
    · exact ⟨s, (Table.mem_updateWhere (by intro; rfl)).2 (.inl ⟨hs, by simpa using hu⟩), hid, hne⟩
  | deleteSession u =>
    obtain ⟨hl, hkeep⟩ := Table.mem_deleteWhere.1 hl
    obtain ⟨s, hs, hid, hne⟩ := h l hl hr hc
    rw [Table.get?_some.2 ⟨hs, hid⟩] at hkeep
    exact ⟨s, Table.mem_deleteWhere.2 ⟨hs, by simpa using hkeep⟩, hid, hne⟩
  | _ => exact h l hl hr hc

theorem chunksOf_apply (hins : ∀ row, w = .objectChunk row → ¬ (row.repositoryId = r ∧ row.objectOid = oid))
    (hdel : w ≠ .deleteObject r oid) : (w.apply d).chunksOf r oid = d.chunksOf r oid := by
  cases w with
  | objectChunk row =>
    have hrow := hins row rfl
    simp only [Db.chunksOf, Write.apply]
    cases hget : d.objectChunks.get? row.key with
    | none =>
      rw [Table.rows_insert_of_none hget, List.filter_append]
      simp [hrow]
    | some y => rw [Table.insert_of_some hget]
  | deleteObject r' oid' =>
    simp only [Db.chunksOf, Write.apply, Db.deleteObject, Table.deleteWhere, List.filter_filter]
    apply List.filter_congr
    intro y _
    simp only [ne_eq, Write.deleteObject.injEq] at hdel
    grind
  | _ => rfl

theorem chunksOf_guarded {rows : List ObjectChunkRow} :
    Guards Write.apply Write.demands (.object r oid) .write fun d => d.chunksOf r oid = rows := by
  intro w d hw h
  rw [← h]
  apply chunksOf_apply
  · intro row hrow e
    subst hrow
    cases hw .keyShare (by simp [Write.demands, e])
  · intro e
    subst e
    cases hw .write (by simp [Write.demands])

end Guards

/-! ## While others commit -/

section Stable

variable {ι : Type} {locks : RowLocks ι Resource} {p q : ι} {pre ws : List Write}

theorem balance_stable (hex : locks.Exclusive) (hne : p ≠ q) (hq : Covers Write.demands locks q ws)
    (hp : Covers Write.demands locks p pre) (r : Uuid) (c : ChunkId) :
    balance (applyAll Write.apply ws db) pre r c = balance db pre r c := by
  induction pre with
  | nil => rfl
  | cons w pre ih =>
    have hdelta : w.delta (applyAll Write.apply ws db) r c = w.delta db r c := by
      cases w with
      | deleteObject r' oid =>
        have hlock : locks.Holds p (.object r' oid) .write :=
          hp _ List.mem_cons_self (.object r' oid, .write) (by simp [Write.demands])
        have hrows := RowLocks.guarded hex hlock hne hq chunksOf_guarded (d := db) rfl
        simp only [Write.delta, hrows]
      | _ => rfl
    simp only [balance, hdelta, ih fun w hw => hp w (List.mem_cons_of_mem _ hw)]

/-- **A write stays justified** while its transaction holds the locks. -/
theorem Write.Justified.stable (hex : locks.Exclusive) (hne : p ≠ q)
    (hq : Covers Write.demands locks q ws) (hp : Covers Write.demands locks p (pre ++ [w]))
    (h : w.Justified db pre) : w.Justified (applyAll Write.apply ws db) pre := by
  have hpre : Covers Write.demands locks p pre := fun v hv => hp v (List.mem_append_left _ hv)
  have hw : ∀ y ∈ w.demands, locks.Holds p y.1 y.2 := hp w (by simp)
  constructor
  · intro x hx
    obtain ⟨hadds, hpresent | hinserted⟩ := h.refers x hx
    · have hlock := hw (x, .keyShare) (Write.demands_refers hx)
      exact ⟨hadds, .inl (RowLocks.guarded hex hlock hne hq present_guarded hpresent)⟩
    · exact ⟨hadds, .inr hinserted⟩
  · have hallowed := h.allowed
    cases w with
    | chunk row => exact ⟨hallowed.1, by rw [balance_stable hex hne hq hpre]; exact hallowed.2⟩
    | dropReference r c =>
      show 0 < balance _ pre r c
      rw [balance_stable hex hne hq hpre]
      exact hallowed
    | deleteChunk r c =>
      have hlock : locks.Holds p (.chunk r c) .write := hw (.chunk r c, .write) (by simp [Write.demands])
      exact ⟨hallowed.1, RowLocks.guarded hex hlock hne hq (loose_guarded rfl) hallowed.2⟩
    | objectChunk row =>
      have hlock : locks.Holds p (.object row.repositoryId row.objectOid) .keyShare :=
        hw (.object row.repositoryId row.objectOid, .keyShare) (by simp [Write.demands])
      exact ⟨RowLocks.guarded hex hlock hne hq absent_guarded hallowed.1, hallowed.2⟩
    | deleteObject r oid => exact hallowed
    | _ => trivial

theorem Justified.stable (hex : locks.Exclusive) (hne : p ≠ q) (hq : Covers Write.demands locks q ws)
    (hp : Covers Write.demands locks p pre) (h : Justified db pre) :
    Justified (applyAll Write.apply ws db) pre := by
  unfold Sql.Justified at h ⊢
  induction h with
  | nil => exact .nil
  | snoc _ hj ih =>
    apply (ih fun w hw => hp w (List.mem_append_left _ hw)).snoc
    exact hj.stable hex hne hq hp

end Stable

/-! ## Growing a transaction -/

/-- Writes that rely on nothing and do not touch the counts. -/
def Write.Plain : Write → Prop
  | .session _ | .renew _ _ | .expire _ | .finalize _ | .deleteSession _ | .enqueue _ | .dequeue _ _
  | .object _ => True
  | _ => False

theorem Write.Plain.justified (h : w.Plain) (pre : List Write) : w.Justified db pre := by
  cases w with
  | session | renew | expire | finalize | deleteSession | enqueue | dequeue | object =>
    exact ⟨by simp [Write.refers], trivial⟩
  | _ => exact absurd h id

theorem Write.Plain.delta (h : w.Plain) (r : Uuid) (c : ChunkId) : w.delta db r c = 0 := by
  cases w with
  | session | renew | expire | finalize | deleteSession | enqueue | dequeue | object => rfl
  | _ => exact absurd h id

theorem Justified.append_plain {ws vs : List Write} (h : Justified db ws) (hv : ∀ v ∈ vs, v.Plain) :
    Justified db (ws ++ vs) := by
  induction vs generalizing ws with
  | nil => simpa using h
  | cons v vs ih =>
    have hsnoc : Justified db (ws ++ [v]) := h.snoc ((hv v List.mem_cons_self).justified ws)
    simpa using ih hsnoc fun w hw => hv w (List.mem_cons_of_mem _ hw)

theorem balance_plain {vs : List Write} (hv : ∀ v ∈ vs, v.Plain) (r : Uuid) (c : ChunkId) :
    balance db vs r c = 0 := by
  induction vs with
  | nil => rfl
  | cons v vs ih =>
    rw [balance, (hv v List.mem_cons_self).delta, ih fun w hw => hv w (List.mem_cons_of_mem _ hw)]
    rfl

end GitLfsDelta.Sql
