import GitLfsDelta.L3Server.RefCounts

/-!
# What the deletion of objects leaves (`git-lfs-delta-server/src/gc.rs`)

`collectObject` deletes one object by its tombstone. Here is its effect on every table, exactly,
and that of any sequence of such deletions.

* `releaseChunks_exact`: a chunk's count goes down by how often it occurs, and the chunk is queued
  if that was all of it.
* `Removed`, `Tallied`: a database as the deletion of a list of objects leaves it.
  `Removed.collect` and `Tallied.collect` add an object to the list.
* `Tallied.unique`: the list decides what is left, in whatever order it was deleted.
-/
namespace GitLfsDelta

/-- The foreign keys that a deletion relies on, and exact counts. -/
structure Db.Countable (db : Db) : Prop where
  counts : CountsOk db
  rowChunk : ∀ x ∈ db.objectChunks, db.chunks.HasKey (x.repositoryId, x.chunkId)
  tombstone : ∀ t ∈ db.tombstones, db.objects.HasKey t.key

/-- How often the objects use a chunk. -/
def uses (db : Db) (deleted : List (Uuid × ObjectOid)) (r : Uuid) (c : ChunkId) : Nat :=
  db.objectChunks.rows.countP fun x =>
    (x.repositoryId = r ∧ x.chunkId = c) ∧ (x.repositoryId, x.objectOid) ∈ deleted

/-- The objects are gone with their `object_chunks` rows and tombstones; the other tables, chunks
and queue apart, are as they were. -/
structure Removed (db₀ : Db) (deleted : List (Uuid × ObjectOid)) (db : Db) : Prop where
  objects : db.objects = db₀.objects.deleteWhere fun o => o.key ∈ deleted
  objectChunks : db.objectChunks =
    db₀.objectChunks.deleteWhere fun x => (x.repositoryId, x.objectOid) ∈ deleted
  tombstones : db.tombstones = db₀.tombstones.deleteWhere fun t => t.key ∈ deleted
  sessions : db.sessions = db₀.sessions
  sessionChunks : db.sessionChunks = db₀.sessionChunks
  epochs : db.epochs = db₀.epochs
  reachable : db.reachable = db₀.reachable

/-- The objects were the last to use the chunk. -/
def Released (db₀ : Db) (deleted : List (Uuid × ObjectOid)) (r : Uuid) (c : ChunkId) : Prop :=
  0 < uses db₀ deleted r c ∧
    (db₀.chunks.get? (r, c)).any (fun k => k.referenceCount = uses db₀ deleted r c) = true

instance (db₀ : Db) (deleted : List (Uuid × ObjectOid)) (r : Uuid) (c : ChunkId) :
    Decidable (Released db₀ deleted r c) := by
  unfold Released; infer_instance

/-- Every count is down by the uses of the objects, and of the chunks that are not queued already
exactly those that they were the last to use are queued now. -/
structure Tallied (now : Nat) (db₀ : Db) (deleted : List (Uuid × ObjectOid)) (db : Db) : Prop where
  enough : ∀ k ∈ db₀.chunks, uses db₀ deleted k.repositoryId k.chunkId ≤ k.referenceCount
  chunks : ∀ r c, db.chunks.get? (r, c) = (db₀.chunks.get? (r, c)).map fun k =>
    { k with referenceCount := k.referenceCount - uses db₀ deleted r c }
  queue : ∀ r c, db.queue.get? (r, c) =
    (db₀.queue.get? (r, c)).or (if Released db₀ deleted r c then some ⟨r, c, now⟩ else none)

/-! ## Releasing chunks -/

variable {now : Nat} {r : Uuid} {oid : ObjectOid} {db db' db₀ : Db} {deleted : List (Uuid × ObjectOid)}

/-- How often a list of chunks of the repository `r` names a chunk. -/
def mentions (r : Uuid) (cs : List ChunkId) (r' : Uuid) (c' : ChunkId) : Nat :=
  if r' = r then cs.count c' else 0

theorem mentions_cons_self (r : Uuid) (c : ChunkId) (cs : List ChunkId) :
    mentions r (c :: cs) r c = mentions r cs r c + 1 := by
  simp [mentions]

theorem mentions_cons_of_ne {c c' : ChunkId} {r' : Uuid} (h : (r', c') ≠ (r, c)) (cs : List ChunkId) :
    mentions r (c :: cs) r' c' = mentions r cs r' c' := by
  unfold mentions
  split
  · rename_i hr
    rw [List.count_cons_of_ne]
    rintro rfl
    exact h (by rw [hr])
  · rfl

/-- What releasing `n` mentions of a chunk does to its row and its queue entry. -/
structure ReleasesTo (now : Nat) (db db' : Db) (n : Nat) (r : Uuid) (c : ChunkId) : Prop where
  enough : ∀ k, db.chunks.get? (r, c) = some k → n ≤ k.referenceCount
  chunk : db'.chunks.get? (r, c) =
    (db.chunks.get? (r, c)).map fun k => { k with referenceCount := k.referenceCount - n }
  entry : db'.queue.get? (r, c) = (db.queue.get? (r, c)).or
    (if 0 < n ∧ (db.chunks.get? (r, c)).any (fun k => k.referenceCount = n) = true then
      some ⟨r, c, now⟩ else none)

/-- The row of a chunk after one decrement of some chunk. -/
theorem get?_dropReference {c : ChunkId} (h : db.dropReference r c = .ok db') (r' : Uuid) (c' : ChunkId) :
    db'.chunks.get? (r', c') = (db.chunks.get? (r', c')).map fun k =>
      if (r', c') = (r, c) then { k with referenceCount := k.referenceCount - 1 } else k := by
  unfold Db.dropReference at h
  split at h
  · cases h
  cases h
  refine (Table.get?_updateWhere (by intro; rfl)).trans ?_
  cases hg : db.chunks.get? (r', c') with
  | none => rfl
  | some k =>
    obtain ⟨-, hkey⟩ := Table.get?_some.1 hg
    obtain ⟨rfl, rfl⟩ := Prod.mk.inj hkey
    simp only [Option.map_some, Prod.mk.injEq, decide_eq_true_eq]

theorem get?_enqueue {c c' : ChunkId} {r' : Uuid} :
    (db.enqueue now r c).queue.get? (r', c') =
      (db.queue.get? (r', c')).or (if (r', c') = (r, c) then some ⟨r', c', now⟩ else none) := by
  unfold Db.enqueue
  rw [Table.get?_insert]
  congr 1
  by_cases h : (r', c') = (r, c)
  · obtain ⟨rfl, rfl⟩ := Prod.mk.inj h
    simp [QueueRow.key]
  · rw [if_neg h, if_neg fun e => h e.symm]

theorem dropReference_queue {c : ChunkId} {db₁ : Db} (hdrop : db.dropReference r c = .ok db₁) :
    db₁.queue = db.queue := by
  unfold Db.dropReference at hdrop
  split at hdrop
  · cases hdrop
  · cases hdrop; rfl

/-- Queueing a chunk whose count is gone leaves the counts. -/
theorem requeue_chunks {p : Bool} {c : ChunkId} :
    (if p then db.enqueue now r c else db).chunks = db.chunks := by
  split <;> rfl

theorem ReleasesTo.nil {c : ChunkId} : ReleasesTo now db db 0 r c where
  enough k _ := Nat.zero_le _
  chunk := by simp
  entry := by simp

/-- One more mention of the chunk itself: its count is one lower for the others, and it is queued
here only if none is left. -/
theorem ReleasesTo.cons_self {n : Nat} {c : ChunkId} {db₁ : Db} (hdrop : db.dropReference r c = .ok db₁)
    (h : ReleasesTo now
      (if (db₁.chunks.get? (r, c)).any fun k => k.referenceCount = 0 then db₁.enqueue now r c else db₁)
      db' n r c) : ReleasesTo now db db' (n + 1) r c := by
  have hchunk := get?_dropReference hdrop r c
  have hqueue := dropReference_queue hdrop
  have hpos : ∀ k, db.chunks.get? (r, c) = some k → k.referenceCount ≠ 0 := by
    intro k hk h0
    simp [Db.dropReference, hk, h0] at hdrop
  obtain ⟨henough, hcount, hentry⟩ := h
  rw [requeue_chunks] at henough hcount hentry
  cases hg : db.chunks.get? (r, c) with
  | none =>
    rw [hg] at hchunk
    simp only [Option.map_none] at hchunk
    simp only [hchunk, Option.any_none, Bool.false_eq_true, and_false, if_false, Option.or_none, hqueue,
      Option.map_none] at hcount hentry
    exact ⟨by simp [hg], by simp [hg, hcount], by simp [hg, hentry]⟩
  | some k =>
    have hk := hpos k hg
    rw [hg] at hchunk
    simp only [Option.map_some, if_true] at hchunk
    have hle := henough _ hchunk
    simp only at hle
    refine ⟨fun k' hk' => ?_, ?_, ?_⟩
    · rw [hg] at hk'
      cases hk'
      omega
    · rw [hcount, hchunk, hg]
      simp only [Option.map_some, Option.some.injEq, ChunkRow.mk.injEq, true_and]
      omega
    · rw [hentry, hchunk, hg]
      simp only [Option.any_some, decide_eq_true_eq]
      by_cases hone : k.referenceCount = 1
      · have hn : n = 0 := by omega
        simp [hone, hn, get?_enqueue, hqueue]
      · have hnot : ¬ k.referenceCount - 1 = 0 := by omega
        have hsucc : (k.referenceCount = n + 1) ↔ (0 < n ∧ k.referenceCount - 1 = n) := by omega
        simp only [hnot, if_false, hqueue, Nat.succ_pos, true_and, hsucc]

theorem ReleasesTo.cons_of_ne {n : Nat} {c c' : ChunkId} {r' : Uuid} {db₁ : Db} (hne : (r', c') ≠ (r, c))
    (hdrop : db.dropReference r c = .ok db₁)
    (h : ReleasesTo now
      (if (db₁.chunks.get? (r, c)).any fun k => k.referenceCount = 0 then db₁.enqueue now r c else db₁)
      db' n r' c') : ReleasesTo now db db' n r' c' := by
  have hchunk := get?_dropReference hdrop r' c'
  simp only [if_neg hne, Option.map_id'] at hchunk
  have hqueue := dropReference_queue hdrop
  have hentry : (if (db₁.chunks.get? (r, c)).any fun k => k.referenceCount = 0 then db₁.enqueue now r c
      else db₁).queue.get? (r', c') = db.queue.get? (r', c') := by
    split
    · rw [get?_enqueue, if_neg hne, Option.or_none, hqueue]
    · rw [hqueue]
  obtain ⟨h₁, h₂, h₃⟩ := h
  rw [requeue_chunks, hchunk] at h₁ h₂ h₃
  rw [hentry] at h₃
  exact ⟨h₁, h₂, h₃⟩

/-- **Releasing chunks, exactly.** -/
theorem releaseChunks_exact : ∀ {cs : List ChunkId} {db db' : Db}, releaseChunks now r cs db = .ok db' →
    ∀ r' c', ReleasesTo now db db' (mentions r cs r' c') r' c' := by
  intro cs
  induction cs with
  | nil =>
    intro db db' h r' c'
    cases h
    have hzero : mentions r [] r' c' = 0 := by simp [mentions]
    rw [hzero]
    exact .nil
  | cons c cs ih =>
    intro db db' h r' c'
    unfold releaseChunks at h
    split at h
    · cases h
    rename_i db₁ hdrop
    have hrest := ih h r' c'
    by_cases hkey : (r', c') = (r, c)
    · obtain ⟨rfl, rfl⟩ := Prod.mk.inj hkey
      rw [mentions_cons_self]
      exact hrest.cons_self hdrop
    · rw [mentions_cons_of_ne hkey]
      exact hrest.cons_of_ne hkey hdrop

/-! ## Deleting objects -/

theorem uses_nil (db : Db) (r : Uuid) (c : ChunkId) : uses db [] r c = 0 := by
  simp [uses]

/-- What one object uses. -/
theorem uses_singleton (db : Db) (r : Uuid) (oid : ObjectOid) (r' : Uuid) (c : ChunkId) :
    uses db [(r, oid)] r' c = mentions r ((db.chunksOf r oid).map (·.chunkId)) r' c := by
  unfold uses mentions Db.chunksOf
  generalize db.objectChunks.rows = l
  induction l with
  | nil => simp
  | cons x l ih =>
    simp only [List.countP_cons, List.filter_cons, ih]
    grind

/-- What one more object uses is what it still has. -/
theorem Removed.uses_append (h : Removed db₀ deleted db) (x : Uuid × ObjectOid) (r : Uuid)
    (c : ChunkId) : uses db₀ (deleted ++ [x]) r c = uses db₀ deleted r c + uses db [x] r c := by
  unfold uses
  rw [h.objectChunks, Table.deleteWhere]
  simp only
  generalize db₀.objectChunks.rows = l
  induction l with
  | nil => simp
  | cons y l ih =>
    simp only [List.countP_cons, List.filter_cons, ih]
    grind

theorem Removed.refl (db : Db) : Removed db [] db where
  objects := (Table.deleteWhere_of_none (by simp)).symm
  objectChunks := (Table.deleteWhere_of_none (by simp)).symm
  tombstones := (Table.deleteWhere_of_none (by simp)).symm
  sessions := rfl
  sessionChunks := rfl
  epochs := rfl
  reachable := rfl

theorem Tallied.refl (now : Nat) (db : Db) : Tallied now db [] db where
  enough k _ := by simp [uses_nil]
  chunks r c := by simp [uses_nil]
  queue r c := by simp [Released, uses_nil]

/-- One more object is gone. -/
theorem Removed.collect (h : Removed db₀ deleted db) (hc : collectObject db now r oid = .ok db') :
    Removed db₀ (deleted ++ [(r, oid)]) db' := by
  obtain ⟨⟨C, Q, rfl⟩, -⟩ := collectObject_ok hc
  have hmem : ∀ x : Uuid × ObjectOid, decide (x ∈ deleted ++ [(r, oid)]) =
      (decide (x ∈ deleted) || decide (x.1 = r ∧ x.2 = oid)) := by
    intro x
    simp [Prod.ext_iff]
  refine ⟨?_, ?_, ?_, h.sessions, h.sessionChunks, h.epochs, h.reachable⟩
  · simp only [Db.deleteObject, h.objects]
    exact Table.deleteWhere_deleteWhere fun o _ => hmem o.key
  · simp only [Db.deleteObject, h.objectChunks]
    exact Table.deleteWhere_deleteWhere fun x _ => hmem (x.repositoryId, x.objectOid)
  · simp only [Db.deleteObject, h.tombstones]
    exact Table.deleteWhere_deleteWhere fun t _ => hmem t.key

/-- The last to use a chunk is the last object, or one before it. -/
theorem released_append (h : Removed db₀ deleted db) (ht : Tallied now db₀ deleted db)
    {x : Uuid × ObjectOid} {r : Uuid} {c : ChunkId}
    (henough : ∀ k, db.chunks.get? (r, c) = some k → uses db [x] r c ≤ k.referenceCount) :
    Released db₀ (deleted ++ [x]) r c ↔ Released db₀ deleted r c ∨ Released db [x] r c := by
  have hchunk := ht.chunks r c
  unfold Released
  rw [h.uses_append x]
  cases hg : db₀.chunks.get? (r, c) with
  | none =>
    rw [hg] at hchunk
    simp [hchunk]
  | some k =>
    rw [hg] at hchunk
    simp only [Option.map_some] at hchunk
    have hle := henough _ hchunk
    obtain ⟨hk, hkey⟩ := Table.get?_some.1 hg
    obtain ⟨rfl, rfl⟩ := Prod.mk.inj hkey
    have hfirst := ht.enough k hk
    simp only [hchunk, Option.any_some, decide_eq_true_eq] at hle ⊢
    omega

/-- The effect of one deletion on chunks and queue. -/
theorem collectObject_exact (hc : collectObject db now r oid = .ok db') (r' : Uuid) (c' : ChunkId) :
    ReleasesTo now db db' (uses db [(r, oid)] r' c') r' c' := by
  rw [uses_singleton]
  have hexact := releaseChunks_exact hc r' c'
  exact ⟨hexact.enough, hexact.chunk, hexact.entry⟩

theorem Tallied.collect (h : Removed db₀ deleted db) (ht : Tallied now db₀ deleted db)
    (hc : collectObject db now r oid = .ok db') : Tallied now db₀ (deleted ++ [(r, oid)]) db' := by
  refine ⟨fun k hk => ?_, fun r' c' => ?_, fun r' c' => ?_⟩
  · have henough := (collectObject_exact hc k.repositoryId k.chunkId).enough
    have hget : db₀.chunks.get? (k.repositoryId, k.chunkId) = some k := Table.get?_some.2 ⟨hk, rfl⟩
    rw [ht.chunks, hget] at henough
    have hle := henough _ rfl
    have hfirst := ht.enough k hk
    rw [h.uses_append]
    simp only at hle
    omega
  · rw [(collectObject_exact hc r' c').chunk, ht.chunks, Option.map_map, h.uses_append]
    congr 1
    funext k
    simp only [Function.comp_apply, ChunkRow.mk.injEq, true_and]
    omega
  · have hiff := released_append h ht (collectObject_exact hc r' c').enough
    have hentry : db'.queue.get? (r', c') = (db.queue.get? (r', c')).or
        (if Released db [(r, oid)] r' c' then some ⟨r', c', now⟩ else none) := by
      rw [(collectObject_exact hc r' c').entry]
      congr 1
    rw [hentry, ht.queue, Option.or_assoc]
    congr 1
    by_cases hold : Released db₀ deleted r' c'
    · rw [if_pos hold, if_pos (hiff.2 (.inl hold)), Option.some_or]
    · rw [if_neg hold, Option.none_or]
      exact if_congr (by rw [hiff]; simp [hold]) rfl rfl

/-! ## Which list it was -/

theorem uses_congr {deleted' : List (Uuid × ObjectOid)} (h : ∀ x, x ∈ deleted ↔ x ∈ deleted') (db : Db)
    (r : Uuid) (c : ChunkId) : uses db deleted r c = uses db deleted' r c := by
  simp only [uses, h]

theorem Removed.congr {deleted' : List (Uuid × ObjectOid)} (h : Removed db₀ deleted db)
    (hmem : ∀ x, x ∈ deleted ↔ x ∈ deleted') : Removed db₀ deleted' db := by
  obtain ⟨ho, hx, ht, hs, hl, he, hr⟩ := h
  simp only [hmem] at ho hx ht
  exact ⟨ho, hx, ht, hs, hl, he, hr⟩

theorem Tallied.congr {deleted' : List (Uuid × ObjectOid)} (h : Tallied now db₀ deleted db)
    (hmem : ∀ x, x ∈ deleted ↔ x ∈ deleted') : Tallied now db₀ deleted' db := by
  have huses := uses_congr hmem db₀
  obtain ⟨henough, hchunks, hqueue⟩ := h
  refine ⟨fun k hk => ?_, fun r c => ?_, fun r c => ?_⟩
  · rw [← huses]
    exact henough k hk
  · rw [← huses]
    exact hchunks r c
  · rw [hqueue]
    congr 1
    exact if_congr (by simp only [Released, huses]) rfl rfl

/-- Two databases with the same objects, counts and queue. -/
structure Agrees (db db' : Db) : Prop where
  objects : db.objects = db'.objects
  objectChunks : db.objectChunks = db'.objectChunks
  tombstones : db.tombstones = db'.tombstones
  chunks : ∀ r c, db.chunks.get? (r, c) = db'.chunks.get? (r, c)
  queue : ∀ r c, db.queue.get? (r, c) = db'.queue.get? (r, c)

/-- **The objects decide what is left.** -/
theorem Tallied.unique (hr : Removed db₀ deleted db) (ht : Tallied now db₀ deleted db)
    (hr' : Removed db₀ deleted db') (ht' : Tallied now db₀ deleted db') : Agrees db db' where
  objects := hr.objects.trans hr'.objects.symm
  objectChunks := hr.objectChunks.trans hr'.objectChunks.symm
  tombstones := hr.tombstones.trans hr'.tombstones.symm
  chunks r c := (ht.chunks r c).trans (ht'.chunks r c).symm
  queue r c := (ht.queue r c).trans (ht'.queue r c).symm

/-! ## The constraints -/

theorem Db.Countable.collect (h : db.Countable) (hc : collectObject db now r oid = .ok db') :
    db'.Countable := by
  obtain ⟨db₁, h₁, hcounts⟩ := collectObject_counts h.counts now r oid
  rw [hc] at h₁
  cases h₁
  obtain ⟨⟨C, Q, rfl⟩, hup, -⟩ := collectObject_ok hc
  refine ⟨hcounts, fun x hx => ?_, fun t ht => ?_⟩
  · obtain ⟨k, hk, hkey⟩ := h.rowChunk x (Table.mem_deleteWhere.1 hx).1
    obtain ⟨k', hk', e, -⟩ := hup.keep k hk
    exact ⟨k', hk', e.trans hkey⟩
  · obtain ⟨ht, hne⟩ := Table.mem_deleteWhere.1 ht
    obtain ⟨o, ho, hkey⟩ := h.tombstone t ht
    obtain ⟨h₁, h₂⟩ := Prod.mk.inj hkey
    refine ⟨o, Table.mem_deleteWhere.2 ⟨ho, ?_⟩, hkey⟩
    rw [h₁, h₂]
    exact hne

/-- One chunk of the queue, in one transaction.
mirrors crates/git-lfs-delta-server/src/gc.rs:275-339 -/
def drainChunk (db : Db) (r : Uuid) (c : ChunkId) : Except DbError Db :=
  match drainDecision db r c with
  | .dequeue => .ok (db.dequeue r c)
  | .keep => .ok db
  | .delete => drainCommit db r c

/-- Draining touches chunks that nothing uses, and the queue. -/
theorem drainChunk_ok {c : ChunkId} (h : drainChunk db r c = .ok db') :
    ∃ C Q, db' = { db with chunks := C, queue := Q } := by
  unfold drainChunk at h
  split at h
  · cases h
    exact ⟨_, _, rfl⟩
  · cases h
    exact ⟨_, _, rfl⟩
  · obtain ⟨rfl, -⟩ := drainCommit_ok h
    exact ⟨_, _, rfl⟩

theorem Db.Countable.drain {c : ChunkId} (h : db.Countable) (hd : drainChunk db r c = .ok db') :
    db'.Countable := by
  unfold drainChunk at hd
  split at hd
  · cases hd
    exact ⟨h.counts, h.rowChunk, h.tombstone⟩
  · cases hd
    exact h
  · obtain ⟨rfl, hfk⟩ := drainCommit_ok hd
    refine ⟨fun k hk => h.counts k (Table.mem_deleteWhere.1 hk).1, fun x hx => ?_, h.tombstone⟩
    obtain ⟨k, hk, hkey⟩ := h.rowChunk x hx
    refine ⟨k, Table.mem_deleteWhere.2 ⟨hk, ?_⟩, hkey⟩
    by_contra hp
    have hp : k.repositoryId = r ∧ k.chunkId = c ∧ k.referenceCount = 0 := by simpa using hp
    -- a removed row was named by nothing
    obtain ⟨rfl, rfl, h0⟩ := hp
    obtain ⟨hrefs, -⟩ := hfk k hk rfl h0
    obtain ⟨e₁, e₂⟩ := Prod.mk.inj hkey
    have hpos : 0 < references db.objectChunks x.repositoryId x.chunkId := references_pos hx
    rw [← e₁, ← e₂, ← length_referencesTo, hrefs] at hpos
    exact absurd hpos (Nat.lt_irrefl 0)

end GitLfsDelta
