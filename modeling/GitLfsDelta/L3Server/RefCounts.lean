import GitLfsDelta.L3Server.Frames

/-!
# Reference counts

`Db.Inv` is the agreement of `objects`, `object_chunks`, `chunks` and
`upload_session_chunks`: the `object_chunks` rows are the enumerated manifests of the
objects, a chunk's count is the number of rows naming it, and every row or link names a
chunk row that exists.

One lemma per transaction says it keeps the invariant. `collectObject_total` says more:
under the invariant the decrements of `collect_due` never hit
`CHECK (reference_count >= 0)`, whatever object is collected.

`references_eq_sum` and `chunksOf_sorted` read the invariant as a statement about
manifests.
-/
namespace GitLfsDelta

/-- The number of `object_chunks` rows naming a chunk. -/
def references (O : Table ObjectChunkRow.key) (r : Uuid) (c : ChunkId) : Nat :=
  O.rows.countP fun o => o.repositoryId = r ∧ o.chunkId = c

theorem length_referencesTo (db : Db) (r : Uuid) (c : ChunkId) :
    (db.referencesTo r c).length = references db.objectChunks r c :=
  List.countP_eq_length_filter.symm

theorem references_insert {O : Table ObjectChunkRow.key} {row : ObjectChunkRow}
    (h : O.get? row.key = none) (r : Uuid) (c : ChunkId) :
    references (O.insert row) r c =
      references O r c + if row.repositoryId = r ∧ row.chunkId = c then 1 else 0 := by
  unfold references
  rw [Table.rows_insert_of_none h, List.countP_append]
  by_cases hm : row.repositoryId = r ∧ row.chunkId = c <;> simp [hm]

theorem references_eq_zero {O : Table ObjectChunkRow.key} {r : Uuid} {c : ChunkId} :
    references O r c = 0 ↔ ∀ x ∈ O, (x.repositoryId, x.chunkId) ≠ (r, c) := by
  simp [references, List.countP_eq_zero, Table.mem_rows]

theorem references_pos {O : Table ObjectChunkRow.key} {x : ObjectChunkRow} (h : x ∈ O) :
    0 < references O x.repositoryId x.chunkId := by
  rcases Nat.eq_zero_or_pos (references O x.repositoryId x.chunkId) with h0 | h0
  · exact absurd rfl (references_eq_zero.1 h0 x h)
  · exact h0

/-- The `object_chunks` rows an object's manifest stands for. -/
def ObjectRow.chunkRows (o : ObjectRow) : List ObjectChunkRow :=
  o.manifest.chunks.zipIdx.map fun p => objectChunkRow o.repositoryId o.oid p.2 p.1

theorem mem_chunkRows {o : ObjectRow} {x : ObjectChunkRow} :
    x ∈ o.chunkRows ↔
      ∃ i d, o.manifest.chunks[i]? = some d ∧ x = objectChunkRow o.repositoryId o.oid i d := by
  simp only [ObjectRow.chunkRows, List.mem_map, List.mem_zipIdx_iff_getElem?, Prod.exists]
  constructor
  · intro hs
    obtain ⟨d, i, h, rfl⟩ := hs
    exact ⟨i, d, h, rfl⟩
  · intro hs
    obtain ⟨i, d, h, rfl⟩ := hs
    exact ⟨d, i, h, rfl⟩

theorem mem_chunkRows_of_mem {o : ObjectRow} {d : ChunkDescriptor} (h : d ∈ o.manifest.chunks) :
    ∃ x ∈ o.chunkRows, x.repositoryId = o.repositoryId ∧ x.chunkId = d.id := by
  obtain ⟨i, hi⟩ := List.mem_iff_getElem?.1 h
  exact ⟨_, mem_chunkRows.2 ⟨i, d, hi, rfl⟩, rfl, rfl⟩

structure Db.Inv (db : Db) : Prop where
  /-- `object_chunks` is the enumeration of the objects' manifests. -/
  rows : ∀ x, x ∈ db.objectChunks ↔ ∃ o ∈ db.objects, x ∈ o.chunkRows
  counts : ∀ k ∈ db.chunks, k.referenceCount = references db.objectChunks k.repositoryId k.chunkId
  /-- Foreign keys into `chunks` and `upload_sessions`. -/
  rowChunk : ∀ x ∈ db.objectChunks, ∃ k ∈ db.chunks, k.key = (x.repositoryId, x.chunkId)
  linkChunk : ∀ l ∈ db.sessionChunks, ∃ k ∈ db.chunks, k.key = (l.repositoryId, l.chunkId)
  linkSession : ∀ l ∈ db.sessionChunks,
    ∃ s ∈ db.sessions, s.id = l.sessionId ∧ s.repositoryId = l.repositoryId

theorem Db.inv_empty : Db.empty.Inv where
  rows x := by simp [Db.empty]
  counts k hk := absurd hk (Table.not_mem_empty k)
  rowChunk x hx := absurd hx (Table.not_mem_empty x)
  linkChunk l hl := absurd hl (Table.not_mem_empty l)
  linkSession l hl := absurd hl (Table.not_mem_empty l)

/-- A chunk that a published manifest names has a positive count. -/
theorem Db.Inv.referenced {db : Db} (h : db.Inv) {o : ObjectRow} (ho : o ∈ db.objects)
    {d : ChunkDescriptor} (hd : d ∈ o.manifest.chunks) {k : ChunkRow} (hk : k ∈ db.chunks)
    (hkey : k.key = (o.repositoryId, d.id)) : 0 < k.referenceCount := by
  obtain ⟨x, hx, hr, hc⟩ := mem_chunkRows_of_mem hd
  have hpos := references_pos ((h.rows x).2 ⟨o, ho, hx⟩)
  rw [hr, hc] at hpos
  obtain ⟨hkr, hkc⟩ := Prod.mk.inj hkey
  rwa [h.counts k hk, hkr, hkc]

/-! ## Uploads -/

/-- Sessions that only age keep the invariant. -/
theorem Db.Inv.sessions {db : Db} (h : db.Inv) {now : Nat} {S : Table SessionRow.id}
    (hk : SessionsKept now db.sessions S) : ({ db with sessions := S } : Db).Inv where
  rows := h.rows
  counts := h.counts
  rowChunk := h.rowChunk
  linkChunk := h.linkChunk
  linkSession l hl := by
    obtain ⟨s, hs, hid, hr⟩ := h.linkSession l hl
    obtain ⟨s', hs', ha⟩ := hk s hs
    exact ⟨s', hs', ha.id_eq.trans hid, ha.repositoryId_eq.trans hr⟩

theorem Db.Inv.resume {db db' : Db} (h : db.Inv) {e : ApiError} {now : Nat} {r u newId : Uuid}
    {m : ObjectManifest} (hs : resumeOrCreate e db now r m newId = .ok (u, db')) : db'.Inv := by
  obtain ⟨⟨S, rfl⟩, -, hkept, -⟩ := resumeOrCreate_ok hs
  exact h.sessions hkept

/-- Rows added under free keys carry no reference, and nothing refers to them. -/
theorem Db.Inv.counts_grow {db : Db} (h : db.Inv) {C : Table ChunkRow.key}
    (hg : ChunksGrow db.chunks C) :
    ∀ k ∈ C, k.referenceCount = references db.objectChunks k.repositoryId k.chunkId := by
  intro k hk
  rcases hg.fresh k hk with hk | ⟨h0, hn⟩
  · exact h.counts k hk
  · rw [h0, eq_comm, references_eq_zero]
    intro x hx e
    obtain ⟨k', hk', hkey⟩ := h.rowChunk x hx
    exact Table.get?_none.1 hn k' hk' (hkey.trans e)

theorem Db.Inv.grow {db : Db} (h : db.Inv) {C : Table ChunkRow.key} (hg : ChunksGrow db.chunks C) :
    ({ db with chunks := C } : Db).Inv where
  rows := h.rows
  counts := h.counts_grow hg
  rowChunk x hx := by
    obtain ⟨k, hk, hkey⟩ := h.rowChunk x hx
    exact ⟨k, hg.keep k hk, hkey⟩
  linkChunk l hl := by
    obtain ⟨k, hk, hkey⟩ := h.linkChunk l hl
    exact ⟨k, hg.keep k hk, hkey⟩
  linkSession := h.linkSession

theorem Db.Inv.register {db db' : Db} (h : db.Inv) {r u : Uuid} {d : ChunkDescriptor}
    (hs : registerChunk db r u d = .ok db') : db'.Inv := by
  obtain ⟨⟨C, L, rfl⟩, hg, ⟨k, hk, hkey, -⟩, -, hnew, -⟩ := registerChunk_ok hs
  have h' := h.grow hg
  refine { h' with linkChunk := fun l hl => ?_, linkSession := fun l hl => ?_ }
  · rcases hnew l hl with hl | ⟨rfl, -⟩
    · exact h'.linkChunk l hl
    · exact ⟨k, hk, hkey⟩
  · rcases hnew l hl with hl | ⟨rfl, hsess⟩
    · exact h.linkSession l hl
    · exact hsess

/-- The counts agree with `object_chunks`. -/
def CountsOk (db : Db) : Prop :=
  ∀ k ∈ db.chunks, k.referenceCount = references db.objectChunks k.repositoryId k.chunkId

theorem referenceChunks_counts {r : Uuid} {oid : ObjectOid} : ∀ {ds : List ChunkDescriptor} {n : Nat}
    {db db' : Db}, referenceChunks r oid n ds db = .ok db' → CountsOk db → CountsOk db'
  | [], n, db, db', h, hc => by cases h; exact hc
  | d :: ds, n, db, db', h, hc => by
    unfold referenceChunks at h
    split at h; · cases h
    rw [bind_eq_ok] at h
    obtain ⟨db₁, h₁, h₂⟩ := h
    rw [orDatabase_ok] at h₁
    obtain ⟨hnone, -, rfl⟩ := insertObjectChunk_ok h₁
    apply referenceChunks_counts h₂
    intro k hk
    -- one new row naming `(r, d.id)`, one count up on exactly that row
    have href := references_insert hnone k.repositoryId k.chunkId
    rw [show (Db.addReference _ r d.id).objectChunks = db.objectChunks.insert
      (objectChunkRow r oid n d) from rfl, href]
    rcases (Table.mem_updateWhere (by intro; rfl)).1 hk with ⟨hk, hp⟩ | ⟨k₀, hk₀, hp, rfl⟩
    · have hp : ¬ (k.repositoryId = r ∧ k.chunkId = d.id) := by simpa using hp
      rw [if_neg fun e => hp ⟨e.1.symm, e.2.symm⟩]
      exact hc k hk
    · have hp : k₀.repositoryId = r ∧ k₀.chunkId = d.id := by simpa using hp
      rw [if_pos ⟨hp.1.symm, hp.2.symm⟩]
      exact congrArg (· + 1) (hc k₀ hk₀)

theorem Db.Inv.finalize {db : Db} (h : db.Inv) {s : SessionRow} (hs : s ∈ db.sessions)
    (ho : s.state = .opened) : (finalizeSession db s.id).Inv := by
  have hkept : SessionsKept 0 db.sessions (finalizeSession db s.id).sessions :=
    (finalizeSession_ages hs ho).2
  exact h.sessions hkept

/-- A new object with its rows and counts. -/
theorem Db.Inv.publishNew {db db₁ db₃ : Db} (h : db.Inv) {r : Uuid} {m : ObjectManifest}
    (h₁ : insertChunks r m.chunks db = .ok db₁)
    (hnone : db.objects.get? (r, m.objectOid) = none)
    (h₃ : referenceChunks r m.objectOid 0 m.chunks { db₁ with
      objects := db₁.objects.insert ⟨r, m.objectOid, m.objectSize.toNat, m⟩ } = .ok db₃) :
    db₃.Inv := by
  obtain ⟨⟨C, rfl⟩, hg, hall⟩ := insertChunks_ok h₁
  have hcounts : CountsOk db₃ := referenceChunks_counts h₃ (h.grow hg).counts
  obtain ⟨⟨C', O, rfl⟩, hup, hrows, -⟩ := referenceChunks_ok h₃
  refine ⟨fun x => ?_, hcounts, fun x hx => ?_, fun l hl => ?_, h.linkSession⟩
  · rw [hrows x, h.rows x]
    simp only [Table.mem_insert, Nat.zero_add]
    constructor
    · intro hs
      rcases hs with ⟨o, ho, hx⟩ | ⟨i, d, hd, rfl⟩
      · exact ⟨o, .inl ho, hx⟩
      · exact ⟨_, .inr ⟨rfl, hnone⟩, mem_chunkRows.2 ⟨i, d, hd, rfl⟩⟩
    · intro hs
      rcases hs with ⟨o, ho | ⟨rfl, -⟩, hx⟩
      · exact .inl ⟨o, ho, hx⟩
      · exact .inr (mem_chunkRows.1 hx)
  · have hold : ∃ k ∈ C, k.key = (x.repositoryId, x.chunkId) := by
      rcases (hrows x).1 hx with hx | ⟨i, d, hd, rfl⟩
      · obtain ⟨k, hk, hkey⟩ := h.rowChunk x hx
        exact ⟨k, hg.keep k hk, hkey⟩
      · exact hall d (List.mem_of_getElem? hd)
    obtain ⟨k, hk, hkey⟩ := hold
    obtain ⟨k', hk', e, -⟩ := hup.keep k hk
    exact ⟨k', hk', e.trans hkey⟩
  · obtain ⟨k, hk, hkey⟩ := h.linkChunk l hl
    obtain ⟨k', hk', e, -⟩ := hup.keep k (hg.keep k hk)
    exact ⟨k', hk', e.trans hkey⟩

theorem Db.Inv.publish {db db' : Db} (h : db.Inv) {now : Nat} {r u : Uuid} {m : ObjectManifest}
    {b : Bool} (hs : publishManifest db now r u m = .ok (b, db')) : db'.Inv := by
  obtain ⟨-, s, hsm, ⟨rfl, -, -⟩, hcase⟩ := publishManifest_ok hs
  rcases hcase with ⟨-, -, rfl⟩ | ⟨⟨ho, -⟩, db₁, h₁, hcase⟩
  · exact h
  · have hsess := h₁
    obtain ⟨⟨C, rfl⟩, hg, -⟩ := insertChunks_ok h₁
    rcases hcase with ⟨-, -, rfl⟩ | ⟨-, hnone, db₃, h₃, rfl⟩
    · exact (h.grow hg).finalize hsm ho
    · have hinv := h.publishNew hsess hnone h₃
      obtain ⟨⟨C', O, rfl⟩, -, -⟩ := referenceChunks_ok h₃
      exact hinv.finalize hsm ho

/-! ## Collection -/

theorem references_deleteObject (db : Db) (r r' : Uuid) (oid : ObjectOid) (c : ChunkId) :
    references db.objectChunks r' c = references (db.deleteObject r oid).objectChunks r' c +
      if r' = r then ((db.chunksOf r oid).map (·.chunkId)).count c else 0 := by
  unfold references Db.deleteObject Db.chunksOf Table.deleteWhere
  simp only
  generalize db.objectChunks.rows = l
  induction l with
  | nil => simp
  | cons x l ih =>
    simp only [List.countP_cons, List.filter_cons, ih]
    grind

/-- Releasing a list of chunks whose counts include it never fails a check, and leaves
exact counts. -/
theorem releaseChunks_counts {now : Nat} {r : Uuid} : ∀ {cs : List ChunkId} {db : Db},
    (∀ k ∈ db.chunks, k.referenceCount = references db.objectChunks k.repositoryId k.chunkId +
      if k.repositoryId = r then cs.count k.chunkId else 0) →
    ∃ db', releaseChunks now r cs db = .ok db' ∧ CountsOk db'
  | [], db, h => ⟨db, rfl, fun k hk => by simpa using h k hk⟩
  | c :: cs, db, h => by
    have hdrop : ((db.chunks.get? (r, c)).any fun k => k.referenceCount = 0) = false := by
      cases hg : db.chunks.get? (r, c) with
      | none => rfl
      | some k =>
        obtain ⟨hk, hkey⟩ := Table.get?_some.1 hg
        obtain ⟨hr, hc⟩ := Prod.mk.inj hkey
        have := h k hk
        simp only [Option.any_some, decide_eq_false_iff_not]
        rw [if_pos hr, hc, List.count_cons_self] at this
        omega
    have hnext : ∀ k ∈ db.chunks.updateWhere (fun k => k.repositoryId = r ∧ k.chunkId = c)
        (fun k => { k with referenceCount := k.referenceCount - 1 }) fun _ => rfl,
        k.referenceCount = references db.objectChunks k.repositoryId k.chunkId +
          if k.repositoryId = r then cs.count k.chunkId else 0 := by
      intro k hk
      rcases (Table.mem_updateWhere (by intro; rfl)).1 hk with ⟨hk, hp⟩ | ⟨k₀, hk₀, hp, rfl⟩
      · have := h k hk
        grind
      · have := h k₀ hk₀
        grind
    unfold releaseChunks Db.dropReference
    rw [hdrop]
    simp only [Bool.false_eq_true, if_false]
    split
    · exact releaseChunks_counts hnext
    · exact releaseChunks_counts hnext

/-- Exact counts suffice for every decrement of a collection, and stay exact. -/
theorem collectObject_counts {db : Db} (h : CountsOk db) (now : Nat) (r : Uuid) (oid : ObjectOid) :
    ∃ db', collectObject db now r oid = .ok db' ∧ CountsOk db' := by
  apply releaseChunks_counts
  intro k hk
  rw [h k hk]
  exact references_deleteObject db r k.repositoryId oid k.chunkId

/-- **No decrement violates the check.** Under the invariant every object can be
collected, and the invariant holds after it. -/
theorem collectObject_total {db : Db} (h : db.Inv) (now : Nat) (r : Uuid) (oid : ObjectOid) :
    ∃ db', collectObject db now r oid = .ok db' ∧ db'.Inv := by
  obtain ⟨db', hok, hcounts⟩ := collectObject_counts h.counts now r oid
  refine ⟨db', hok, ?_⟩
  obtain ⟨⟨C, Q, rfl⟩, hup, -⟩ := collectObject_ok hok
  refine ⟨fun x => ?_, hcounts, fun x hx => ?_, fun l hl => ?_, h.linkSession⟩
  · -- the rows and the object are deleted by the same condition
    simp only [Db.deleteObject, Table.mem_deleteWhere, h.rows x, decide_eq_false_iff_not]
    constructor
    · intro hs
      obtain ⟨⟨o, ho, hx⟩, hne⟩ := hs
      obtain ⟨i, d, -, rfl⟩ := mem_chunkRows.1 hx
      exact ⟨o, ⟨ho, hne⟩, hx⟩
    · intro hs
      obtain ⟨o, ⟨ho, hne⟩, hx⟩ := hs
      refine ⟨⟨o, ho, hx⟩, ?_⟩
      obtain ⟨i, d, -, rfl⟩ := mem_chunkRows.1 hx
      exact hne
  · obtain ⟨k, hk, hkey⟩ := h.rowChunk x (Table.mem_deleteWhere.1 hx).1
    obtain ⟨k', hk', e, -⟩ := hup.keep k hk
    exact ⟨k', hk', e.trans hkey⟩
  · obtain ⟨k, hk, hkey⟩ := h.linkChunk l hl
    obtain ⟨k', hk', e, -⟩ := hup.keep k hk
    exact ⟨k', hk', e.trans hkey⟩

theorem Db.Inv.collect {db db' : Db} (h : db.Inv) {now : Nat} {r : Uuid} {oid : ObjectOid}
    (hs : collectObject db now r oid = .ok db') : db'.Inv := by
  obtain ⟨db₁, h₁, hinv⟩ := collectObject_total h now r oid
  rw [h₁] at hs
  cases hs
  exact hinv

theorem Db.Inv.reclaim {db : Db} (h : db.Inv) (now : Nat) (r : Uuid) (seconds : Nat) :
    (reclaimSessions db now r seconds).Inv := by
  obtain ⟨S, L, Q, hS, -, hlinks, -⟩ := reclaimSessions_spec db now r seconds
  rw [hS]
  refine ⟨h.rows, h.counts, h.rowChunk, fun l hl => h.linkChunk l (hlinks l hl).1, fun l hl => ?_⟩
  obtain ⟨hold, hkept⟩ := hlinks l hl
  obtain ⟨s, hs, hid, hr⟩ := h.linkSession l hold
  obtain ⟨s', hs', ha⟩ := hkept s hs hid
  exact ⟨s', hs', ha.id_eq.trans hid, ha.repositoryId_eq.trans hr⟩

theorem Db.Inv.drain {db db' : Db} (h : db.Inv) {r : Uuid} {c : ChunkId}
    (hs : drainCommit db r c = .ok db') : db'.Inv := by
  obtain ⟨rfl, hfk⟩ := drainCommit_ok hs
  -- a removed row was named by nothing
  have hstay : ∀ k ∈ db.chunks, (∃ x ∈ db.objectChunks, k.key = (x.repositoryId, x.chunkId)) ∨
      (∃ l ∈ db.sessionChunks, k.key = (l.repositoryId, l.chunkId)) →
      k ∈ db.chunks.deleteWhere fun k => k.repositoryId = r ∧ k.chunkId = c ∧ k.referenceCount = 0 := by
    intro k hk hnamed
    refine Table.mem_deleteWhere.2 ⟨hk, ?_⟩
    by_contra hp
    have hp : k.repositoryId = r ∧ k.chunkId = c ∧ k.referenceCount = 0 := by simpa using hp
    obtain ⟨rfl, rfl, h0⟩ := hp
    obtain ⟨hrefs, hlink⟩ := hfk k hk rfl h0
    rcases hnamed with ⟨x, hx, e⟩ | ⟨l, hl, e⟩
    · obtain ⟨e₁, e₂⟩ := Prod.mk.inj e
      have hpos := references_pos hx
      rw [← e₁, ← e₂, ← length_referencesTo, hrefs] at hpos
      simp at hpos
    · obtain ⟨e₁, e₂⟩ := Prod.mk.inj e
      exact hlink ⟨l, hl, e₁.symm, e₂.symm⟩
  refine ⟨h.rows, fun k hk => h.counts k (Table.mem_deleteWhere.1 hk).1, fun x hx => ?_,
    fun l hl => ?_, h.linkSession⟩
  · obtain ⟨k, hk, e⟩ := h.rowChunk x hx
    exact ⟨k, hstay k hk (.inl ⟨x, hx, e⟩), e⟩
  · obtain ⟨k, hk, e⟩ := h.linkChunk l hl
    exact ⟨k, hstay k hk (.inr ⟨l, hl, e⟩), e⟩

/-! ## The invariant as a statement about manifests -/

theorem chunkRows_ordinals (o : ObjectRow) :
    o.chunkRows.map (·.ordinal) = List.range' 0 o.manifest.chunks.length := by
  rw [← List.zipIdx_map_snd, ObjectRow.chunkRows, List.map_map]
  rfl

theorem chunkRows_pairwise (o : ObjectRow) :
    o.chunkRows.Pairwise fun a b => a.ordinal < b.ordinal := by
  rw [← List.pairwise_map, chunkRows_ordinals]
  exact List.pairwise_lt_range'

theorem chunkRows_nodup (o : ObjectRow) : o.chunkRows.Nodup :=
  (chunkRows_pairwise o).imp fun h e => by rw [e] at h; exact absurd h (lt_irrefl _)

theorem chunkRows_count (o : ObjectRow) (r : Uuid) (c : ChunkId) :
    (o.chunkRows.countP fun x => x.repositoryId = r ∧ x.chunkId = c) =
      if o.repositoryId = r then (o.manifest.chunks.map (·.id)).count c else 0 := by
  rw [ObjectRow.chunkRows, List.countP_map]
  have hfst : o.manifest.chunks.map (·.id) = (o.manifest.chunks.zipIdx.map Prod.fst).map (·.id) := by
    rw [List.zipIdx_map_fst]
  rw [hfst, List.map_map, List.count_eq_countP, List.countP_map]
  split
  · rename_i hr
    apply List.countP_congr
    intro p _
    simp [objectChunkRow, hr]
  · rename_i hr
    apply List.countP_eq_zero.2
    intro p _
    simp [objectChunkRow, hr]

theorem Db.Inv.rows_perm {db : Db} (h : db.Inv) :
    db.objectChunks.rows.Perm (db.objects.rows.flatMap ObjectRow.chunkRows) := by
  refine (List.perm_ext_iff_of_nodup db.objectChunks.rows_nodup ?_).2 fun x => ?_
  · refine List.nodup_flatMap.2 ⟨fun o _ => chunkRows_nodup o, ?_⟩
    -- rows of different objects differ in their key
    refine (List.pairwise_map.1 db.objects.nodup).imp fun hne => ?_
    intro x hx hx'
    obtain ⟨i, d, -, rfl⟩ := mem_chunkRows.1 hx
    obtain ⟨j, d', -, e⟩ := mem_chunkRows.1 hx'
    simp only [objectChunkRow, ObjectChunkRow.mk.injEq] at e
    exact hne (Prod.ext e.1 e.2.1)
  · rw [Table.mem_rows, h.rows x, List.mem_flatMap]
    rfl

/-- A chunk's rows, counted over the repository's manifests with repeats. -/
theorem references_eq_sum {db : Db} (h : db.Inv) (r : Uuid) (c : ChunkId) :
    references db.objectChunks r c = ((db.objects.rows.filter fun o => o.repositoryId = r).map
      fun o => (o.manifest.chunks.map (·.id)).count c).sum := by
  unfold references
  rw [h.rows_perm.countP_eq, List.countP_flatMap]
  generalize db.objects.rows = l
  induction l with
  | nil => rfl
  | cons o l ih =>
    rw [List.map_cons, List.sum_cons, ih, Function.comp_apply, chunkRows_count, List.filter_cons]
    by_cases hr : o.repositoryId = r <;> simp [hr]

theorem sorted_by_ordinal (l : List ObjectChunkRow) :
    (l.insertionSort fun a b => a.ordinal ≤ b.ordinal).Pairwise fun a b => a.ordinal ≤ b.ordinal :=
  haveI : Std.Total fun a b : ObjectChunkRow => a.ordinal ≤ b.ordinal :=
    ⟨fun a b => le_total a.ordinal b.ordinal⟩
  haveI : IsTrans ObjectChunkRow fun a b => a.ordinal ≤ b.ordinal := ⟨fun _ _ _ => le_trans⟩
  List.pairwise_insertionSort _ l

/-- An object's rows in ordinal order are its manifest's descriptors. -/
theorem chunksOf_sorted {db : Db} (h : db.Inv) {o : ObjectRow} (ho : o ∈ db.objects) :
    (db.chunksOf o.repositoryId o.oid).insertionSort (fun a b => a.ordinal ≤ b.ordinal) =
      o.chunkRows := by
  have hperm := List.perm_insertionSort (fun a b : ObjectChunkRow => a.ordinal ≤ b.ordinal)
    (db.chunksOf o.repositoryId o.oid)
  have hmem : ∀ x, x ∈ db.chunksOf o.repositoryId o.oid ↔ x ∈ o.chunkRows := by
    intro x
    simp only [Db.chunksOf, List.mem_filter, Table.mem_rows, h.rows x, decide_eq_true_eq]
    constructor
    · intro hs
      obtain ⟨⟨o', ho', hx⟩, hr, hoid⟩ := hs
      obtain ⟨i, d, -, rfl⟩ := mem_chunkRows.1 hx
      rwa [← Table.eq_of_key ho' ho (Prod.ext hr hoid)]
    · intro hx
      obtain ⟨i, d, -, rfl⟩ := mem_chunkRows.1 hx
      exact ⟨⟨o, ho, hx⟩, rfl, rfl⟩
  have hperm' : (db.chunksOf o.repositoryId o.oid).Perm o.chunkRows :=
    (List.perm_ext_iff_of_nodup (db.objectChunks.rows_nodup.filter _) (chunkRows_nodup o)).2 hmem
  have hord : (o.chunkRows.map (·.ordinal)).Nodup := by
    rw [chunkRows_ordinals]; exact List.nodup_range'
  refine List.Perm.eq_of_pairwise ?_ (sorted_by_ordinal _) ((chunkRows_pairwise o).imp le_of_lt)
    (hperm.trans hperm')
  intro a b ha hb hab hba
  have ha' : a ∈ o.chunkRows := (hmem a).1 (hperm.mem_iff.1 ha)
  exact List.inj_on_of_nodup_map hord ha' hb (le_antisymm hab hba)

end GitLfsDelta
