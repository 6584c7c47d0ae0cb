import GitLfsDelta.L3Server.Uploads
import GitLfsDelta.L3Server.Collection

/-!
# What each transaction changes

One lemma per transaction: which tables of `Db` it may change (`db' = { db with ... }`,
so every other table is framed) and what the changed tables hold afterwards. Later
modules use these and never unfold a transaction.

* Sessions only age (`SessionRow.Ages`): a row keeps its identity, and once it is no
  longer open, or no longer unexpired, it stays so. A new session has a new id.
* Links and chunk rows appear through `registerChunk` and `publishManifest` only.
* Epochs and `reachable_objects` rows are never changed or removed once complete.
-/
namespace GitLfsDelta

/-! ## Sessions -/

/-- How a transaction at time `now` may change a session row. -/
inductive SessionRow.Ages (now : Nat) (s : SessionRow) : SessionRow → Prop
  | same : s.Ages now s
  | expire : s.expiresAt ≤ now → s.Ages now { s with state := .expired }
  | finalize : s.state = .opened → s.Ages now { s with state := .finalized }
  | extend (t : Nat) : now < s.expiresAt → s.Ages now { s with expiresAt := t }

namespace SessionRow.Ages

variable {now : Nat} {s s' : SessionRow}

theorem id_eq (h : s.Ages now s') : s'.id = s.id := by cases h <;> rfl

theorem repositoryId_eq (h : s.Ages now s') : s'.repositoryId = s.repositoryId := by cases h <;> rfl

theorem manifest_eq (h : s.Ages now s') : s'.manifest = s.manifest := by cases h <;> rfl

theorem opened (h : s.Ages now s') (ho : s'.state = .opened) : s.state = .opened := by
  cases h <;> simp_all

theorem unexpired (h : s.Ages now s') (hu : now < s'.expiresAt) : now < s.expiresAt ∨
    s'.state = .expired := by
  cases h <;> simp_all

theorem live (h : s.Ages now s') (ho : s'.state = .opened) (hu : now < s'.expiresAt) :
    s.state = .opened ∧ now < s.expiresAt := by
  refine ⟨h.opened ho, ?_⟩
  rcases h.unexpired hu with h' | h'
  · exact h'
  · rw [ho] at h'; cases h'

end SessionRow.Ages

/-- The session is in state `open`. -/
def Db.Open (db : Db) (u : Uuid) : Prop := ∃ s ∈ db.sessions, s.id = u ∧ s.state = .opened

/-- The session is open and unexpired. -/
def Db.Live (db : Db) (now : Nat) (u : Uuid) : Prop :=
  ∃ s ∈ db.sessions, s.id = u ∧ s.state = .opened ∧ now < s.expiresAt

instance (db : Db) (now : Nat) (u : Uuid) : Decidable (db.Live now u) := by
  unfold Db.Live; infer_instance

theorem Db.Live.isOpen {db : Db} {now : Nat} {u : Uuid} (h : db.Live now u) : db.Open u := by
  obtain ⟨s, hs, hid, ho, -⟩ := h
  exact ⟨s, hs, hid, ho⟩

/-- Every session of `S'` is an aged session of `S`. -/
def SessionsAge (now : Nat) (S S' : Table SessionRow.id) : Prop := ∀ s' ∈ S', ∃ s ∈ S, s.Ages now s'

/-- Every session of `S` is still there, aged. -/
def SessionsKept (now : Nat) (S S' : Table SessionRow.id) : Prop := ∀ s ∈ S, ∃ s' ∈ S', s.Ages now s'

theorem SessionsAge.refl (now : Nat) (S : Table SessionRow.id) : SessionsAge now S S :=
  fun s hs => ⟨s, hs, .same⟩

theorem SessionsAge.isOpen {now : Nat} {db db' : Db} {u : Uuid}
    (h : SessionsAge now db.sessions db'.sessions) (ho : db'.Open u) : db.Open u := by
  obtain ⟨s', hs', rfl, ho⟩ := ho
  obtain ⟨s, hs, ha⟩ := h s' hs'
  exact ⟨s, hs, ha.id_eq.symm, ha.opened ho⟩

theorem SessionsAge.live {now : Nat} {db db' : Db} {u : Uuid}
    (h : SessionsAge now db.sessions db'.sessions) (hl : db'.Live now u) : db.Live now u := by
  obtain ⟨s', hs', rfl, ho, hu⟩ := hl
  obtain ⟨s, hs, ha⟩ := h s' hs'
  exact ⟨s, hs, ha.id_eq.symm, ha.live ho hu⟩

theorem mem_expireOpen {db : Db} {now : Nat} {p : SessionRow → Bool} {s' : SessionRow}
    (h : s' ∈ (db.expireOpen now p).sessions) :
    ∃ s ∈ db.sessions, s.Ages now s' ∧ (s'.state = .opened → s' = s ∧ (p s → now < s.expiresAt)) := by
  rcases (Table.mem_updateWhere (by intro; rfl)).1 h with ⟨hs, hp⟩ | ⟨s, hs, hp, rfl⟩
  · refine ⟨s', hs, .same, fun ho => ⟨rfl, fun hps => ?_⟩⟩
    simp only [Bool.decide_and, Bool.and_eq_false_iff, decide_eq_false_iff_not] at hp
    rcases hp with hp | hp | hp
    · exact absurd hps hp
    · exact absurd ho hp
    · omega
  · simp only [decide_eq_true_eq] at hp
    exact ⟨s, hs, .expire hp.2.2, fun ho => by cases ho⟩

theorem mem_expireOpen_of_mem {db : Db} (now : Nat) (p : SessionRow → Bool) {s : SessionRow}
    (h : s ∈ db.sessions) : ∃ s' ∈ (db.expireOpen now p).sessions, s.Ages now s' := by
  by_cases hp : p s ∧ s.state = .opened ∧ s.expiresAt ≤ now
  · exact ⟨_, (Table.mem_updateWhere (by intro; rfl)).2 (.inr ⟨s, h, by simpa using hp, rfl⟩), .expire hp.2.2⟩
  · exact ⟨s, (Table.mem_updateWhere (by intro; rfl)).2 (.inl ⟨h, by simpa using hp⟩), .same⟩

/-- The row `upsertSession` inserts. -/
def newSession (now : Nat) (r : Uuid) (m : ObjectManifest) (newId : Uuid) : SessionRow :=
  ⟨newId, r, m.objectOid, m.objectSize.toNat, m, .opened, now + sessionLifetime⟩

/-- `begin_cdc` and `upload_basic` only touch sessions: old rows age, at most one row is
new, and the session answered is open, fresh and carries the manifest. -/
theorem resumeOrCreate_ok {e : ApiError} {db db' : Db} {now : Nat} {r u newId : Uuid}
    {m : ObjectManifest} (h : resumeOrCreate e db now r m newId = .ok (u, db')) :
    (∃ S, db' = { db with sessions := S }) ∧
      (∀ s' ∈ db'.sessions, (∃ s ∈ db.sessions, s.Ages now s') ∨
        s' = newSession now r m newId ∧ db.sessions.get? newId = none) ∧
      SessionsKept now db.sessions db'.sessions ∧
      ∃ s' ∈ db'.sessions, s'.id = u ∧ s'.repositoryId = r ∧ s'.objectOid = m.objectOid ∧
        s'.manifest = m ∧ s'.state = .opened ∧ s'.expiresAt = now + sessionLifetime := by
  unfold resumeOrCreate at h
  simp only at h
  split at h; · cases h
  rw [bind_eq_ok] at h
  obtain ⟨⟨s₀, db₂⟩, hup, h⟩ := h
  rw [orDatabase_ok] at hup
  simp only at h
  split at h; · cases h
  rename_i hm
  cases h
  have hm : s₀.manifest = m := by simpa using hm
  unfold upsertSession at hup
  split at hup
  · -- an open session is resumed
    rename_i s hfind
    cases hup
    obtain ⟨hs, hp⟩ := Table.mem_of_find? hfind
    simp only [decide_eq_true_eq] at hp
    obtain ⟨hr, hoid, ho⟩ := hp
    have hlive : now < s.expiresAt := by
      obtain ⟨s₁, -, -, hx⟩ := mem_expireOpen hs
      obtain ⟨rfl, hx⟩ := hx ho
      exact hx (by simp [hr, hoid])
    refine ⟨⟨_, rfl⟩, ?_, ?_, ?_⟩
    · intro s' hs'
      left
      rcases (Table.mem_updateWhere (by intro; rfl)).1 hs' with ⟨hs', -⟩ | ⟨x, hx, hid, rfl⟩
      · obtain ⟨x, hx, ha, -⟩ := mem_expireOpen hs'
        exact ⟨x, hx, ha⟩
      · have : x = s := Table.eq_of_key hx hs (by simpa using hid)
        subst this
        obtain ⟨y, hy, -, hyo⟩ := mem_expireOpen hx
        obtain ⟨rfl, -⟩ := hyo ho
        exact ⟨_, hy, .extend _ hlive⟩
    · intro x hx
      obtain ⟨y, hy, ha⟩ := mem_expireOpen_of_mem now
        (fun s => s.repositoryId = r ∧ s.objectOid = m.objectOid) hx
      by_cases hid : y.id = s.id
      · have : y = s := Table.eq_of_key hy hs hid
        subst this
        obtain ⟨z, hz, hza, hzo⟩ := mem_expireOpen hy
        obtain ⟨rfl, -⟩ := hzo ho
        have : x = y := Table.eq_of_key hx hz (ha.id_eq.symm)
        subst this
        exact ⟨_, (Table.mem_updateWhere (by intro; rfl)).2 (.inr ⟨x, hy, by simp, rfl⟩), .extend _ hlive⟩
      · exact ⟨y, (Table.mem_updateWhere (by intro; rfl)).2 (.inl ⟨hy, by simpa using hid⟩), ha⟩
    · exact ⟨_, (Table.mem_updateWhere (by intro; rfl)).2 (.inr ⟨s, hs, by simp, rfl⟩), rfl, hr, hoid, hm, ho, rfl⟩
  · split at hup; · cases hup
    rename_i hnone
    cases hup
    have hnone : (db.expireOpen now fun s => s.repositoryId = r ∧ s.objectOid = m.objectOid).sessions.get?
        newId = none := by simpa using hnone
    refine ⟨⟨_, rfl⟩, ?_, ?_, ?_⟩
    · intro s' hs'
      rcases Table.mem_insert.1 hs' with hs' | ⟨rfl, -⟩
      · obtain ⟨x, hx, ha, -⟩ := mem_expireOpen hs'
        exact .inl ⟨x, hx, ha⟩
      · refine .inr ⟨rfl, Table.get?_none.2 fun x hx hid => ?_⟩
        obtain ⟨y, hy, ha⟩ := mem_expireOpen_of_mem now
          (fun s => s.repositoryId = r ∧ s.objectOid = m.objectOid) hx
        exact Table.get?_none.1 hnone y hy (ha.id_eq.trans hid)
    · intro x hx
      obtain ⟨y, hy, ha⟩ := mem_expireOpen_of_mem now
        (fun s => s.repositoryId = r ∧ s.objectOid = m.objectOid) hx
      exact ⟨y, Table.mem_insert_of_mem hy, ha⟩
    · exact ⟨newSession now r m newId, Table.mem_insert.2 (.inr ⟨rfl, hnone⟩),
        rfl, rfl, rfl, rfl, rfl, rfl⟩

theorem beginCdc_ok {db db' : Db} {now v : Nat} {r u newId : Uuid} {oid : ObjectOid}
    {m : ObjectManifest} (h : beginCdc db now r oid v m newId = .ok (u, db')) :
    m.validate = .ok () ∧ m.objectOid = oid ∧
      resumeOrCreate ⟨422, "object is too large"⟩ db now r m newId = .ok (u, db') := by
  unfold beginCdc at h
  split at h; · cases h
  split at h; · cases h
  rename_i hv
  split at h; · cases h
  rename_i hoid
  exact ⟨hv, by simpa using hoid, h⟩

/-! ## Chunk registration -/

/-- Chunk rows were added only under free keys, and without references. -/
structure ChunksGrow (C C' : Table ChunkRow.key) : Prop where
  keep : ∀ k ∈ C, k ∈ C'
  fresh : ∀ k ∈ C', k ∈ C ∨ k.referenceCount = 0 ∧ C.get? k.key = none

theorem ChunksGrow.refl (C : Table ChunkRow.key) : ChunksGrow C C := ⟨fun _ h => h, fun _ h => .inl h⟩

theorem ChunksGrow.trans {C₁ C₂ C₃ : Table ChunkRow.key} (h₁ : ChunksGrow C₁ C₂)
    (h₂ : ChunksGrow C₂ C₃) : ChunksGrow C₁ C₃ where
  keep k hk := h₂.keep k (h₁.keep k hk)
  fresh k hk := by
    rcases h₂.fresh k hk with hk | ⟨h0, hn⟩
    · exact h₁.fresh k hk
    · exact .inr ⟨h0, Table.get?_none.2 fun x hx => Table.get?_none.1 hn x (h₁.keep x hx)⟩

/-- Chunk rows were updated in place: same keys and sizes. -/
structure ChunksUpdated (C C' : Table ChunkRow.key) : Prop where
  keep : ∀ k ∈ C, ∃ k' ∈ C', k'.key = k.key ∧ k'.size = k.size
  old : ∀ k' ∈ C', ∃ k ∈ C, k'.key = k.key ∧ k'.size = k.size

theorem ChunksUpdated.refl (C : Table ChunkRow.key) : ChunksUpdated C C :=
  ⟨fun k h => ⟨k, h, rfl, rfl⟩, fun k h => ⟨k, h, rfl, rfl⟩⟩

theorem ChunksUpdated.trans {C₁ C₂ C₃ : Table ChunkRow.key} (h₁ : ChunksUpdated C₁ C₂)
    (h₂ : ChunksUpdated C₂ C₃) : ChunksUpdated C₁ C₃ where
  keep k hk := by
    obtain ⟨k₂, hk₂, e₂, z₂⟩ := h₁.keep k hk
    obtain ⟨k₃, hk₃, e₃, z₃⟩ := h₂.keep k₂ hk₂
    exact ⟨k₃, hk₃, e₃.trans e₂, z₃.trans z₂⟩
  old k hk := by
    obtain ⟨k₂, hk₂, e₂, z₂⟩ := h₂.old k hk
    obtain ⟨k₁, hk₁, e₁, z₁⟩ := h₁.old k₂ hk₂
    exact ⟨k₁, hk₁, e₂.trans e₁, z₂.trans z₁⟩

theorem ChunksUpdated.of_updateWhere (C : Table ChunkRow.key) (p : ChunkRow → Bool)
    (f : ChunkRow → ChunkRow) (hf : ∀ k, (f k).key = k.key) (hsize : ∀ k, (f k).size = k.size) :
    ChunksUpdated C (C.updateWhere p f hf) where
  keep k hk := by
    by_cases hp : p k = true
    · exact ⟨f k, (Table.mem_updateWhere hf).2 (.inr ⟨k, hk, hp, rfl⟩), hf k, hsize k⟩
    · exact ⟨k, (Table.mem_updateWhere hf).2 (.inl ⟨hk, by simpa using hp⟩), rfl, rfl⟩
  old k hk := by
    rcases (Table.mem_updateWhere hf).1 hk with ⟨hk, -⟩ | ⟨b, hb, -, rfl⟩
    · exact ⟨k, hk, rfl, rfl⟩
    · exact ⟨b, hb, hf b, hsize b⟩

theorem insertChunk_ok {db db' : Db} {r : Uuid} {c : ChunkId} {n : Nat}
    (h : db.insertChunk r c n = .ok db') :
    db' = { db with chunks := db.chunks.insert ⟨r, c, n, 0⟩ } ∧ ChunksGrow db.chunks db'.chunks ∧
      ∃ k ∈ db'.chunks, k.key = (r, c) := by
  unfold Db.insertChunk at h
  split at h; · cases h
  cases h
  refine ⟨rfl, ⟨fun k hk => Table.mem_insert_of_mem hk, fun k hk => ?_⟩,
    Table.exists_mem_insert db.chunks ⟨r, c, n, 0⟩⟩
  rcases Table.mem_insert.1 hk with hk | ⟨rfl, hn⟩
  · exact .inl hk
  · exact .inr ⟨rfl, hn⟩

theorem upsertChunk_ok {db db' : Db} {r : Uuid} {d : ChunkDescriptor}
    (h : upsertChunk db r d = .ok db') :
    (∃ C, db' = { db with chunks := C }) ∧ ChunksGrow db.chunks db'.chunks ∧
      ∃ k ∈ db'.chunks, k.key = (r, d.id) ∧ k.size = d.length.toNat := by
  unfold upsertChunk at h
  split at h
  · rename_i hn
    rw [orDatabase_ok] at h
    obtain ⟨rfl, hg, -⟩ := insertChunk_ok h
    exact ⟨⟨_, rfl⟩, hg, ⟨r, d.id, d.length.toNat, 0⟩, Table.mem_insert.2 (.inr ⟨rfl, hn⟩), rfl, rfl⟩
  · rename_i k hk
    split at h
    · rename_i hsize
      cases h
      obtain ⟨hm, hkey⟩ := Table.get?_some.1 hk
      exact ⟨⟨_, rfl⟩, .refl _, k, hm, hkey, hsize⟩
    · cases h

theorem linkSessionChunk_ok {db db' : Db} {u r : Uuid} {c : ChunkId}
    (h : db.linkSessionChunk u r c = .ok db') :
    (∃ L, db' = { db with sessionChunks := L }) ∧
      (∀ l ∈ db.sessionChunks, l ∈ db'.sessionChunks) ∧
      (∀ l ∈ db'.sessionChunks, l ∈ db.sessionChunks ∨
        l = ⟨u, r, c⟩ ∧ ∃ s ∈ db.sessions, s.id = u ∧ s.repositoryId = r) ∧
      ∃ l ∈ db'.sessionChunks, l.key = (u, c) := by
  unfold Db.linkSessionChunk at h
  split at h
  · rename_i hsome
    cases h
    refine ⟨⟨_, rfl⟩, fun _ h => h, fun _ h => .inl h, ?_⟩
    obtain ⟨l, hl⟩ := Option.ne_none_iff_exists'.1 hsome
    obtain ⟨hm, hk⟩ := Table.get?_some.1 hl
    exact ⟨l, hm, hk⟩
  · split at h; · cases h
    rename_i hfk
    cases h
    rw [not_or, Bool.not_eq_false] at hfk
    obtain ⟨s, hs, hr⟩ := (Option.any_eq_true _ _).1 hfk.1
    obtain ⟨hsm, hid⟩ := Table.get?_some.1 hs
    refine ⟨⟨_, rfl⟩, fun l hl => Table.mem_insert_of_mem hl, fun l hl => ?_,
      Table.exists_mem_insert db.sessionChunks ⟨u, r, c⟩⟩
    rcases Table.mem_insert.1 hl with hl | ⟨rfl, -⟩
    · exact .inl hl
    · exact .inr ⟨rfl, s, hsm, hid, by simpa using hr⟩

/-- `register_and_store_chunk` adds at most an unreferenced chunk row of the right size and
the session's link. -/
theorem registerChunk_ok {db db' : Db} {r u : Uuid} {d : ChunkDescriptor}
    (h : registerChunk db r u d = .ok db') :
    (∃ C L, db' = { db with chunks := C, sessionChunks := L }) ∧ ChunksGrow db.chunks db'.chunks ∧
      (∃ k ∈ db'.chunks, k.key = (r, d.id) ∧ k.size = d.length.toNat) ∧
      (∀ l ∈ db.sessionChunks, l ∈ db'.sessionChunks) ∧
      (∀ l ∈ db'.sessionChunks, l ∈ db.sessionChunks ∨
        l = ⟨u, r, d.id⟩ ∧ ∃ s ∈ db.sessions, s.id = u ∧ s.repositoryId = r) ∧
      ∃ l ∈ db'.sessionChunks, l.key = (u, d.id) := by
  unfold registerChunk at h
  rw [bind_eq_ok] at h
  obtain ⟨db₁, h₁, h₂⟩ := h
  rw [orDatabase_ok] at h₂
  obtain ⟨⟨C, rfl⟩, hg, hk⟩ := upsertChunk_ok h₁
  obtain ⟨⟨L, rfl⟩, hkeep, hnew, hl⟩ := linkSessionChunk_ok h₂
  exact ⟨⟨C, L, rfl⟩, ⟨hg.keep, hg.fresh⟩, hk, hkeep, hnew, hl⟩

/-! ## Publication -/

theorem insertChunks_ok {r : Uuid} : ∀ {ds : List ChunkDescriptor} {db db' : Db},
    insertChunks r ds db = .ok db' →
    (∃ C, db' = { db with chunks := C }) ∧ ChunksGrow db.chunks db'.chunks ∧
      ∀ d ∈ ds, ∃ k ∈ db'.chunks, k.key = (r, d.id)
  | [], db, db', h => by cases h; exact ⟨⟨_, rfl⟩, .refl _, by simp⟩
  | d :: ds, db, db', h => by
    unfold insertChunks at h
    rw [bind_eq_ok] at h
    obtain ⟨db₁, h₁, h₂⟩ := h
    obtain ⟨rfl, hg₁, k, hk, hkey⟩ := insertChunk_ok h₁
    obtain ⟨⟨C, rfl⟩, hg₂, hall⟩ := insertChunks_ok h₂
    refine ⟨⟨C, rfl⟩, hg₁.trans hg₂, fun x hx => ?_⟩
    rcases List.mem_cons.1 hx with rfl | hx
    · exact ⟨k, hg₂.keep k hk, hkey⟩
    · exact hall x hx

theorem addReference_updated (db : Db) (r : Uuid) (c : ChunkId) :
    ChunksUpdated db.chunks (db.addReference r c).chunks :=
  .of_updateWhere _ _ _ (by intro; rfl) fun _ => rfl

theorem insertObjectChunk_ok {db db' : Db} {row : ObjectChunkRow}
    (h : db.insertObjectChunk row = .ok db') :
    db.objectChunks.get? row.key = none ∧
      (∃ k ∈ db.chunks, k.key = (row.repositoryId, row.chunkId)) ∧
      db' = { db with objectChunks := db.objectChunks.insert row } := by
  unfold Db.insertObjectChunk at h
  split at h; · cases h
  split at h; · cases h
  rename_i hnone
  split at h; · cases h
  rename_i hfk
  cases h
  rw [not_or] at hfk
  obtain ⟨k, hk⟩ := Option.ne_none_iff_exists'.1 hfk.2
  obtain ⟨hm, hkey⟩ := Table.get?_some.1 hk
  exact ⟨by simpa using hnone, ⟨k, hm, hkey⟩, rfl⟩

/-- The loop that references the chunks of a new object adds exactly the enumerated rows
and updates chunk rows in place. -/
theorem referenceChunks_ok {r : Uuid} {oid : ObjectOid} : ∀ {ds : List ChunkDescriptor} {n : Nat}
    {db db' : Db}, referenceChunks r oid n ds db = .ok db' →
    (∃ C O, db' = { db with chunks := C, objectChunks := O }) ∧ ChunksUpdated db.chunks db'.chunks ∧
      (∀ row, row ∈ db'.objectChunks ↔
        row ∈ db.objectChunks ∨ ∃ i d, ds[i]? = some d ∧ row = objectChunkRow r oid (n + i) d) ∧
      ∀ k ∈ db.chunks, (∀ d ∈ ds, k.key ≠ (r, d.id)) → k ∈ db'.chunks
  | [], n, db, db', h => by
    cases h
    exact ⟨⟨_, _, rfl⟩, .refl _, by simp, fun _ h _ => h⟩
  | d :: ds, n, db, db', h => by
    unfold referenceChunks at h
    split at h; · cases h
    rw [bind_eq_ok] at h
    obtain ⟨db₁, h₁, h₂⟩ := h
    rw [orDatabase_ok] at h₁
    obtain ⟨hnone, -, rfl⟩ := insertObjectChunk_ok h₁
    obtain ⟨⟨C, O, rfl⟩, hup, hrows, hsame⟩ := referenceChunks_ok h₂
    refine ⟨⟨C, O, rfl⟩, .trans (addReference_updated _ r d.id) hup, fun row => ?_, fun k hk hne => ?_⟩
    rotate_left
    · refine hsame k ((Table.mem_updateWhere (by intro; rfl)).2 (.inl ⟨hk, ?_⟩))
        fun x hx => hne x (List.mem_cons_of_mem _ hx)
      simpa [ChunkRow.key] using hne d List.mem_cons_self
    rw [hrows row, show (Db.addReference _ r d.id).objectChunks = db.objectChunks.insert
      (objectChunkRow r oid n d) from rfl, Table.mem_insert, or_assoc]
    refine or_congr_right ⟨?_, ?_⟩
    · intro hs
      rcases hs with ⟨rfl, -⟩ | ⟨i, x, hx, rfl⟩
      · exact ⟨0, d, rfl, rfl⟩
      · exact ⟨i + 1, x, by simpa using hx, by rw [Nat.add_right_comm]; rfl⟩
    · intro hs
      rcases hs with ⟨_ | i, x, hx, rfl⟩
      · simp only [List.getElem?_cons_zero, Option.some.injEq] at hx
        exact .inl ⟨by rw [hx]; rfl, hnone⟩
      · exact .inr ⟨i, x, by simpa using hx, by rw [Nat.add_right_comm]; rfl⟩

theorem finalizeSession_ages {db : Db} {now : Nat} {s : SessionRow} (hs : s ∈ db.sessions)
    (ho : s.state = .opened) :
    SessionsAge now db.sessions (finalizeSession db s.id).sessions ∧
      SessionsKept now db.sessions (finalizeSession db s.id).sessions := by
  constructor
  · intro x' hx'
    rcases (Table.mem_updateWhere (by intro; rfl)).1 hx' with ⟨hx, -⟩ | ⟨x, hx, hid, rfl⟩
    · exact ⟨x', hx, .same⟩
    · have : x = s := Table.eq_of_key hx hs (by simpa using hid)
      subst this
      exact ⟨x, hx, .finalize ho⟩
  · intro x hx
    by_cases hid : x.id = s.id
    · have : x = s := Table.eq_of_key hx hs hid
      subst this
      exact ⟨_, (Table.mem_updateWhere (by intro; rfl)).2 (.inr ⟨x, hx, by simp, rfl⟩), .finalize ho⟩
    · exact ⟨x, (Table.mem_updateWhere (by intro; rfl)).2 (.inl ⟨hx, by simpa using hid⟩), .same⟩

/-- The four outcomes a successful `publish_manifest` leaves: nothing changed under a
finalized session, or an open one was finalized, with or without a new object. -/
theorem publishManifest_ok {db db' : Db} {now : Nat} {r u : Uuid} {m : ObjectManifest} {b : Bool}
    (h : publishManifest db now r u m = .ok (b, db')) :
    m.validate = .ok () ∧ ∃ s ∈ db.sessions,
      (s.id = u ∧ s.repositoryId = r ∧ s.objectOid = m.objectOid) ∧
      ((s.state = .finalized ∧ b = false ∧ db' = db) ∨
        (s.state = .opened ∧ now < s.expiresAt) ∧ ∃ db₁, insertChunks r m.chunks db = .ok db₁ ∧
          ((b = false ∧ (∃ o ∈ db.objects, o.key = (r, m.objectOid)) ∧
              db' = finalizeSession db₁ u) ∨
            (b = true ∧ db.objects.get? (r, m.objectOid) = none ∧
              ∃ db₃, referenceChunks r m.objectOid 0 m.chunks { db₁ with
                objects := db₁.objects.insert ⟨r, m.objectOid, m.objectSize.toNat, m⟩ } = .ok db₃ ∧
                db' = finalizeSession db₃ u))) := by
  unfold publishManifest at h
  split at h; · cases h
  rename_i hv
  split at h; · cases h
  rename_i s hfind
  obtain ⟨hs, hp⟩ := Table.mem_of_find? hfind
  simp only [decide_eq_true_eq] at hp
  obtain ⟨hid, hr, hoid, hfin⟩ := hp
  refine ⟨hv, s, hs, ⟨hid, hr, hoid⟩, ?_⟩
  split at h
  · rename_i hst
    cases h
    exact .inl ⟨hst, rfl, rfl⟩
  · cases h
  · rename_i hst
    have hlive : now < s.expiresAt := by
      rcases hfin with hf | hf
      · exact hf.2
      · rw [hst] at hf; cases hf
    refine .inr ⟨⟨hst, hlive⟩, ?_⟩
    unfold publishOpen at h
    rw [bind_eq_ok] at h
    obtain ⟨db₁, h₁, h₂⟩ := h
    rw [orDatabase_ok] at h₁
    refine ⟨db₁, h₁, ?_⟩
    obtain ⟨⟨C, rfl⟩, -, -⟩ := insertChunks_ok h₁
    split at h₂; · cases h₂
    split at h₂
    · rename_i hnone
      rw [bind_eq_ok] at h₂
      obtain ⟨db₃, h₃, h₄⟩ := h₂
      cases h₄
      exact .inr ⟨rfl, hnone, db₃, h₃, rfl⟩
    · rename_i hsome
      cases h₂
      obtain ⟨o, ho⟩ := Option.ne_none_iff_exists'.1 hsome
      exact .inl ⟨rfl, ⟨o, Table.get?_some.1 ho⟩, rfl⟩

/-- Publication ages sessions and leaves links, epochs, tombstones and the queue alone. -/
theorem publishManifest_frame {db db' : Db} {now : Nat} {r u : Uuid} {m : ObjectManifest} {b : Bool}
    (h : publishManifest db now r u m = .ok (b, db')) :
    SessionsAge now db.sessions db'.sessions ∧
      ∃ O C R S, db' = { db with objects := O, chunks := C, objectChunks := R, sessions := S } := by
  obtain ⟨-, s, hs, ⟨rfl, -, -⟩, hcase⟩ := publishManifest_ok h
  rcases hcase with ⟨-, -, rfl⟩ | ⟨⟨ho, -⟩, db₁, h₁, hcase⟩
  · exact ⟨.refl _ _, _, _, _, _, rfl⟩
  obtain ⟨⟨C, rfl⟩, -⟩ := insertChunks_ok h₁
  rcases hcase with ⟨-, -, rfl⟩ | ⟨-, -, db₃, h₃, rfl⟩
  · exact ⟨finalizeSession_ages hs ho |>.1, _, _, _, _, rfl⟩
  · obtain ⟨⟨C', O, rfl⟩, -⟩ := referenceChunks_ok h₃
    exact ⟨finalizeSession_ages hs ho |>.1, _, _, _, _, rfl⟩

/-- Publication removes no object, and adds at most its own. -/
theorem publishManifest_objects {db db' : Db} {now : Nat} {r u : Uuid} {m : ObjectManifest} {b : Bool}
    (h : publishManifest db now r u m = .ok (b, db')) :
    (∀ o ∈ db.objects, o ∈ db'.objects) ∧
      ∀ o ∈ db'.objects, o ∈ db.objects ∨ o = ⟨r, m.objectOid, m.objectSize.toNat, m⟩ ∧
        db.objects.get? (r, m.objectOid) = none ∧ db.Live now u := by
  obtain ⟨-, s, hs, ⟨hid, -, -⟩, hcase⟩ := publishManifest_ok h
  rcases hcase with ⟨-, -, rfl⟩ | ⟨⟨ho, hlive⟩, db₁, h₁, hcase⟩
  · exact ⟨fun _ h => h, fun _ h => .inl h⟩
  obtain ⟨⟨C, rfl⟩, -⟩ := insertChunks_ok h₁
  rcases hcase with ⟨-, -, rfl⟩ | ⟨-, hnone, db₃, h₃, rfl⟩
  · exact ⟨fun _ h => h, fun _ h => .inl h⟩
  · obtain ⟨⟨C', O, rfl⟩, -⟩ := referenceChunks_ok h₃
    refine ⟨fun o ho => Table.mem_insert_of_mem ho, fun o ho' => ?_⟩
    rcases Table.mem_insert.1 ho' with ho' | ⟨rfl, -⟩
    · exact .inl ho'
    · exact .inr ⟨rfl, hnone, s, hs, hid, ho, hlive⟩

/-! ## Snapshots and tombstones -/

theorem insertReachable_ok {epoch : Uuid} : ∀ {oids : List ObjectOid} {db db' : Db},
    insertReachable epoch oids db = .ok db' →
    (∃ R, db' = { db with reachable := R }) ∧
      ∀ x, x ∈ db'.reachable ↔ x ∈ db.reachable ∨ x.epochId = epoch ∧ x.objectOid ∈ oids
  | [], db, db', h => by cases h; exact ⟨⟨_, rfl⟩, by simp⟩
  | oid :: oids, db, db', h => by
    unfold insertReachable at h
    split at h; · cases h
    rename_i hnone
    have hnone : db.reachable.get? ⟨epoch, oid⟩ = none := by simpa using hnone
    obtain ⟨⟨R, rfl⟩, hrows⟩ := insertReachable_ok h
    refine ⟨⟨R, rfl⟩, fun x => ?_⟩
    rw [hrows x, Table.mem_insert]
    simp only [id, hnone, and_true, List.mem_cons]
    cases x
    simp only [ReachableRow.mk.injEq]
    tauto

/-- A snapshot adds one complete epoch and its rows, and leaves the earlier ones alone. -/
theorem submitSnapshot_ok {db db' : Db} {now : Nat} {r epoch : Uuid} {fp : String}
    {oids : List ObjectOid} (h : submitSnapshot db now r fp oids epoch = .ok db') :
    (∃ E R, db' = { db with epochs := E, reachable := R }) ∧ db.epochs.get? epoch = none ∧
      (∀ e, e ∈ db'.epochs ↔ e ∈ db.epochs ∨ e = ⟨epoch, r, fp, true, some now⟩) ∧
      ∀ x, x ∈ db'.reachable ↔ x ∈ db.reachable ∨ x.epochId = epoch ∧ x.objectOid ∈ oids := by
  unfold submitSnapshot at h
  split at h; · cases h
  rename_i hnone
  have hnone : db.epochs.get? epoch = none := by simpa using hnone
  split at h; · cases h
  rename_i db₁ h₁
  cases h
  obtain ⟨⟨R, rfl⟩, hrows⟩ := insertReachable_ok h₁
  refine ⟨⟨_, _, rfl⟩, hnone, fun e => ?_, hrows⟩
  rw [Table.mem_updateWhere (by intro; rfl)]
  simp only [Table.mem_insert, decide_eq_true_eq, decide_eq_false_iff_not]
  constructor
  · intro hs
    rcases hs with ⟨he | ⟨rfl, -⟩, hid⟩ | ⟨b, hb | ⟨rfl, -⟩, hid, rfl⟩
    · exact .inl he
    · exact absurd rfl hid
    · exact absurd hid (Table.get?_none.1 hnone b hb)
    · exact .inr rfl
  · intro hs
    rcases hs with he | rfl
    · exact .inl ⟨.inl he, Table.get?_none.1 hnone e he⟩
    · exact .inr ⟨_, .inr ⟨rfl, hnone⟩, rfl, rfl⟩

/-- `stage` only adds tombstones, for candidates that had none. -/
theorem stageTombstones_ok {now seconds : Nat} {r : Uuid} : ∀ {cs : List GcCandidate} {db db' : Db},
    stageTombstones now r seconds cs db = .ok db' →
    (∃ T, db' = { db with tombstones := T }) ∧ (∀ t ∈ db.tombstones, t ∈ db'.tombstones) ∧
      ∀ t ∈ db'.tombstones, t ∈ db.tombstones ∨
        db.tombstones.get? t.key = none ∧ t.repositoryId = r ∧ ∃ c ∈ cs, c.oid = t.objectOid
  | [], db, db', h => by
    cases h
    exact ⟨⟨_, rfl⟩, fun _ h => h, fun _ h => .inl h⟩
  | c :: cs, db, db', h => by
    unfold stageTombstones at h
    split at h; · cases h
    rename_i db₁ h₁
    unfold Db.insertTombstone at h₁
    split at h₁
    · cases h₁
      obtain ⟨hf, hkeep, hnew⟩ := stageTombstones_ok h
      refine ⟨hf, hkeep, fun t ht => ?_⟩
      rcases hnew t ht with h' | ⟨hn, hr, x, hx, e⟩
      · exact .inl h'
      · exact .inr ⟨hn, hr, x, List.mem_cons_of_mem _ hx, e⟩
    · split at h₁; · cases h₁
      cases h₁
      obtain ⟨⟨T, rfl⟩, hkeep, hnew⟩ := stageTombstones_ok h
      refine ⟨⟨T, rfl⟩, fun t ht => hkeep t (Table.mem_insert_of_mem ht), fun t ht => ?_⟩
      rcases hnew t ht with h' | ⟨hn, hr, x, hx, e⟩
      · rcases Table.mem_insert.1 h' with h' | ⟨rfl, hn⟩
        · exact .inl h'
        · exact .inr ⟨hn, rfl, c, List.mem_cons_self, rfl⟩
      · refine .inr ⟨Table.get?_none.2 fun y hy => ?_, hr, x, List.mem_cons_of_mem _ hx, e⟩
        exact Table.get?_none.1 hn y (Table.mem_insert_of_mem hy)

/-! ## Collection -/

/-- Chunk rows other than the released ones stay as they are; released ones keep key and
size. -/
theorem releaseChunks_ok {now : Nat} {r : Uuid} : ∀ {cs : List ChunkId} {db db' : Db},
    releaseChunks now r cs db = .ok db' →
    (∃ C Q, db' = { db with chunks := C, queue := Q }) ∧ ChunksUpdated db.chunks db'.chunks ∧
      ∀ k ∈ db.chunks, (∀ c ∈ cs, k.key ≠ (r, c)) → k ∈ db'.chunks
  | [], db, db', h => by
    cases h
    exact ⟨⟨_, _, rfl⟩, .refl _, fun _ h _ => h⟩
  | c :: cs, db, db', h => by
    unfold releaseChunks at h
    split at h; · cases h
    rename_i db₁ h₁
    unfold Db.dropReference at h₁
    split at h₁; · cases h₁
    cases h₁
    have hup : ChunksUpdated db.chunks (db.chunks.updateWhere
        (fun k => k.repositoryId = r ∧ k.chunkId = c)
        (fun k => { k with referenceCount := k.referenceCount - 1 }) fun _ => rfl) :=
      .of_updateWhere _ _ _ (by intro; rfl) fun _ => rfl
    have hsame : ∀ k ∈ db.chunks, k.key ≠ (r, c) → k ∈ db.chunks.updateWhere
        (fun k => k.repositoryId = r ∧ k.chunkId = c)
        (fun k => { k with referenceCount := k.referenceCount - 1 }) fun _ => rfl := by
      intro k hk hne
      refine (Table.mem_updateWhere (by intro; rfl)).2 (.inl ⟨hk, ?_⟩)
      simpa [ChunkRow.key] using hne
    -- queueing changes no chunk row
    split at h
    all_goals
      obtain ⟨⟨C, Q, rfl⟩, hup', hsame'⟩ := releaseChunks_ok h
      refine ⟨⟨C, Q, rfl⟩, hup.trans hup', fun k hk hne => ?_⟩
      exact hsame' k (hsame k hk (hne c List.mem_cons_self))
        fun x hx => hne x (List.mem_cons_of_mem _ hx)

/-- The frame of one deleting iteration of `collect_due`. -/
theorem collectObject_ok {db db' : Db} {now : Nat} {r : Uuid} {oid : ObjectOid}
    (h : collectObject db now r oid = .ok db') :
    (∃ C Q, db' = { db.deleteObject r oid with chunks := C, queue := Q }) ∧
      ChunksUpdated db.chunks db'.chunks ∧
      ∀ k ∈ db.chunks, (∀ o ∈ db.chunksOf r oid, k.key ≠ (r, o.chunkId)) → k ∈ db'.chunks := by
  obtain ⟨hf, hup, hsame⟩ := releaseChunks_ok h
  refine ⟨hf, hup, fun k hk hne => hsame k hk ?_⟩
  intro c hc
  obtain ⟨o, ho, rfl⟩ := List.mem_map.1 hc
  exact hne o ho

theorem enqueueAll_frame (now : Nat) : ∀ (ks : List ChunkRow) (db : Db),
    ∃ Q, enqueueAll now ks db = { db with queue := Q }
  | [], _ => ⟨_, rfl⟩
  | k :: ks, db => by
    obtain ⟨Q, hQ⟩ := enqueueAll_frame now ks (db.enqueue now k.repositoryId k.chunkId)
    exact ⟨Q, hQ⟩

theorem deleteSessions_links {db : Db} {p : SessionRow → Bool} {l : SessionChunkRow} :
    l ∈ (db.deleteSessions p).sessionChunks ↔
      l ∈ db.sessionChunks ∧ ∀ s ∈ db.sessions, s.id = l.sessionId → p s = false := by
  unfold Db.deleteSessions
  simp only [Table.mem_deleteWhere]
  apply and_congr_right
  intro _
  cases hg : db.sessions.get? l.sessionId with
  | none =>
    simp only [Option.any_none, true_iff]
    intro s hs hid
    exact absurd hid (Table.get?_none.1 hg s hs)
  | some s =>
    obtain ⟨hs, hid⟩ := Table.get?_some.1 hg
    simp only [Option.any_some]
    constructor
    · intro hp x hx hxid
      rwa [Table.eq_of_key hx hs (hxid.trans hid.symm)]
    · intro hall
      exact hall s hs hid

/-- `reclaim_expired_uploads` ages sessions, removes some, and removes exactly the links of
the removed ones. -/
theorem reclaimSessions_spec (db : Db) (now : Nat) (r : Uuid) (seconds : Nat) :
    ∃ S L Q, reclaimSessions db now r seconds =
        { db with sessions := S, sessionChunks := L, queue := Q } ∧
      SessionsAge now db.sessions S ∧
      (∀ l ∈ L, l ∈ db.sessionChunks ∧
        ∀ s ∈ db.sessions, s.id = l.sessionId → ∃ s' ∈ S, s.Ages now s') ∧
      ∀ l ∈ db.sessionChunks, (∃ s ∈ S, s.id = l.sessionId) → l ∈ L := by
  unfold reclaimSessions
  obtain ⟨Q, hQ⟩ := enqueueAll_frame now ((db.expireOpen now fun s => s.repositoryId = r).chunks.rows.filter
    fun k => ReclaimsChunk (db.expireOpen now fun s => s.repositoryId = r) now r seconds k)
    (db.expireOpen now fun s => s.repositoryId = r)
  simp only
  rw [hQ]
  refine ⟨_, _, Q, rfl, ?_, ?_, ?_⟩
  · intro s' hs'
    obtain ⟨hs', -⟩ := Table.mem_deleteWhere.1 hs'
    obtain ⟨s, hs, ha, -⟩ := mem_expireOpen hs'
    exact ⟨s, hs, ha⟩
  · intro l hl
    obtain ⟨hl, hkept⟩ := deleteSessions_links.1 hl
    refine ⟨hl, fun s hs hid => ?_⟩
    obtain ⟨s', hs', ha⟩ := mem_expireOpen_of_mem now (fun s => s.repositoryId = r) hs
    exact ⟨s', Table.mem_deleteWhere.2 ⟨hs', hkept s' hs' (ha.id_eq.trans hid)⟩, ha⟩
  · intro l hl h
    obtain ⟨s, hs, hid⟩ := h
    obtain ⟨hs, hp⟩ := Table.mem_deleteWhere.1 hs
    refine deleteSessions_links.2 ⟨hl, fun x hx hxid => ?_⟩
    rwa [Table.eq_of_key hx hs (hxid.trans hid.symm)]

/-! ## Draining -/

/-- The chunk has a row, with no references. -/
def Db.Unreferenced (db : Db) (r : Uuid) (c : ChunkId) : Prop :=
  ∃ k ∈ db.chunks, k.key = (r, c) ∧ k.referenceCount = 0

instance (db : Db) (r : Uuid) (c : ChunkId) : Decidable (db.Unreferenced r c) := by
  unfold Db.Unreferenced; infer_instance

theorem drainDecision_eq (db : Db) (r : Uuid) (c : ChunkId) :
    drainDecision db r c = if db.Unreferenced r c then
      (if db.ActivelyLinked r c then .keep else .delete) else .dequeue := by
  unfold drainDecision
  cases hg : db.chunks.get? (r, c) with
  | none =>
    have hno : ¬ db.Unreferenced r c := by
      intro h
      obtain ⟨k, hk, hkey, -⟩ := h
      exact Table.get?_none.1 hg k hk hkey
    rw [if_neg hno]
  | some k =>
    obtain ⟨hk, hkey⟩ := Table.get?_some.1 hg
    have huniq : db.Unreferenced r c ↔ k.referenceCount = 0 := by
      constructor
      · intro h
        obtain ⟨x, hx, hxk, h0⟩ := h
        rwa [← Table.eq_of_key hx hk (hxk.trans hkey.symm)]
      · intro h0
        exact ⟨k, hk, hkey, h0⟩
    simp only [huniq]
    rcases Nat.eq_zero_or_pos k.referenceCount with h0 | h0
    · rw [if_neg (by omega), if_pos h0]
    · rw [if_pos h0, if_neg (by omega)]

theorem drainDecision_delete {db : Db} {r : Uuid} {c : ChunkId} :
    drainDecision db r c = .delete ↔ db.Unreferenced r c ∧ ¬ db.ActivelyLinked r c := by
  rw [drainDecision_eq]
  split <;> [split; skip] <;> simp_all

theorem drainDecision_keep {db : Db} {r : Uuid} {c : ChunkId} :
    drainDecision db r c = .keep ↔ db.Unreferenced r c ∧ db.ActivelyLinked r c := by
  rw [drainDecision_eq]
  split <;> [split; skip] <;> simp_all

/-- What a completed drain of one chunk leaves. -/
def Db.dropChunk (db : Db) (r : Uuid) (c : ChunkId) : Db :=
  { db.dequeue r c with
    chunks := db.chunks.deleteWhere fun k =>
      k.repositoryId = r ∧ k.chunkId = c ∧ k.referenceCount = 0 }

/-- The drain's commit removes the chunk row, if it is still unreferenced, and the queue
entry; the foreign keys promise that nothing named the row. -/
theorem drainCommit_ok {db db' : Db} {r : Uuid} {c : ChunkId} (h : drainCommit db r c = .ok db') :
    db' = db.dropChunk r c ∧
      ∀ k ∈ db.chunks, k.key = (r, c) → k.referenceCount = 0 →
        db.referencesTo r c = [] ∧ ¬ db.Linked r c := by
  unfold drainCommit at h
  split at h; · cases h
  rename_i db₁ h₁
  cases h
  unfold Db.deleteChunkRow at h₁
  split at h₁; · cases h₁
  rename_i hfk
  cases h₁
  refine ⟨rfl, fun k hk hkey h0 => ?_⟩
  rw [Table.get?_some.2 ⟨hk, hkey⟩] at hfk
  simp only [Option.any_some, h0, decide_true, true_and, not_or, not_not] at hfk
  exact hfk

end GitLfsDelta
