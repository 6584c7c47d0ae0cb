import GitLfsDelta.Core.Restriction
import GitLfsDelta.L3Server.Downloads
import GitLfsDelta.L3Server.Frames

/-!
# The part of the database that belongs to a repository

`Db.only R` keeps the rows of repository `R`. A transaction of `R` computes the same on that
part alone and leaves the part it would leave there (the `_only` lemmas); a transaction of
another repository leaves the part as it is (the `_other` lemmas).

Sessions, epochs and locks have keys without the repository, and links and reachable objects
belong to a repository through their session or epoch. There the lemmas rest on the foreign
keys (`Db.Owned`), on a session being of the repository, or on a new id being free.
-/
namespace GitLfsDelta

/-- The epoch of a `reachable_objects` row is one of the repository. -/
def Db.EpochOf (db : Db) (R : Uuid) (x : ReachableRow) : Prop :=
  ∃ e ∈ db.epochs, e.id = x.epochId ∧ e.repositoryId = R

instance (db : Db) (R : Uuid) (x : ReachableRow) : Decidable (db.EpochOf R x) := by
  unfold Db.EpochOf; infer_instance

/-- The rows of a repository. -/
def Db.only (R : Uuid) (db : Db) : Db where
  objects := db.objects.keep fun o => o.repositoryId = R
  chunks := db.chunks.keep fun k => k.repositoryId = R
  objectChunks := db.objectChunks.keep fun o => o.repositoryId = R
  sessions := db.sessions.keep fun s => s.repositoryId = R
  sessionChunks := db.sessionChunks.keep fun l => l.repositoryId = R
  epochs := db.epochs.keep fun e => e.repositoryId = R
  reachable := db.reachable.keep fun x => db.EpochOf R x
  tombstones := db.tombstones.keep fun t => t.repositoryId = R
  queue := db.queue.keep fun q => q.repositoryId = R

/-- Links and reachable objects point to rows that exist. -/
structure Db.Owned (db : Db) : Prop where
  link : ∀ l ∈ db.sessionChunks, ∃ s ∈ db.sessions, s.id = l.sessionId ∧
    s.repositoryId = l.repositoryId
  reachable : ∀ x ∈ db.reachable, ∃ e ∈ db.epochs, e.id = x.epochId

/-- A session id that is free or of the repository. -/
def Db.Mine (db : Db) (R u : Uuid) : Prop := ∀ s ∈ db.sessions, s.id = u → s.repositoryId = R

variable {db db' : Db} {R r : Uuid} {c : ChunkId} {oid : ObjectOid} {m : ObjectManifest}

/-- Peels one statement off two runs of a transaction. -/
theorem map_bind {ε α α' β β' : Type} {x : Except ε α} {y : Except ε α'} {f : α → Except ε β}
    {g : α' → Except ε β'} {φ : α → α'} {ψ : β → β'} (hx : y = x.map φ)
    (hf : ∀ a, x = .ok a → g (φ a) = (f a).map ψ) : (y >>= g) = (x >>= f).map ψ := by
  subst hx
  cases x with
  | error e => rfl
  | ok a => exact hf a rfl

theorem map_orDatabase {α α' : Type} {x : Except DbError α} {φ : α → α'} :
    orDatabase (x.map φ) = (orDatabase x).map φ := by
  cases x <;> rfl

/-! ## Queries -/

section Queries

theorem objects_only : (db.only R).objects.get? (R, oid) = db.objects.get? (R, oid) := by
  apply Table.get?_keep
  intro x _ hk
  exact decide_eq_true (Prod.mk.inj hk).1

theorem chunks_only : (db.only R).chunks.get? (R, c) = db.chunks.get? (R, c) := by
  apply Table.get?_keep
  intro x _ hk
  exact decide_eq_true (Prod.mk.inj hk).1

theorem tombstones_only : (db.only R).tombstones.get? (R, oid) = db.tombstones.get? (R, oid) := by
  apply Table.get?_keep
  intro x _ hk
  exact decide_eq_true (Prod.mk.inj hk).1

theorem sessions_only {u : Uuid} (h : db.Mine R u) :
    (db.only R).sessions.get? u = db.sessions.get? u := by
  apply Table.get?_keep
  intro x hx hk
  exact decide_eq_true (h x hx hk)

theorem referencesTo_only : (db.only R).referencesTo R c = db.referencesTo R c := by
  apply Table.filter_keep
  intro x _ hx
  simp only [decide_eq_true_eq] at hx ⊢
  exact hx.1

theorem chunksOf_only : (db.only R).chunksOf R oid = db.chunksOf R oid := by
  apply Table.filter_keep
  intro x _ hx
  simp only [decide_eq_true_eq] at hx ⊢
  exact hx.1

theorem linked_only : (db.only R).Linked R c ↔ db.Linked R c := by
  simp only [Db.Linked, Db.only, Table.mem_keep, decide_eq_true_eq]
  constructor
  · intro h
    obtain ⟨l, ⟨hl, -⟩, h⟩ := h
    exact ⟨l, hl, h⟩
  · intro h
    obtain ⟨l, hl, hr, hc⟩ := h
    exact ⟨l, ⟨hl, hr⟩, hr, hc⟩

/-- The session of a link of the repository is one of the repository. -/
theorem Db.Owned.session (h : db.Owned) {l : SessionChunkRow} (hl : l ∈ db.sessionChunks)
    {s : SessionRow} (hs : s ∈ db.sessions) (hid : s.id = l.sessionId) :
    s.repositoryId = l.repositoryId := by
  obtain ⟨s', hs', hid', hr⟩ := h.link l hl
  rw [Table.eq_of_key hs hs' (hid.trans hid'.symm)]
  exact hr

/-- Some session with `P` links the chunk: `P` is asked of sessions of the repository only. -/
theorem linkedBy_only (h : db.Owned) {P : SessionRow → Prop} :
    (∃ l ∈ (db.only R).sessionChunks, (l.repositoryId = R ∧ l.chunkId = c) ∧
      ∃ s ∈ (db.only R).sessions, s.id = l.sessionId ∧ P s) ↔
    ∃ l ∈ db.sessionChunks, (l.repositoryId = R ∧ l.chunkId = c) ∧
      ∃ s ∈ db.sessions, s.id = l.sessionId ∧ P s := by
  simp only [Db.only, Table.mem_keep, decide_eq_true_eq]
  constructor
  · intro hx
    obtain ⟨l, ⟨hl, -⟩, hrc, s, ⟨hs, -⟩, hid, hP⟩ := hx
    exact ⟨l, hl, hrc, s, hs, hid, hP⟩
  · intro hx
    obtain ⟨l, hl, hrc, s, hs, hid, hP⟩ := hx
    exact ⟨l, ⟨hl, hrc.1⟩, hrc, s, ⟨hs, (h.session hl hs hid).trans hrc.1⟩, hid, hP⟩

theorem activelyLinked_only (h : db.Owned) : (db.only R).ActivelyLinked R c ↔ db.ActivelyLinked R c :=
  linkedBy_only h

theorem loadManifest_only : loadManifest (db.only R) R oid = loadManifest db R oid := by
  unfold loadManifest; rw [objects_only]

theorem objectExists_only : objectExists (db.only R) R oid = objectExists db R oid := by
  unfold objectExists; rw [objects_only]

theorem loadOpenUpload_only {now : Nat} {u : Uuid} :
    loadOpenUpload (db.only R) now R oid u = loadOpenUpload db now R oid u := by
  unfold loadOpenUpload
  rw [show (db.only R).sessions = db.sessions.keep fun s => s.repositoryId = R from rfl,
    Table.find?_keep]
  intro x _ hx
  simp only [decide_eq_true_eq] at hx ⊢
  exact hx.2.1

/-- The query of `load_finalizable_upload` and of `publish_manifest`. -/
theorem finalizable_only {now : Nat} {u : Uuid} :
    ((db.only R).sessions.find? fun s => s.id = u ∧ s.repositoryId = R ∧ s.objectOid = oid ∧
      s.Finalizable now) =
    db.sessions.find? fun s => s.id = u ∧ s.repositoryId = R ∧ s.objectOid = oid ∧
      s.Finalizable now := by
  apply Table.find?_keep
  intro x _ hx
  simp only [decide_eq_true_eq] at hx ⊢
  exact hx.2.1

theorem loadFinalizableUpload_only {now : Nat} {u : Uuid} :
    loadFinalizableUpload (db.only R) now R oid u = loadFinalizableUpload db now R oid u := by
  unfold loadFinalizableUpload
  rw [finalizable_only]

theorem acceptChunk_only {now : Nat} {u : Uuid} {index : Nat} {bytes : Bytes} :
    acceptChunk (db.only R) now R oid u index bytes = acceptChunk db now R oid u index bytes := by
  unfold acceptChunk
  rw [loadOpenUpload_only]

theorem nextDue_only {now : Nat} : NextDue (db.only R) now R oid ↔ NextDue db now R oid := by
  simp only [NextDue, Db.only, Table.mem_keep, decide_eq_true_eq]
  constructor
  · intro h
    obtain ⟨t, ⟨ht, -⟩, hk, hdue, hmin⟩ := h
    exact ⟨t, ht, hk, hdue, fun t' ht' hr => hmin t' ⟨ht', hr⟩ hr⟩
  · intro h
    obtain ⟨t, ht, hk, hdue, hmin⟩ := h
    exact ⟨t, ⟨ht, hk.1⟩, hk, hdue, fun t' ht' hr => hmin t' ht'.1 hr⟩

theorem noneDue_only {now : Nat} : NoneDue (db.only R) now R ↔ NoneDue db now R := by
  simp only [NoneDue, Db.only, Table.mem_keep, decide_eq_true_eq]
  constructor
  · intro h t ht hr
    exact h t ⟨ht, hr⟩ hr
  · intro h t ht hr
    exact h t ht.1 hr

theorem queueListing_only {listing : List QueueRow} :
    QueueListing (db.only R) R listing ↔ QueueListing db R listing := by
  unfold QueueListing
  rw [show (db.only R).queue = db.queue.keep fun q => q.repositoryId = R from rfl, Table.filter_keep]
  intro x _ hx
  exact hx

theorem drainDecision_only (h : db.Owned) : drainDecision (db.only R) R c = drainDecision db R c := by
  unfold drainDecision
  rw [chunks_only]
  cases db.chunks.get? (R, c) with
  | none => rfl
  | some k => simp only [activelyLinked_only h]

theorem latestEpochs_only : latestEpochs (db.only R) R = latestEpochs db R := by
  unfold latestEpochs completeEpochs
  rw [show (db.only R).epochs = db.epochs.keep fun e => e.repositoryId = R from rfl,
    Table.filter_keep]
  intro x _ hx
  simp only [decide_eq_true_eq] at hx ⊢
  exact hx.1

theorem lists_only {e : EpochRow} (he : e ∈ latestEpochs db R) :
    Lists (db.only R) e oid ↔ Lists db e oid := by
  obtain ⟨hmem, hp⟩ := List.mem_filter.1 (mem_of_mem_newest he)
  simp only [decide_eq_true_eq] at hp
  simp only [Lists, Db.only, Table.mem_keep, decide_eq_true_eq, and_iff_left_iff_imp]
  intro _
  exact ⟨e, hmem, rfl, hp.1⟩

theorem proposable_only {o : ObjectRow} (ho : o.repositoryId = R) :
    Proposable (db.only R) o ↔ Proposable db o := by
  subst ho
  unfold Proposable
  rw [latestEpochs_only, tombstones_only]
  apply and_congr_right
  intro _
  apply and_congr_left
  intro _
  apply forall_congr'
  intro e
  apply imp_congr_right
  intro he
  rw [lists_only he]

theorem dryRun_only : dryRun (db.only R) R = dryRun db R := by
  have hrows : ((db.only R).objects.rows.filter fun o => o.repositoryId = R ∧
      Proposable (db.only R) o) =
      db.objects.rows.filter fun o => o.repositoryId = R ∧ Proposable db o := by
    rw [← Table.filter_keep (t := db.objects) (p := fun o => o.repositoryId = R)]
    · apply List.filter_congr
      intro o _
      apply decide_eq_decide.2
      apply and_congr_right
      intro ho
      exact proposable_only ho
    · intro x _ hx
      simp only [decide_eq_true_eq] at hx ⊢
      exact hx.1
  unfold dryRun
  rw [hrows]

end Queries

/-! ## Statements of the repository -/

section Statements

/-! The part of a database in which one table is replaced. -/

theorem Db.only_objects {t t' : Table ObjectRow.key} (h : t' = t.keep fun o => o.repositoryId = R) :
    { db.only R with objects := t' } = ({ db with objects := t } : Db).only R := by
  subst h; rfl

theorem Db.only_chunks {t t' : Table ChunkRow.key} (h : t' = t.keep fun k => k.repositoryId = R) :
    { db.only R with chunks := t' } = ({ db with chunks := t } : Db).only R := by
  subst h; rfl

theorem Db.only_objectChunks {t t' : Table ObjectChunkRow.key}
    (h : t' = t.keep fun o => o.repositoryId = R) :
    { db.only R with objectChunks := t' } = ({ db with objectChunks := t } : Db).only R := by
  subst h; rfl

theorem Db.only_sessions {t t' : Table SessionRow.id} (h : t' = t.keep fun s => s.repositoryId = R) :
    { db.only R with sessions := t' } = ({ db with sessions := t } : Db).only R := by
  subst h; rfl

theorem Db.only_sessionChunks {t t' : Table SessionChunkRow.key}
    (h : t' = t.keep fun l => l.repositoryId = R) :
    { db.only R with sessionChunks := t' } = ({ db with sessionChunks := t } : Db).only R := by
  subst h; rfl

theorem Db.only_tombstones {t t' : Table TombstoneRow.key} (h : t' = t.keep fun x => x.repositoryId = R) :
    { db.only R with tombstones := t' } = ({ db with tombstones := t } : Db).only R := by
  subst h; rfl

theorem Db.only_queue {t t' : Table QueueRow.key} (h : t' = t.keep fun q => q.repositoryId = R) :
    { db.only R with queue := t' } = ({ db with queue := t } : Db).only R := by
  subst h; rfl

theorem insertChunk_only {size : Nat} :
    (db.only R).insertChunk R c size = (db.insertChunk R c size).map (Db.only R) := by
  unfold Db.insertChunk
  split
  · rfl
  · refine congrArg Except.ok (Db.only_chunks (Table.keep_insert (by simp) ?_).symm)
    intro x _ hk
    exact decide_eq_true (Prod.mk.inj hk).1

theorem insertObjectChunk_only {row : ObjectChunkRow} (hr : row.repositoryId = R) :
    (db.only R).insertObjectChunk row = (db.insertObjectChunk row).map (Db.only R) := by
  have hkey : ∀ x ∈ db.objectChunks, x.key = row.key → decide (x.repositoryId = R) = true := by
    intro x _ hk
    exact decide_eq_true ((Prod.mk.inj hk).1.trans hr)
  have hget : (db.only R).objectChunks.get? row.key = db.objectChunks.get? row.key :=
    Table.get?_keep hkey
  unfold Db.insertObjectChunk
  rw [hget, hr, objects_only, chunks_only]
  split
  · rfl
  split
  · rfl
  split
  · rfl
  · exact congrArg Except.ok (Db.only_objectChunks (Table.keep_insert (by simp [hr]) (by exact hkey)).symm)

theorem addReference_only : (db.only R).addReference r c = (db.addReference r c).only R :=
  Db.only_chunks (Table.keep_updateWhere _ (by simp)).symm

theorem dropReference_only :
    (db.only R).dropReference R c = (db.dropReference R c).map (Db.only R) := by
  unfold Db.dropReference
  rw [chunks_only]
  split
  · rfl
  · exact congrArg Except.ok (Db.only_chunks (Table.keep_updateWhere _ (by simp)).symm)

theorem deleteObject_only : (db.only R).deleteObject r oid = (db.deleteObject r oid).only R := by
  have hobjects := Table.keep_deleteWhere (t := db.objects) (p := fun o => o.repositoryId = R)
    (q := fun o => o.repositoryId = r ∧ o.oid = oid) fun _ _ _ => rfl
  have hrows := Table.keep_deleteWhere (t := db.objectChunks) (p := fun o => o.repositoryId = R)
    (q := fun o => o.repositoryId = r ∧ o.objectOid = oid) fun _ _ _ => rfl
  have htombstones := Table.keep_deleteWhere (t := db.tombstones) (p := fun t => t.repositoryId = R)
    (q := fun t => t.repositoryId = r ∧ t.objectOid = oid) fun _ _ _ => rfl
  simp only [Db.deleteObject, Db.only, hobjects, hrows, htombstones]
  rfl

theorem deleteChunkRow_only :
    (db.only R).deleteChunkRow R c = (db.deleteChunkRow R c).map (Db.only R) := by
  unfold Db.deleteChunkRow
  rw [chunks_only, referencesTo_only]
  simp only [linked_only]
  split
  · rfl
  · exact congrArg Except.ok (Db.only_chunks (Table.keep_deleteWhere fun _ _ _ => rfl).symm)

theorem linkSessionChunk_only {u : Uuid} (h : db.Owned) (hu : db.Mine R u) :
    (db.only R).linkSessionChunk u R c = (db.linkSessionChunk u R c).map (Db.only R) := by
  have hkey : ∀ l ∈ db.sessionChunks, l.key = (u, c) → decide (l.repositoryId = R) = true := by
    intro l hl hk
    obtain ⟨s, hs, hid, hr⟩ := h.link l hl
    have hsu : s.id = u := hid.trans (Prod.mk.inj hk).1
    exact decide_eq_true (hr.symm.trans (hu s hs hsu))
  have hget : (db.only R).sessionChunks.get? (u, c) = db.sessionChunks.get? (u, c) :=
    Table.get?_keep hkey
  unfold Db.linkSessionChunk
  rw [hget, sessions_only hu, chunks_only]
  split
  · rfl
  split
  · rfl
  · exact congrArg Except.ok (Db.only_sessionChunks (Table.keep_insert (by simp) (by exact hkey)).symm)

theorem expireOpen_only {now : Nat} {p : SessionRow → Bool} :
    (db.only R).expireOpen now p = (db.expireOpen now p).only R :=
  Db.only_sessions (Table.keep_updateWhere _ (by simp)).symm

theorem insertTombstone_only {row : TombstoneRow} (hr : row.repositoryId = R) :
    (db.only R).insertTombstone row = (db.insertTombstone row).map (Db.only R) := by
  have hkey : ∀ x ∈ db.tombstones, x.key = row.key → decide (x.repositoryId = R) = true := by
    intro x _ hk
    exact decide_eq_true ((Prod.mk.inj hk).1.trans hr)
  have hget : (db.only R).tombstones.get? row.key = db.tombstones.get? row.key :=
    Table.get?_keep hkey
  unfold Db.insertTombstone
  rw [hget, hr, objects_only]
  split
  · rfl
  split
  · rfl
  · exact congrArg Except.ok (Db.only_tombstones (Table.keep_insert (by simp [hr]) (by exact hkey)).symm)

theorem enqueue_only {now : Nat} : (db.only R).enqueue now R c = (db.enqueue now R c).only R := by
  refine Db.only_queue (Table.keep_insert (by simp) ?_).symm
  intro x _ hk
  exact decide_eq_true (Prod.mk.inj hk).1

theorem dequeue_only : (db.only R).dequeue r c = (db.dequeue r c).only R :=
  Db.only_queue (Table.keep_deleteWhere fun _ _ _ => rfl).symm

theorem deleteSessions_only {p : SessionRow → Bool} (h : db.Owned) :
    (db.only R).deleteSessions p = (db.deleteSessions p).only R := by
  have hsessions := Table.keep_deleteWhere (t := db.sessions) (p := fun s => s.repositoryId = R) (q := p)
    fun _ _ _ => rfl
  have hlinks : (db.sessionChunks.deleteWhere fun l => (db.sessions.get? l.sessionId).any p).keep
      (fun l => l.repositoryId = R) = (db.sessionChunks.keep fun l => l.repositoryId = R).deleteWhere
        fun l => ((db.only R).sessions.get? l.sessionId).any p := by
    apply Table.keep_deleteWhere
    intro l hl hr
    -- the session of a link of the repository is kept
    have hget : (db.only R).sessions.get? l.sessionId = db.sessions.get? l.sessionId := by
      apply sessions_only
      intro s hs hid
      exact (h.session hl hs hid).trans (of_decide_eq_true hr)
    rw [hget]
  simp only [Db.deleteSessions, Db.only, hsessions, hlinks]
  rfl

theorem finalizeSession_only {u : Uuid} : finalizeSession (db.only R) u = (finalizeSession db u).only R :=
  Db.only_sessions (Table.keep_updateWhere _ (by simp)).symm

end Statements

/-! ## Transactions of the repository -/

section Transactions

theorem upsertSession_only {now : Nat} {newId : Uuid} (hnew : ∀ s ∈ db.sessions, s.id ≠ newId) :
    upsertSession (db.only R) now R m newId =
      (upsertSession db now R m newId).map (Prod.map id (Db.only R)) := by
  have hfind : ((db.only R).sessions.find? fun s => s.repositoryId = R ∧ s.objectOid = m.objectOid ∧
      s.state = .opened) =
      db.sessions.find? fun s => s.repositoryId = R ∧ s.objectOid = m.objectOid ∧ s.state = .opened := by
    apply Table.find?_keep
    intro x _ hx
    simp only [decide_eq_true_eq] at hx ⊢
    exact hx.1
  have hmine : db.Mine R newId := fun s hs hid => absurd hid (hnew s hs)
  have hfree : db.sessions.get? newId = none := Table.get?_none.2 hnew
  unfold upsertSession
  rw [hfind, sessions_only hmine, hfree]
  split
  · exact congrArg (fun x => Except.ok (_, x))
      (Db.only_sessions (Table.keep_updateWhere _ (by simp)).symm)
  · refine congrArg (fun x => Except.ok (_, x)) (Db.only_sessions (Table.keep_insert (by simp) ?_).symm)
    intro x hx hid
    exact absurd hid (hnew x hx)

theorem resumeOrCreate_only {e : ApiError} {now : Nat} {newId : Uuid}
    (hnew : ∀ s ∈ db.sessions, s.id ≠ newId) :
    resumeOrCreate e (db.only R) now R m newId =
      (resumeOrCreate e db now R m newId).map (Prod.map id (Db.only R)) := by
  unfold resumeOrCreate
  simp only
  rw [expireOpen_only]
  split
  · rfl
  · rw [upsertSession_only, map_orDatabase]
    · refine map_bind rfl ?_
      intro x _
      simp only [Prod.map, id]
      split
      · rfl
      · rfl
    · intro s hs hid
      obtain ⟨x, hx, hages, -⟩ := mem_expireOpen hs
      exact hnew x hx (hages.id_eq.symm.trans hid)

theorem beginCdc_only {now v : Nat} {newId : Uuid} (hnew : ∀ s ∈ db.sessions, s.id ≠ newId) :
    beginCdc (db.only R) now R oid v m newId =
      (beginCdc db now R oid v m newId).map (Prod.map id (Db.only R)) := by
  unfold beginCdc
  split
  · rfl
  split
  · rfl
  split
  · rfl
  · exact resumeOrCreate_only hnew

theorem ensureUploadSession_only {now : Nat} {newId : Uuid} (hnew : ∀ s ∈ db.sessions, s.id ≠ newId) :
    ensureUploadSession (db.only R) now R m newId =
      (ensureUploadSession db now R m newId).map (Prod.map id (Db.only R)) :=
  resumeOrCreate_only hnew

theorem upsertChunk_only {d : ChunkDescriptor} :
    upsertChunk (db.only R) R d = (upsertChunk db R d).map (Db.only R) := by
  unfold upsertChunk
  rw [chunks_only, insertChunk_only, map_orDatabase]
  cases db.chunks.get? (R, d.id) with
  | none => rfl
  | some k =>
    simp only
    split <;> rfl

theorem registerChunk_only {u : Uuid} {d : ChunkDescriptor} (h : db.Owned) (hu : db.Mine R u) :
    registerChunk (db.only R) R u d = (registerChunk db R u d).map (Db.only R) := by
  unfold registerChunk
  refine map_bind upsertChunk_only fun db₁ h₁ => ?_
  obtain ⟨⟨C, rfl⟩, -⟩ := upsertChunk_ok h₁
  have howned : ({ db with chunks := C } : Db).Owned := ⟨h.link, h.reachable⟩
  rw [linkSessionChunk_only howned hu, map_orDatabase]

theorem insertChunks_only : ∀ {ds : List ChunkDescriptor} {db : Db},
    insertChunks R ds (db.only R) = (insertChunks R ds db).map (Db.only R)
  | [], _ => rfl
  | d :: ds, db => by
    unfold insertChunks
    exact map_bind insertChunk_only fun db₁ _ => insertChunks_only

theorem referenceChunks_only : ∀ {ds : List ChunkDescriptor} {n : Nat} {db : Db},
    referenceChunks R oid n ds (db.only R) = (referenceChunks R oid n ds db).map (Db.only R)
  | [], _, _ => rfl
  | d :: ds, n, db => by
    unfold referenceChunks
    split
    · rfl
    · have hrow : (objectChunkRow R oid n d).repositoryId = R := rfl
      rw [insertObjectChunk_only hrow, map_orDatabase]
      refine map_bind rfl fun db₁ _ => ?_
      rw [addReference_only]
      exact referenceChunks_only

theorem publishOpen_only {u : Uuid} :
    publishOpen (db.only R) R u m = (publishOpen db R u m).map (Prod.map id (Db.only R)) := by
  unfold publishOpen
  rw [insertChunks_only, map_orDatabase]
  refine map_bind rfl fun db₁ _ => ?_
  split
  · rfl
  rw [objects_only]
  split
  · have hinsert : ∀ o : ObjectRow, o.repositoryId = R →
        ({ db₁.only R with objects := (db₁.only R).objects.insert o } : Db) =
          ({ db₁ with objects := db₁.objects.insert o } : Db).only R := by
      intro o ho
      refine Db.only_objects (Table.keep_insert (by simp [ho]) ?_).symm
      intro x _ hk
      exact decide_eq_true ((Prod.mk.inj hk).1.trans ho)
    simp only
    rw [hinsert _ rfl, referenceChunks_only]
    refine map_bind rfl fun db₃ _ => ?_
    rw [finalizeSession_only]
    rfl
  · rw [finalizeSession_only]
    rfl

theorem publishManifest_only {now : Nat} {u : Uuid} :
    publishManifest (db.only R) now R u m =
      (publishManifest db now R u m).map (Prod.map id (Db.only R)) := by
  unfold publishManifest
  rw [finalizable_only]
  split
  · rfl
  split
  · rfl
  split
  · rfl
  · rfl
  · exact publishOpen_only

/-! ### Snapshots -/

theorem Db.only_epochs {E E' : Table EpochRow.id} (hE : E' = E.keep fun e => e.repositoryId = R)
    (hR : ∀ x ∈ db.reachable, db.EpochOf R x ↔ ({ db with epochs := E } : Db).EpochOf R x) :
    { db.only R with epochs := E' } = ({ db with epochs := E } : Db).only R := by
  have hreachable : db.reachable.keep (fun x => db.EpochOf R x) =
      db.reachable.keep fun x => ({ db with epochs := E } : Db).EpochOf R x :=
    Table.keep_congr fun x hx => decide_eq_decide.2 (hR x hx)
  subst hE
  simp only [Db.only, hreachable]

theorem insertReachable_only {epoch : Uuid} : ∀ {oids : List ObjectOid} {db : Db},
    (∃ e ∈ db.epochs, e.id = epoch ∧ e.repositoryId = R) →
    insertReachable epoch oids (db.only R) = (insertReachable epoch oids db).map (Db.only R)
  | [], _, _ => rfl
  | oid :: oids, db, he => by
    have hkey : ∀ x ∈ db.reachable, x = ⟨epoch, oid⟩ → decide (db.EpochOf R x) = true := by
      intro x _ hx
      rw [hx]
      exact decide_eq_true he
    have hget : (db.only R).reachable.get? ⟨epoch, oid⟩ = db.reachable.get? ⟨epoch, oid⟩ :=
      Table.get?_keep hkey
    unfold insertReachable
    rw [hget]
    split
    · rfl
    · have hinsert : ({ db.only R with reachable := (db.only R).reachable.insert ⟨epoch, oid⟩ } : Db) =
          ({ db with reachable := db.reachable.insert ⟨epoch, oid⟩ } : Db).only R := by
        have hkeep : (db.reachable.insert ⟨epoch, oid⟩).keep (fun x => db.EpochOf R x) =
            (db.reachable.keep fun x => db.EpochOf R x).insert ⟨epoch, oid⟩ :=
          Table.keep_insert (decide_eq_true he) (by exact hkey)
        simp only [Db.only]
        rw [← hkeep]
        rfl
      rw [hinsert]
      exact insertReachable_only he

theorem submitSnapshot_only {now : Nat} {fp : String} {oids : List ObjectOid} {epoch : Uuid}
    (h : db.Owned) (hnew : ∀ e ∈ db.epochs, e.id ≠ epoch) :
    submitSnapshot (db.only R) now R fp oids epoch =
      (submitSnapshot db now R fp oids epoch).map (Db.only R) := by
  have hfree : db.epochs.get? epoch = none := Table.get?_none.2 hnew
  have hkey : ∀ e ∈ db.epochs, e.id = epoch → decide (e.repositoryId = R) = true :=
    fun e he hid => absurd hid (hnew e he)
  have hget : (db.only R).epochs.get? epoch = db.epochs.get? epoch := Table.get?_keep hkey
  -- the new row is an epoch of the repository, and nothing is listed under it yet
  have hinsert : ({ db.only R with
      epochs := (db.only R).epochs.insert ⟨epoch, R, fp, false, none⟩ } : Db) =
      ({ db with epochs := db.epochs.insert ⟨epoch, R, fp, false, none⟩ } : Db).only R := by
    refine Db.only_epochs (Table.keep_insert (by simp) (by exact hkey)).symm fun x hx => ?_
    obtain ⟨e₀, he₀, hid₀⟩ := h.reachable x hx
    simp only [Db.EpochOf, Table.mem_insert]
    constructor
    · intro hof
      obtain ⟨e, he, hof⟩ := hof
      exact ⟨e, .inl he, hof⟩
    · intro hof
      obtain ⟨e, he | ⟨rfl, -⟩, hid, hr⟩ := hof
      · exact ⟨e, he, hid, hr⟩
      · exact absurd (hid₀.trans hid.symm) (hnew e₀ he₀)
  unfold submitSnapshot
  rw [hget, hinsert, insertReachable_only]
  · split
    · rfl
    cases hlisted : insertReachable epoch oids
        { db with epochs := db.epochs.insert ⟨epoch, R, fp, false, none⟩ } with
    | error e => rfl
    | ok db₁ =>
      refine congrArg Except.ok (Db.only_epochs (Table.keep_updateWhere _ (by simp)).symm fun x _ => ?_)
      -- completing an epoch changes neither its id nor its repository
      constructor
      · intro hof
        obtain ⟨e, he, hid, hr⟩ := hof
        by_cases hx : e.id = epoch
        · exact ⟨{ e with complete := true, completedAt := some now },
            (Table.mem_updateWhere (by intro; rfl)).2 (.inr ⟨e, he, by simpa using hx, rfl⟩), hid, hr⟩
        · exact ⟨e, (Table.mem_updateWhere (by intro; rfl)).2 (.inl ⟨he, decide_eq_false hx⟩), hid, hr⟩
      · intro hof
        obtain ⟨e, he, hid, hr⟩ := hof
        rcases (Table.mem_updateWhere (by intro; rfl)).1 he with ⟨he, -⟩ | ⟨b, hb, -, rfl⟩
        · exact ⟨e, he, hid, hr⟩
        · exact ⟨b, hb, hid, hr⟩
  · exact ⟨_, Table.mem_insert.2 (.inr ⟨rfl, hfree⟩), rfl, rfl⟩

theorem stageTombstones_only {now seconds : Nat} : ∀ {cs : List GcCandidate} {db : Db},
    stageTombstones now R seconds cs (db.only R) =
      (stageTombstones now R seconds cs db).map (Db.only R)
  | [], _ => rfl
  | c :: cs, db => by
    have hrow : (⟨R, c.oid, now + seconds * second⟩ : TombstoneRow).repositoryId = R := rfl
    unfold stageTombstones
    rw [insertTombstone_only hrow]
    cases db.insertTombstone ⟨R, c.oid, now + seconds * second⟩ with
    | error e => rfl
    | ok db₁ => exact stageTombstones_only

/-! ### Collection -/

theorem releaseChunks_only {now : Nat} : ∀ {cs : List ChunkId} {db : Db},
    releaseChunks now R cs (db.only R) = (releaseChunks now R cs db).map (Db.only R)
  | [], _ => rfl
  | c :: cs, db => by
    unfold releaseChunks
    rw [dropReference_only]
    cases db.dropReference R c with
    | error e => rfl
    | ok db₁ =>
      simp only [Except.map]
      rw [chunks_only]
      split
      · rw [enqueue_only]
        exact releaseChunks_only
      · exact releaseChunks_only

theorem collectObject_only {now : Nat} :
    collectObject (db.only R) now R oid = (collectObject db now R oid).map (Db.only R) := by
  unfold collectObject
  rw [chunksOf_only, deleteObject_only]
  exact releaseChunks_only

theorem enqueueAll_only {now : Nat} : ∀ {ks : List ChunkRow} {db : Db},
    (∀ k ∈ ks, k.repositoryId = R) → enqueueAll now ks (db.only R) = (enqueueAll now ks db).only R
  | [], _, _ => rfl
  | k :: ks, db, hks => by
    unfold enqueueAll
    rw [hks k List.mem_cons_self, enqueue_only]
    exact enqueueAll_only fun x hx => hks x (List.mem_cons_of_mem _ hx)

theorem Db.Owned.expireOpen (h : db.Owned) (now : Nat) (p : SessionRow → Bool) :
    (db.expireOpen now p).Owned where
  link l hl := by
    obtain ⟨s, hs, hid, hr⟩ := h.link l hl
    obtain ⟨s', hs', hages⟩ := mem_expireOpen_of_mem now p hs
    exact ⟨s', hs', hages.id_eq.trans hid, hages.repositoryId_eq.trans hr⟩
  reachable := h.reachable

theorem reclaimsChunk_only {now seconds : Nat} {k : ChunkRow} (h : db.Owned) :
    ReclaimsChunk (db.only R) now R seconds k ↔ ReclaimsChunk db now R seconds k := by
  unfold ReclaimsChunk
  apply and_congr_right
  intro hr
  rw [hr, linkedBy_only h, activelyLinked_only h]

theorem reclaimSessions_only {now seconds : Nat} (h : db.Owned) :
    reclaimSessions (db.only R) now R seconds = (reclaimSessions db now R seconds).only R := by
  have howned := h.expireOpen now fun s => s.repositoryId = R
  have hrows : ((db.expireOpen now fun s => s.repositoryId = R).only R).chunks.rows.filter
      (fun k => ReclaimsChunk ((db.expireOpen now fun s => s.repositoryId = R).only R) now R seconds k) =
      (db.expireOpen now fun s => s.repositoryId = R).chunks.rows.filter
        fun k => ReclaimsChunk (db.expireOpen now fun s => s.repositoryId = R) now R seconds k := by
    simp only [reclaimsChunk_only howned]
    apply Table.filter_keep
    intro k _ hk
    simp only [decide_eq_true_eq] at hk ⊢
    exact hk.1
  unfold reclaimSessions
  simp only
  rw [expireOpen_only, hrows, enqueueAll_only]
  · obtain ⟨Q, hQ⟩ := enqueueAll_frame now
      ((db.expireOpen now fun s => s.repositoryId = R).chunks.rows.filter fun k =>
        ReclaimsChunk (db.expireOpen now fun s => s.repositoryId = R) now R seconds k)
      (db.expireOpen now fun s => s.repositoryId = R)
    rw [hQ]
    exact deleteSessions_only ⟨howned.link, howned.reachable⟩
  · intro k hk
    have hk := (List.mem_filter.1 hk).2
    simp only [decide_eq_true_eq] at hk
    exact hk.1

/-- The number of sessions reclaimed is that of the repository's. -/
theorem reclaimSessions_count_only {now seconds : Nat} :
    (db.only R).sessions.rows.length - (reclaimSessions (db.only R) now R seconds).sessions.rows.length =
      db.sessions.rows.length - (reclaimSessions db now R seconds).sessions.rows.length := by
  -- nothing but the removal changes the number of sessions
  have hcount : ∀ db : Db, db.sessions.rows.length -
      (reclaimSessions db now R seconds).sessions.rows.length =
      (db.expireOpen now fun s => s.repositoryId = R).sessions.rows.length -
        ((db.expireOpen now fun s => s.repositoryId = R).sessions.deleteWhere
          fun s => Reclaimable now R seconds s).rows.length := by
    intro db
    have hlength : db.sessions.rows.length =
        (db.expireOpen now fun s => s.repositoryId = R).sessions.rows.length :=
      (List.length_map _).symm
    obtain ⟨Q, hQ⟩ := enqueueAll_frame now
      ((db.expireOpen now fun s => s.repositoryId = R).chunks.rows.filter fun k =>
        ReclaimsChunk (db.expireOpen now fun s => s.repositoryId = R) now R seconds k)
      (db.expireOpen now fun s => s.repositoryId = R)
    unfold reclaimSessions
    simp only
    rw [hQ, hlength]
    rfl
  rw [hcount, hcount, expireOpen_only]
  apply Table.length_deleteWhere_keep
  intro s _ hs
  exact decide_eq_true (of_decide_eq_true hs).1

theorem drainCommit_only : drainCommit (db.only R) R c = (drainCommit db R c).map (Db.only R) := by
  unfold drainCommit
  rw [deleteChunkRow_only]
  cases db.deleteChunkRow R c with
  | error e => rfl
  | ok db₁ =>
    simp only [Except.map]
    rw [dequeue_only]

end Transactions

/-! ## Statements of another repository -/

section Others

theorem insertChunk_other {size : Nat} (hr : r ≠ R) (h : db.insertChunk r c size = .ok db') :
    db'.only R = db.only R := by
  unfold Db.insertChunk at h
  split at h
  · cases h
  · cases h
    exact (Db.only_chunks (Table.keep_insert_other (by simp [hr])).symm).symm

theorem insertObjectChunk_other {row : ObjectChunkRow} (hr : row.repositoryId ≠ R)
    (h : db.insertObjectChunk row = .ok db') : db'.only R = db.only R := by
  unfold Db.insertObjectChunk at h
  split at h
  · cases h
  split at h
  · cases h
  split at h
  · cases h
  · cases h
    exact (Db.only_objectChunks (Table.keep_insert_other (by simp [hr])).symm).symm

theorem addReference_other (hr : r ≠ R) : (db.addReference r c).only R = db.only R := by
  refine (Db.only_chunks (Table.keep_updateWhere_other _ (by simp) ?_).symm).symm
  intro x _ hx
  simp only [decide_eq_true_eq] at hx
  simp [hx, hr.symm]

theorem dropReference_other (hr : r ≠ R) (h : db.dropReference r c = .ok db') :
    db'.only R = db.only R := by
  unfold Db.dropReference at h
  split at h
  · cases h
  · cases h
    refine (Db.only_chunks (Table.keep_updateWhere_other _ (by simp) ?_).symm).symm
    intro x _ hx
    simp only [decide_eq_true_eq] at hx
    simp [hx, hr.symm]

theorem deleteObject_other (hr : r ≠ R) : (db.deleteObject r oid).only R = db.only R := by
  have hobjects := Table.keep_deleteWhere_other (t := db.objects) (p := fun o => o.repositoryId = R)
    (q := fun o => o.repositoryId = r ∧ o.oid = oid) ?_
  have hrows := Table.keep_deleteWhere_other (t := db.objectChunks) (p := fun o => o.repositoryId = R)
    (q := fun o => o.repositoryId = r ∧ o.objectOid = oid) ?_
  have htombstones := Table.keep_deleteWhere_other (t := db.tombstones) (p := fun t => t.repositoryId = R)
    (q := fun t => t.repositoryId = r ∧ t.objectOid = oid) ?_
  · simp only [Db.deleteObject, Db.only, hobjects, hrows, htombstones]
    rfl
  all_goals
    intro x _ hx
    simp only [decide_eq_true_eq] at hx
    simp [hx, hr.symm]

theorem deleteChunkRow_other (hr : r ≠ R) (h : db.deleteChunkRow r c = .ok db') :
    db'.only R = db.only R := by
  unfold Db.deleteChunkRow at h
  split at h
  · cases h
  · cases h
    refine (Db.only_chunks (Table.keep_deleteWhere_other ?_).symm).symm
    intro x _ hx
    simp only [decide_eq_true_eq] at hx
    simp [hx, hr.symm]

theorem linkSessionChunk_other {u : Uuid} (hr : r ≠ R) (h : db.linkSessionChunk u r c = .ok db') :
    db'.only R = db.only R := by
  unfold Db.linkSessionChunk at h
  split at h
  · cases h; rfl
  split at h
  · cases h
  · cases h
    exact (Db.only_sessionChunks (Table.keep_insert_other (by simp [hr])).symm).symm

theorem expireOpen_other {now : Nat} {p : SessionRow → Bool} (hr : r ≠ R)
    (hp : ∀ s, p s = true → s.repositoryId = r) : (db.expireOpen now p).only R = db.only R := by
  refine (Db.only_sessions (Table.keep_updateWhere_other _ (by simp) ?_).symm).symm
  intro x _ hx
  simp only [decide_eq_true_eq] at hx
  rw [decide_eq_false_iff_not]
  intro h
  exact hr ((hp x h.1).symm.trans hx)

theorem deleteSessions_other {p : SessionRow → Bool} (h : db.Owned) (hr : r ≠ R)
    (hp : ∀ s, p s = true → s.repositoryId = r) : (db.deleteSessions p).only R = db.only R := by
  have hmine : ∀ s : SessionRow, s.repositoryId = R → p s = false :=
    fun s hs => Bool.eq_false_iff.2 fun h => hr ((hp s h).symm.trans hs)
  have hsessions : (db.sessions.deleteWhere p).keep (fun s => s.repositoryId = R) =
      db.sessions.keep fun s => s.repositoryId = R :=
    Table.keep_deleteWhere_other fun s _ hs => hmine s (of_decide_eq_true hs)
  have hlinks : (db.sessionChunks.deleteWhere fun l => (db.sessions.get? l.sessionId).any p).keep
      (fun l => l.repositoryId = R) = db.sessionChunks.keep fun l => l.repositoryId = R := by
    apply Table.keep_deleteWhere_other
    intro l hl hlr
    -- a link of the repository has a session of the repository
    cases hget : db.sessions.get? l.sessionId with
    | none => rfl
    | some s =>
      obtain ⟨hs, hid⟩ := Table.get?_some.1 hget
      exact hmine s ((h.session hl hs hid).trans (of_decide_eq_true hlr))
  simp only [Db.deleteSessions, Db.only, hsessions, hlinks]
  rfl

theorem insertTombstone_other {row : TombstoneRow} (hr : row.repositoryId ≠ R)
    (h : db.insertTombstone row = .ok db') : db'.only R = db.only R := by
  unfold Db.insertTombstone at h
  split at h
  · cases h; rfl
  split at h
  · cases h
  · cases h
    exact (Db.only_tombstones (Table.keep_insert_other (by simp [hr])).symm).symm

theorem enqueue_other {now : Nat} (hr : r ≠ R) : (db.enqueue now r c).only R = db.only R :=
  (Db.only_queue (Table.keep_insert_other (by simp [hr])).symm).symm

theorem dequeue_other (hr : r ≠ R) : (db.dequeue r c).only R = db.only R := by
  refine (Db.only_queue (Table.keep_deleteWhere_other ?_).symm).symm
  intro x _ hx
  simp only [decide_eq_true_eq] at hx
  simp [hx, hr.symm]

/-- An update of one session, which is of another repository. -/
theorem updateSession_other {s : SessionRow} {f : SessionRow → SessionRow} {hf : ∀ x, (f x).id = x.id}
    (hs : s ∈ db.sessions) (hr : s.repositoryId ≠ R) (hfr : ∀ x, (f x).repositoryId = x.repositoryId) :
    ({ db with sessions := db.sessions.updateWhere (fun x => x.id = s.id) f hf } : Db).only R =
      db.only R := by
  refine (Db.only_sessions (Table.keep_updateWhere_other _ (by simp [hfr]) ?_).symm).symm
  intro x hx hxr
  simp only [decide_eq_true_eq] at hxr
  rw [decide_eq_false_iff_not]
  intro hid
  rw [Table.eq_of_key hx hs hid] at hxr
  exact hr hxr

theorem finalizeSession_other {s : SessionRow} {u : Uuid} (hs : s ∈ db.sessions) (hid : s.id = u)
    (hr : s.repositoryId ≠ R) : (finalizeSession db u).only R = db.only R := by
  subst hid
  exact updateSession_other hs hr fun _ => rfl

/-! ## Transactions of another repository -/

theorem resumeOrCreate_other {e : ApiError} {now : Nat} {newId u : Uuid} (hr : r ≠ R)
    (h : resumeOrCreate e db now r m newId = .ok (u, db')) : db'.only R = db.only R := by
  unfold resumeOrCreate at h
  simp only at h
  split at h
  · cases h
  rw [bind_eq_ok] at h
  obtain ⟨⟨s, db₂⟩, hupsert, h⟩ := h
  rw [orDatabase_ok] at hupsert
  have hexpire : (db.expireOpen now fun s => s.repositoryId = r ∧ s.objectOid = m.objectOid).only R =
      db.only R := by
    apply expireOpen_other hr
    intro s hs
    exact (of_decide_eq_true hs).1
  rw [← hexpire]
  simp only at h
  split at h
  · cases h
  cases h
  unfold upsertSession at hupsert
  split at hupsert
  · rename_i s' hfind
    obtain ⟨hs', hp⟩ := Table.mem_of_find? hfind
    simp only [decide_eq_true_eq] at hp
    cases hupsert
    exact updateSession_other hs' (hp.1 ▸ hr) fun _ => rfl
  · split at hupsert
    · cases hupsert
    · cases hupsert
      exact (Db.only_sessions (Table.keep_insert_other (by simp [hr])).symm).symm

theorem upsertChunk_other {d : ChunkDescriptor} (hr : r ≠ R) (h : upsertChunk db r d = .ok db') :
    db'.only R = db.only R := by
  unfold upsertChunk at h
  split at h
  · exact insertChunk_other hr (orDatabase_ok.1 h)
  · split at h
    · cases h; rfl
    · cases h

theorem registerChunk_other {u : Uuid} {d : ChunkDescriptor} (hr : r ≠ R)
    (h : registerChunk db r u d = .ok db') : db'.only R = db.only R := by
  unfold registerChunk at h
  rw [bind_eq_ok] at h
  obtain ⟨db₁, h₁, h₂⟩ := h
  rw [linkSessionChunk_other hr (orDatabase_ok.1 h₂), upsertChunk_other hr h₁]

theorem insertChunks_other (hr : r ≠ R) : ∀ {ds : List ChunkDescriptor} {db db' : Db},
    insertChunks r ds db = .ok db' → db'.only R = db.only R
  | [], db, db', h => by cases h; rfl
  | d :: ds, db, db', h => by
    unfold insertChunks at h
    rw [bind_eq_ok] at h
    obtain ⟨db₁, h₁, h₂⟩ := h
    rw [insertChunks_other hr h₂, insertChunk_other hr h₁]

theorem referenceChunks_other (hr : r ≠ R) : ∀ {ds : List ChunkDescriptor} {n : Nat} {db db' : Db},
    referenceChunks r oid n ds db = .ok db' → db'.only R = db.only R
  | [], _, db, db', h => by cases h; rfl
  | d :: ds, n, db, db', h => by
    unfold referenceChunks at h
    split at h
    · cases h
    rw [bind_eq_ok] at h
    obtain ⟨db₁, h₁, h₂⟩ := h
    rw [referenceChunks_other hr h₂, addReference_other hr, insertObjectChunk_other hr (orDatabase_ok.1 h₁)]

theorem publishManifest_other {now : Nat} {u : Uuid} {b : Bool} (hr : r ≠ R)
    (h : publishManifest db now r u m = .ok (b, db')) : db'.only R = db.only R := by
  unfold publishManifest at h
  split at h
  · cases h
  split at h
  · cases h
  rename_i s hfind
  obtain ⟨hs, hp⟩ := Table.mem_of_find? hfind
  simp only [decide_eq_true_eq] at hp
  obtain ⟨rfl, rfl, -⟩ := hp
  split at h
  · cases h; rfl
  · cases h
  unfold publishOpen at h
  rw [bind_eq_ok] at h
  obtain ⟨db₁, h₁, h₂⟩ := h
  have hsame := insertChunks_other hr (orDatabase_ok.1 h₁)
  have hs₁ : s ∈ db₁.sessions := by
    obtain ⟨⟨C, rfl⟩, -⟩ := insertChunks_ok (orDatabase_ok.1 h₁)
    exact hs
  split at h₂
  · cases h₂
  split at h₂
  · rw [bind_eq_ok] at h₂
    obtain ⟨db₃, h₃, h₄⟩ := h₂
    have hs₃ : s ∈ db₃.sessions := by
      obtain ⟨⟨C, O, rfl⟩, -⟩ := referenceChunks_ok h₃
      exact hs₁
    cases h₄
    rw [finalizeSession_other hs₃ rfl hr, referenceChunks_other hr h₃, ← hsame]
    exact (Db.only_objects (Table.keep_insert_other (by simp [hr])).symm).symm
  · cases h₂
    rw [finalizeSession_other hs₁ rfl hr, hsame]

theorem insertReachable_other {epoch : Uuid} : ∀ {oids : List ObjectOid} {db db' : Db},
    (∀ e ∈ db.epochs, e.id = epoch → e.repositoryId ≠ R) → insertReachable epoch oids db = .ok db' →
    db'.only R = db.only R
  | [], db, db', _, h => by cases h; rfl
  | oid :: oids, db, db', he, h => by
    unfold insertReachable at h
    split at h
    · cases h
    rw [insertReachable_other (by exact he) h]
    have hkeep : (db.reachable.insert ⟨epoch, oid⟩).keep (fun x => db.EpochOf R x) =
        db.reachable.keep fun x => db.EpochOf R x := by
      apply Table.keep_insert_other
      apply decide_eq_false
      intro hof
      obtain ⟨e, hmem, hid, hr⟩ := hof
      exact he e hmem hid hr
    simp only [Db.only]
    rw [← hkeep]
    rfl

/-- Epochs of other repositories make no difference. -/
theorem Db.only_epochs_other {E : Table EpochRow.id}
    (hE : (E.keep fun e => e.repositoryId = R) = db.epochs.keep fun e => e.repositoryId = R) :
    ({ db with epochs := E } : Db).only R = db.only R := by
  refine (Db.only_epochs hE.symm fun x _ => ?_).symm
  have hmem : ∀ e : EpochRow, e.repositoryId = R → (e ∈ E ↔ e ∈ db.epochs) := by
    intro e he
    have hkeep : e ∈ E.keep (fun e => e.repositoryId = R) ↔
        e ∈ db.epochs.keep fun e => e.repositoryId = R := by
      rw [hE]
    simpa [he] using hkeep
  constructor
  · intro hof
    obtain ⟨e, he, hid, hr⟩ := hof
    exact ⟨e, (hmem e hr).2 he, hid, hr⟩
  · intro hof
    obtain ⟨e, he, hid, hr⟩ := hof
    exact ⟨e, (hmem e hr).1 he, hid, hr⟩

theorem submitSnapshot_other {now : Nat} {fp : String} {oids : List ObjectOid} {epoch : Uuid}
    (hr : r ≠ R) (h : submitSnapshot db now r fp oids epoch = .ok db') : db'.only R = db.only R := by
  unfold submitSnapshot at h
  split at h
  · cases h
  rename_i hfree
  have hfree : db.epochs.get? epoch = none := by simpa using hfree
  split at h
  · cases h
  rename_i db₁ hlisted
  cases h
  -- the new epoch is the only one with its id
  have hnew : ∀ e ∈ db.epochs.insert ⟨epoch, r, fp, false, none⟩, e.id = epoch → e.repositoryId ≠ R := by
    intro e he hid
    rcases Table.mem_insert.1 he with he | ⟨rfl, -⟩
    · exact absurd hid (Table.get?_none.1 hfree e he)
    · exact hr
  have hlist := insertReachable_other (by exact hnew) hlisted
  have hepochs : db₁.epochs = db.epochs.insert ⟨epoch, r, fp, false, none⟩ := by
    obtain ⟨⟨L, rfl⟩, -⟩ := insertReachable_ok hlisted
    rfl
  have hcomplete : ∀ {hf}, (db₁.epochs.updateWhere (fun e => e.id = epoch)
      (fun e => { e with complete := true, completedAt := some now }) hf).keep
        (fun e => e.repositoryId = R) = db₁.epochs.keep fun e => e.repositoryId = R := by
    intro hf
    apply Table.keep_updateWhere_other hf (by simp)
    intro e he hid
    rw [hepochs] at he
    rw [decide_eq_false_iff_not]
    intro heq
    exact hnew e he heq (of_decide_eq_true hid)
  refine (Db.only_epochs_other hcomplete).trans (hlist.trans (Db.only_epochs_other ?_))
  exact Table.keep_insert_other (by simp [hr])

theorem stageTombstones_other {now seconds : Nat} (hr : r ≠ R) : ∀ {cs : List GcCandidate} {db db' : Db},
    stageTombstones now r seconds cs db = .ok db' → db'.only R = db.only R
  | [], db, db', h => by cases h; rfl
  | c :: cs, db, db', h => by
    unfold stageTombstones at h
    split at h
    · cases h
    rename_i db₁ h₁
    rw [stageTombstones_other hr h, insertTombstone_other hr h₁]

theorem releaseChunks_other {now : Nat} (hr : r ≠ R) : ∀ {cs : List ChunkId} {db db' : Db},
    releaseChunks now r cs db = .ok db' → db'.only R = db.only R
  | [], db, db', h => by cases h; rfl
  | c :: cs, db, db', h => by
    unfold releaseChunks at h
    split at h
    · cases h
    rename_i db₁ h₁
    rw [releaseChunks_other hr h]
    split
    · rw [enqueue_other hr, dropReference_other hr h₁]
    · exact dropReference_other hr h₁

theorem collectObject_other {now : Nat} (hr : r ≠ R) (h : collectObject db now r oid = .ok db') :
    db'.only R = db.only R := by
  unfold collectObject at h
  rw [releaseChunks_other hr h, deleteObject_other hr]

theorem enqueueAll_other {now : Nat} (hr : r ≠ R) : ∀ {ks : List ChunkRow} {db : Db},
    (∀ k ∈ ks, k.repositoryId = r) → (enqueueAll now ks db).only R = db.only R
  | [], _, _ => rfl
  | k :: ks, db, hks => by
    unfold enqueueAll
    rw [enqueueAll_other hr fun x hx => hks x (List.mem_cons_of_mem _ hx), hks k List.mem_cons_self,
      enqueue_other hr]

theorem reclaimSessions_other {now seconds : Nat} (h : db.Owned) (hr : r ≠ R) :
    (reclaimSessions db now r seconds).only R = db.only R := by
  have hexpired : (db.expireOpen now fun s => s.repositoryId = r).only R = db.only R := by
    apply expireOpen_other hr
    intro s hs
    exact of_decide_eq_true hs
  have howned := h.expireOpen now fun s => s.repositoryId = r
  unfold reclaimSessions
  simp only
  generalize hks : (db.expireOpen now fun s => s.repositoryId = r).chunks.rows.filter
    (fun k => ReclaimsChunk (db.expireOpen now fun s => s.repositoryId = r) now r seconds k) = ks
  have hqueued : (enqueueAll now ks (db.expireOpen now fun s => s.repositoryId = r)).only R = db.only R := by
    rw [enqueueAll_other hr, hexpired]
    intro k hk
    rw [← hks] at hk
    have hk := (List.mem_filter.1 hk).2
    simp only [decide_eq_true_eq] at hk
    exact hk.1
  have howned' : (enqueueAll now ks (db.expireOpen now fun s => s.repositoryId = r)).Owned := by
    obtain ⟨Q, hQ⟩ := enqueueAll_frame now ks (db.expireOpen now fun s => s.repositoryId = r)
    rw [hQ]
    exact ⟨howned.link, howned.reachable⟩
  rw [deleteSessions_other howned' hr, hqueued]
  intro s hs
  exact (of_decide_eq_true hs).1

theorem drainCommit_other (hr : r ≠ R) (h : drainCommit db r c = .ok db') : db'.only R = db.only R := by
  unfold drainCommit at h
  split at h
  · cases h
  rename_i db₁ h₁
  cases h
  rw [dequeue_other hr, deleteChunkRow_other hr h₁]

end Others
end GitLfsDelta
