import GitLfsDelta.L3Server.Success
import GitLfsDelta.L4System.Sessions

/-!
# Unreferenced chunks

A chunk row without references is waste unless some administrative run can still find it:
`drain_chunk_queue` through `chunk_gc_queue`, or `reclaim_expired_uploads` through a link from
a session that is open, or expired and not yet removed. A finalized session is never looked at
again; its links keep nothing.

Finalizing is the one step that takes a session out of sight. It does no harm where it
references the session's chunks in the same transaction. It does where the object is already
published, for then it references nothing, and where a chunk is registered in the session
only after it was finalized.

* `chunks_tracked`: in every run where neither leaves a chunk that nothing else accounts for
  (`Accounted`), every unreferenced chunk row is queued or linked by an unfinalized session.
* `chunk_forgotten`: a run where the second happens.
-/
namespace GitLfsDelta

/-! ## Tracked chunks -/

def Db.Queued (db : Db) (r : Uuid) (c : ChunkId) : Prop := ∃ q ∈ db.queue, q.key = (r, c)

/-- A session other than `u` that is not finalized links the chunk. -/
def Db.PendingBeyond (db : Db) (u : Option Uuid) (r : Uuid) (c : ChunkId) : Prop :=
  ∃ l ∈ db.sessionChunks, (l.repositoryId = r ∧ l.chunkId = c) ∧ u ≠ some l.sessionId ∧
    ∃ x ∈ db.sessions, x.id = l.sessionId ∧ x.state ≠ .finalized

/-- Some administrative run can still reclaim the chunk. -/
def Db.Tracked (db : Db) (r : Uuid) (c : ChunkId) : Prop :=
  db.Queued r c ∨ db.PendingBeyond none r c

def Db.Referenced (db : Db) (r : Uuid) (c : ChunkId) : Prop :=
  ∃ k ∈ db.chunks, k.key = (r, c) ∧ 0 < k.referenceCount

/-- The chunk is referenced, or tracked by something else than session `u`. -/
def Db.Accounts (db : Db) (u r : Uuid) (c : ChunkId) : Prop :=
  db.Referenced r c ∨ db.Queued r c ∨ db.PendingBeyond (some u) r c

instance (db : Db) (r : Uuid) (c : ChunkId) : Decidable (db.Queued r c) := by
  unfold Db.Queued; infer_instance

instance (db : Db) (u : Option Uuid) (r : Uuid) (c : ChunkId) :
    Decidable (db.PendingBeyond u r c) := by
  unfold Db.PendingBeyond; infer_instance

instance (db : Db) (r : Uuid) (c : ChunkId) : Decidable (db.Tracked r c) := by
  unfold Db.Tracked; infer_instance

instance (db : Db) (r : Uuid) (c : ChunkId) : Decidable (db.Referenced r c) := by
  unfold Db.Referenced; infer_instance

instance (db : Db) (u r : Uuid) (c : ChunkId) : Decidable (db.Accounts u r c) := by
  unfold Db.Accounts; infer_instance

/-- No unreferenced chunk is forgotten. -/
def Db.AllTracked (db : Db) : Prop :=
  ∀ k ∈ db.chunks, k.referenceCount = 0 → db.Tracked k.repositoryId k.chunkId

instance (db : Db) : Decidable db.AllTracked := by
  unfold Db.AllTracked; infer_instance

/-- Unfinalized sessions stay unfinalized, unless it is `u`. -/
def KeepsPending (u : Option Uuid) (S S' : Table SessionRow.id) : Prop :=
  ∀ x ∈ S, x.state ≠ .finalized → u ≠ some x.id → ∃ x' ∈ S', x'.id = x.id ∧ x'.state ≠ .finalized

theorem KeepsPending.refl (u : Option Uuid) (S : Table SessionRow.id) : KeepsPending u S S :=
  fun x hx hne _ => ⟨x, hx, rfl, hne⟩

/-- Tracking survives a transaction that keeps the queue, the links and the sessions. -/
theorem Db.Tracked.mono {db db' : Db} {u : Option Uuid} {r : Uuid} {c : ChunkId}
    (h : db.Queued r c ∨ db.PendingBeyond u r c) (hq : ∀ q ∈ db.queue, q ∈ db'.queue)
    (hl : ∀ l ∈ db.sessionChunks, l ∈ db'.sessionChunks)
    (hs : KeepsPending u db.sessions db'.sessions) : db'.Tracked r c := by
  rcases h with ⟨q, hqm, hk⟩ | ⟨l, hlm, hkey, hu, x, hx, hid, hst⟩
  · exact .inl ⟨q, hq q hqm, hk⟩
  · obtain ⟨x', hx', hid', hst'⟩ := hs x hx hst (hid ▸ hu)
    exact .inr ⟨l, hl l hlm, hkey, by simp, x', hx', hid'.trans hid, hst'⟩

theorem resumeOrCreate_keepsPending {e : ApiError} {db db' : Db} {now : Nat} {r u newId : Uuid}
    {m : ObjectManifest} (h : resumeOrCreate e db now r m newId = .ok (u, db')) :
    KeepsPending none db.sessions db'.sessions := by
  obtain ⟨-, -, hkept, -⟩ := resumeOrCreate_ok h
  intro x hx hne _
  obtain ⟨x', hx', ha⟩ := hkept x hx
  refine ⟨x', hx', ha.id_eq, fun hfin => ?_⟩
  have hsame := Table.eq_of_key (resumeOrCreate_unfinalized h x' hx' hfin) hx ha.id_eq
  rw [hsame] at hfin
  exact hne hfin

/-! ## Collection -/

theorem enqueueAll_queue (now : Nat) : ∀ (ks : List ChunkRow) (db : Db),
    (∀ q ∈ db.queue, q ∈ (enqueueAll now ks db).queue) ∧
      ∀ k ∈ ks, (enqueueAll now ks db).Queued k.repositoryId k.chunkId
  | [], _ => ⟨fun _ h => h, fun _ h => by cases h⟩
  | k :: ks, db => by
    obtain ⟨hold, hnew⟩ := enqueueAll_queue now ks (db.enqueue now k.repositoryId k.chunkId)
    refine ⟨fun q hq => hold q (Table.mem_insert_of_mem hq), fun x hx => ?_⟩
    rcases List.mem_cons.1 hx with rfl | hx
    · obtain ⟨q, hq, hkey⟩ := Table.exists_mem_insert db.queue ⟨x.repositoryId, x.chunkId, now⟩
      exact ⟨q, hold q hq, hkey⟩
    · exact hnew x hx

/-- A chunk that loses its last reference is queued in the same transaction. -/
theorem releaseChunks_queue {now : Nat} {r : Uuid} : ∀ {cs : List ChunkId} {db db' : Db},
    releaseChunks now r cs db = .ok db' →
    (∀ q ∈ db.queue, q ∈ db'.queue) ∧
      ∀ k' ∈ db'.chunks, k'.referenceCount = 0 →
        k' ∈ db.chunks ∨ db'.Queued k'.repositoryId k'.chunkId
  | [], db, db', h => by
    cases h
    exact ⟨fun _ h => h, fun _ h _ => .inl h⟩
  | c :: cs, db, db', h => by
    unfold releaseChunks at h
    split at h; · cases h
    rename_i db₁ h₁
    unfold Db.dropReference at h₁
    split at h₁; · cases h₁
    cases h₁
    -- a row of this chunk at zero is queued by the next statement
    have hzero : ∀ k ∈ (db.chunks.updateWhere (fun k => k.repositoryId = r ∧ k.chunkId = c)
        (fun k => { k with referenceCount := k.referenceCount - 1 }) fun _ => rfl),
        k.referenceCount = 0 → k ∈ db.chunks ∨ k.key = (r, c) := by
      intro k hk _
      rcases (Table.mem_updateWhere (by intro; rfl)).1 hk with ⟨hk, -⟩ | ⟨b, -, hp, rfl⟩
      · exact .inl hk
      · simp only [decide_eq_true_eq] at hp
        exact .inr (Prod.ext hp.1 hp.2)
    split at h
    · rename_i hany
      obtain ⟨hold, hnew⟩ := releaseChunks_queue h
      refine ⟨fun q hq => hold q (Table.mem_insert_of_mem hq), fun k' hk' h0 => ?_⟩
      rcases hnew k' hk' h0 with hk | hq
      · rcases hzero k' hk h0 with hk | hkey
        · exact .inl hk
        · right
          obtain ⟨q, hq, hqk⟩ := Table.exists_mem_insert db.queue ⟨r, c, now⟩
          exact ⟨q, hold q hq, hqk.trans hkey.symm⟩
      · exact .inr hq
    · rename_i hany
      obtain ⟨hold, hnew⟩ := releaseChunks_queue h
      refine ⟨hold, fun k' hk' h0 => ?_⟩
      rcases hnew k' hk' h0 with hk | hq
      · rcases hzero k' hk h0 with hk₀ | hkey
        · exact .inl hk₀
        · refine absurd ?_ hany
          rw [Table.get?_some.2 ⟨hk, hkey⟩]
          simp [h0]
      · exact .inr hq

theorem Db.AllTracked.collect {db db' : Db} {now : Nat} {r : Uuid} {oid : ObjectOid}
    (h : db.AllTracked) (hc : collectObject db now r oid = .ok db') : db'.AllTracked := by
  obtain ⟨⟨C, Q, rfl⟩, -⟩ := collectObject_ok hc
  obtain ⟨hqueue, hrows⟩ := releaseChunks_queue hc
  intro k hk h0
  rcases hrows k hk h0 with hk | hq
  · exact Db.Tracked.mono (h k hk h0) hqueue (fun _ h => h) (.refl none _)
  · exact .inl hq

/-- A chunk linked by a session to be removed is queued, unless an open session links it. -/
theorem Db.AllTracked.reclaim {db : Db} (h : db.AllTracked) (hi : db.Inv) (now : Nat) (r : Uuid)
    (seconds : Nat) : (reclaimSessions db now r seconds).AllTracked := by
  unfold reclaimSessions
  simp only
  generalize hdb₁ : db.expireOpen now (fun s => decide (s.repositoryId = r)) = db₁
  obtain ⟨Q, hQ⟩ := enqueueAll_frame now
    (db₁.chunks.rows.filter fun k => ReclaimsChunk db₁ now r seconds k) db₁
  obtain ⟨hqueue, hreclaimed⟩ := enqueueAll_queue now
    (db₁.chunks.rows.filter fun k => ReclaimsChunk db₁ now r seconds k) db₁
  rw [hQ] at hqueue hreclaimed ⊢
  -- expiry finalizes nothing and removes nothing
  have hsame : db₁ = { db with sessions := db₁.sessions } := by rw [← hdb₁]; rfl
  have hpending : KeepsPending none db.sessions db₁.sessions := by
    intro x hx hne _
    obtain ⟨x', hx', ha⟩ := mem_expireOpen_of_mem now (fun s => decide (s.repositoryId = r)) hx
    rw [hdb₁] at hx'
    refine ⟨x', hx', ha.id_eq, fun hf => hne ?_⟩
    obtain ⟨y, hy, -, hkeep⟩ := expireOpen_follows (hdb₁ ▸ hx')
    have hyx : y = x' := (hkeep (by rw [hf]; decide)).symm
    rw [Table.eq_of_key hx hy (by rw [hyx, ha.id_eq]), hyx, hf]
  have hchunks : db₁.chunks = db.chunks := by rw [hsame]
  have hlinks : db₁.sessionChunks = db.sessionChunks := by rw [hsame]
  intro k hk h0
  have hk₁ : k ∈ db₁.chunks := hk
  have htr : db₁.Tracked k.repositoryId k.chunkId := by
    refine Db.Tracked.mono (h k (hchunks ▸ hk₁) h0) ?_ ?_ hpending
    · rw [hsame]; exact fun _ h => h
    · rw [hsame]; exact fun _ h => h
  -- a link whose session stays is still there
  have hstay : ∀ l ∈ db₁.sessionChunks, (l.repositoryId = k.repositoryId ∧ l.chunkId = k.chunkId) →
      ∀ x ∈ db₁.sessions, x.id = l.sessionId → x.state ≠ .finalized → ¬ Reclaimable now r seconds x →
      (({ db₁ with queue := Q } : Db).deleteSessions fun s => Reclaimable now r seconds s).Tracked
        k.repositoryId k.chunkId := by
    intro l hl hkey x hx hid hst hrec
    refine .inr ⟨l, deleteSessions_links.2 ⟨hl, fun y hy hyid => ?_⟩, hkey, by simp, x,
      Table.mem_deleteWhere.2 ⟨hx, by simpa using hrec⟩, hid, hst⟩
    rw [Table.eq_of_key hy hx (hyid.trans hid.symm)]
    simpa using hrec
  rcases htr with ⟨q, hq, hqk⟩ | ⟨l, hl, hkey, -, x, hx, hid, hst⟩
  · exact .inl ⟨q, hqueue q hq, hqk⟩
  by_cases hrec : Reclaimable now r seconds x
  · by_cases hact : db₁.ActivelyLinked k.repositoryId k.chunkId
    · obtain ⟨l', hl', hkey', x', hx', hid', hopen⟩ := hact
      refine hstay l' hl' hkey' x' hx' hid' (by rw [hopen]; decide) fun hr' => ?_
      have hexpired := hr'.2.1
      rw [hopen] at hexpired
      cases hexpired
    · left
      obtain ⟨y, hy, hyid, hyr⟩ := hi.linkSession l (hlinks ▸ hl)
      obtain ⟨z, hz, hf, -⟩ := expireOpen_follows (hdb₁ ▸ hx)
      have hzy : z = y := Table.eq_of_key hz hy (by rw [← hf.id, hid, hyid])
      have hkr : k.repositoryId = r := by
        rw [← hkey.1, ← hyr, ← hzy, ← hf.repositoryId, hrec.1]
      obtain ⟨q, hq, hqk⟩ := hreclaimed k (List.mem_filter.2 ⟨hk₁, by
        simpa using ⟨hkr, h0, ⟨l, hl, hkey, x, hx, hid, hrec.2.1, hrec.2.2⟩, hact⟩⟩)
      exact ⟨q, hq, hqk⟩
  · exact hstay l hl hkey x hx hid hst hrec

/-- The drain takes the row and the queue entry of one chunk together. -/
theorem Db.AllTracked.drain {db db' : Db} {r : Uuid} {c : ChunkId} (h : db.AllTracked)
    (hc : drainCommit db r c = .ok db') : db'.AllTracked := by
  obtain ⟨rfl, -⟩ := drainCommit_ok hc
  intro k hk h0
  obtain ⟨hk, hne⟩ := Table.mem_deleteWhere.1 hk
  simp only [decide_eq_false_iff_not] at hne
  rcases h k hk h0 with ⟨q, hq, hqk⟩ | hlink
  · refine .inl ⟨q, Table.mem_deleteWhere.2 ⟨hq, ?_⟩, hqk⟩
    obtain ⟨hqr, hqc⟩ := Prod.mk.inj hqk
    simp only [decide_eq_false_iff_not]
    rintro ⟨rfl, rfl⟩
    exact hne ⟨hqr.symm, hqc.symm, h0⟩
  · exact .inr hlink

/-- An entry is dropped only if its chunk is referenced or has no row. -/
theorem Db.AllTracked.dequeue {db : Db} {r : Uuid} {c : ChunkId} (h : db.AllTracked)
    (hd : drainDecision db r c = .dequeue) : (db.dequeue r c).AllTracked := by
  have hnot : ¬ db.Unreferenced r c := by
    intro hu
    rw [drainDecision_eq, if_pos hu] at hd
    split at hd <;> cases hd
  intro k hk h0
  rcases h k hk h0 with ⟨q, hq, hqk⟩ | hlink
  · refine .inl ⟨q, Table.mem_deleteWhere.2 ⟨hq, ?_⟩, hqk⟩
    obtain ⟨hqr, hqc⟩ := Prod.mk.inj hqk
    simp only [decide_eq_false_iff_not]
    rintro ⟨rfl, rfl⟩
    exact hnot ⟨k, hk, Prod.ext hqr.symm hqc.symm, h0⟩
  · exact .inr hlink

/-! ## Registration -/

theorem Db.AllTracked.register {db db' : Db} (h : db.AllTracked) (hi : db.Inv) {r u : Uuid}
    {d : ChunkDescriptor} {m : ObjectManifest} (hserve : db.Serves u r m)
    (hacc : (∃ x ∈ db.sessions, x.id = u ∧ x.state = .finalized) → db.Accounts u r d.id)
    (hr : registerChunk db r u d = .ok db') : db'.AllTracked := by
  have hi' := hi.register hr
  have hrows := registerChunk_rows hr
  obtain ⟨⟨C, L, rfl⟩, hg, -, hlinks, -, l, hl, hlk⟩ := registerChunk_ok hr
  obtain ⟨hlu, hlc⟩ := Prod.mk.inj hlk
  intro k hk h0
  have hmono : ∀ v, db.Queued k.repositoryId k.chunkId ∨ db.PendingBeyond v k.repositoryId k.chunkId →
      ({ db with chunks := C, sessionChunks := L } : Db).Tracked k.repositoryId k.chunkId := by
    intro v hv
    exact Db.Tracked.mono hv (fun _ h => h) hlinks (.refl v _)
  rcases hrows k hk with hold | ⟨hkey, -⟩
  · exact hmono none (h k hold h0)
  obtain ⟨hkr, hkc⟩ := Prod.mk.inj hkey
  obtain ⟨x, hx, hxid, hxr⟩ := hi'.linkSession l hl
  have hxu : x.id = u := hxid.trans hlu
  by_cases hfin : x.state = .finalized
  · rcases hacc ⟨x, hx, hxu, hfin⟩ with ⟨k₀, hk₀, hk₀key, hpos⟩ | hq
    · -- the row would be the referenced one
      obtain rfl := Table.eq_of_key (hg.keep k₀ hk₀) hk (hk₀key.trans hkey.symm)
      omega
    · rw [← hkr, ← hkc] at hq
      exact hmono (some u) hq
  · refine .inr ⟨l, hl, ⟨?_, hlc.trans hkc.symm⟩, by simp, x, hx, hxid, hfin⟩
    rw [← hxr, hkr]
    exact (hserve x hx hxu).1

/-! ## Publication -/

/-- A session links only chunks its manifest names. -/
def Db.LinksNamed (db : Db) : Prop :=
  ∀ l ∈ db.sessionChunks, ∀ x ∈ db.sessions, x.id = l.sessionId →
    ∃ d ∈ x.manifest.chunks, d.id = l.chunkId

theorem finalizeSession_keepsPending (db : Db) (u : Uuid) :
    KeepsPending (some u) db.sessions (finalizeSession db u).sessions := by
  intro x hx hne hu
  refine ⟨x, (Table.mem_updateWhere (by intro; rfl)).2 (.inl ⟨hx, ?_⟩), rfl, hne⟩
  simp only [decide_eq_false_iff_not]
  rintro rfl
  exact hu rfl

/-- Publication keeps track of the chunks its manifest does not name. -/
theorem Db.AllTracked.unnamed {db : Db} (h : db.AllTracked) (hi : db.Inv) (hn : db.LinksNamed)
    {r u : Uuid} {m : ObjectManifest} (hserve : db.Serves u r m) {k : ChunkRow} (hk : k ∈ db.chunks)
    (h0 : k.referenceCount = 0) (hfree : ∀ d ∈ m.chunks, k.key ≠ (r, d.id)) :
    db.Queued k.repositoryId k.chunkId ∨
      db.PendingBeyond (some u) k.repositoryId k.chunkId := by
  rcases h k hk h0 with hq | ⟨l, hl, ⟨hlr, hlc⟩, -, x, hx, hid, hst⟩
  · exact .inl hq
  · refine .inr ⟨l, hl, ⟨hlr, hlc⟩, ?_, x, hx, hid, hst⟩
    intro hu
    have hxu : x.id = u := hid.trans (Option.some.inj hu).symm
    obtain ⟨hxr, hxm⟩ := hserve x hx hxu
    obtain ⟨d, hd, hdc⟩ := hn l hl x hx hid
    obtain ⟨y, hy, hyid, hyr⟩ := hi.linkSession l hl
    obtain rfl := Table.eq_of_key hy hx (hyid.trans hid.symm)
    exact hfree d (hxm ▸ hd) (Prod.ext (by rw [ChunkRow.key, ← hlr, ← hyr, hxr])
      (by rw [ChunkRow.key, ← hlc, hdc]))

theorem Db.AllTracked.publish {db db' : Db} (h : db.AllTracked) (hi : db.Inv) (hn : db.LinksNamed)
    {now : Nat} {r u : Uuid} {m : ObjectManifest} {b : Bool} (hserve : db.Serves u r m)
    (hacc : db.Live now u → (∃ o ∈ db.objects, o.key = (r, m.objectOid)) →
      ∀ d ∈ m.chunks, db.Accounts u r d.id)
    (hp : publishManifest db now r u m = .ok (b, db')) : db'.AllTracked := by
  have hi' := hi.publish hp
  obtain ⟨-, x, hx, ⟨hid, -, -⟩, hcase⟩ := publishManifest_ok hp
  rcases hcase with ⟨-, -, rfl⟩ | ⟨⟨ho, hlive⟩, db₁, h₁, hcase⟩
  · exact h
  have hrows := insertChunks_rows h₁
  obtain ⟨⟨C, rfl⟩, hg, -⟩ := insertChunks_ok h₁
  rcases hcase with ⟨-, hobj, rfl⟩ | ⟨-, hnone, db₃, h₃, rfl⟩
  · -- the object is there already: nothing gets a reference
    intro k hk h0
    have helse : db.Queued k.repositoryId k.chunkId ∨
        db.PendingBeyond (some u) k.repositoryId k.chunkId := by
      by_cases hnamed : ∃ d ∈ m.chunks, k.key = (r, d.id)
      · obtain ⟨d, hd, hkey⟩ := hnamed
        obtain ⟨hkr, hkc⟩ := Prod.mk.inj hkey
        rcases hacc ⟨x, hx, hid, ho, hlive⟩ hobj d hd with ⟨k₀, hk₀, hk₀key, hpos⟩ | hq
        · obtain rfl := Table.eq_of_key (hg.keep k₀ hk₀) hk (hk₀key.trans hkey.symm)
          omega
        · rw [hkr, hkc]
          exact hq
      · have hfree : ∀ d ∈ m.chunks, k.key ≠ (r, d.id) := fun d hd e => hnamed ⟨d, hd, e⟩
        rcases hrows k hk with hk | ⟨d, hd, hkey, -⟩
        · exact h.unnamed hi hn hserve hk h0 hfree
        · exact absurd hkey (hfree d hd)
    exact Db.Tracked.mono helse (fun _ h => h) (fun _ h => h) (finalizeSession_keepsPending _ u)
  · -- the new object references every chunk of the manifest
    obtain ⟨⟨C', O, rfl⟩, hup, -, hsame⟩ := referenceChunks_ok h₃
    have hmem : (⟨r, m.objectOid, m.objectSize.toNat, m⟩ : ObjectRow) ∈
        db.objects.insert ⟨r, m.objectOid, m.objectSize.toNat, m⟩ := by
      exact Table.mem_insert.2 (.inr ⟨rfl, hnone⟩)
    intro k hk h0
    have hfree : ∀ d ∈ m.chunks, k.key ≠ (r, d.id) := by
      intro d hd hkey
      have := hi'.referenced hmem hd hk hkey
      omega
    have hold : k ∈ db.chunks := by
      obtain ⟨k₀, hk₀, hkey, -⟩ := hup.old k hk
      have hk₁ := hsame k₀ hk₀ fun d hd e => hfree d hd (hkey.trans e)
      obtain rfl : k₀ = k := Table.eq_of_key hk₁ hk hkey.symm
      rcases hrows k₀ hk₀ with hk | ⟨d, hd, hkey, -⟩
      · exact hk
      · exact absurd hkey (hfree d hd)
    have helse := h.unnamed hi hn hserve hold h0 hfree
    exact Db.Tracked.mono helse (fun _ h => h) (fun _ h => h) (finalizeSession_keepsPending _ u)

/-! ## Runs -/

section Runs

variable {ι : Type} [DecidableEq ι] {H : Hashes} {cut : Cutter} {now : Nat} {w w' : Shared}
  {q q' : Proc}

/-- A new link is one of a session that exists, to a chunk its manifest names. -/
theorem Turn.links {a : Action} (h : Turn H cut now w q a w' q') (hq : q.Serves w) :
    ∀ l ∈ w'.db.sessionChunks, l ∈ w.db.sessionChunks ∨ l.sessionId ∈ w.issued ∧
      ∃ r m, w.db.Serves l.sessionId r m ∧ ∃ d ∈ m.chunks, d.id = l.chunkId := by
  intro l hl
  cases h with
  | beginCdc _ _ hb =>
    obtain ⟨⟨S, rfl⟩, -⟩ := resumeOrCreate_ok (beginCdc_ok hb).2.2
    exact .inl hl
  | beginBasic _ _ _ _ hs =>
    obtain ⟨⟨S, rfl⟩, -⟩ := resumeOrCreate_ok hs
    exact .inl hl
  | snapshot _ _ hs =>
    obtain ⟨⟨E, R, rfl⟩, -⟩ := submitSnapshot_ok hs
    exact .inl hl
  | @reclaim _ r grace =>
    obtain ⟨S, L, Q, hS, -, hlinks, -⟩ := reclaimSessions_spec w.db w.clock r grace
    simp only [hS] at hl
    exact .inl (hlinks l hl).1
  | register _ hr =>
    obtain ⟨-, -, -, -, hnew, -⟩ := registerChunk_ok hr
    obtain ⟨hu, m, hm, hd⟩ := hq
    rcases hnew l hl with hl | ⟨rfl, -⟩
    · exact .inl hl
    · exact .inr ⟨hu, _, m, hm, _, hd, rfl⟩
  | basicRegister _ hr =>
    obtain ⟨-, -, -, -, hnew, -⟩ := registerChunk_ok hr
    obtain ⟨hu, hm, hd⟩ := hq
    rcases hnew l hl with hl | ⟨rfl, -⟩
    · exact .inl hl
    · exact .inr ⟨hu, _, _, hm, _, hd _ List.mem_cons_self, rfl⟩
  | publish _ _ hp =>
    obtain ⟨-, O, C, R, S, rfl⟩ := publishManifest_frame hp
    exact .inl hl
  | stage hs =>
    obtain ⟨⟨T, rfl⟩, -⟩ := stageTombstones_ok hs
    exact .inl hl
  | collect _ _ hc =>
    obtain ⟨⟨C, Q, rfl⟩, -⟩ := collectObject_ok hc
    exact .inl hl
  | commit hc =>
    obtain ⟨rfl, -⟩ := drainCommit_ok hc
    exact .inl hl
  | _ => exact .inl hl

theorem Db.LinksNamed.turn (hn : w.db.LinksNamed) (hi : SharedInv H w) {a : Action}
    (h : Turn H cut now w q a w' q') (hq : q.Serves w) : w'.db.LinksNamed := by
  intro l hl x' hx' hid
  -- a link is never older than its session
  have hissued : l.sessionId ∈ w.issued := by
    rcases h.links hq l hl with hold | ⟨hu, -⟩
    · obtain ⟨y, hy, hyid, -⟩ := hi.db.linkSession l hold
      exact hyid ▸ hi.issued y hy
    · exact hu
  rcases h.row x' hx' with ⟨x, hx, hf⟩ | ⟨hnew, -⟩
  · rw [hf.manifest]
    have hxid : x.id = l.sessionId := hf.id.symm.trans hid
    rcases h.links hq l hl with hold | ⟨-, r, m, hm, hd⟩
    · exact hn l hold x hx hxid
    · rw [(hm x hx hxid).2]
      exact hd
  · exact absurd (hid ▸ hissued) hnew

/-- The next step of the process leaves no chunk behind: if it registers a chunk in a
finalized session, or publishes a manifest of an object that is there already, then the chunks
concerned are accounted for by something else than the session. -/
def Proc.Accounted (H : Hashes) (w : Shared) : Proc → Prop
  | .registering r u d _ =>
    (∃ x ∈ w.db.sessions, x.id = u ∧ x.state = .finalized) → w.db.Accounts u r d.id
  | .basic r u _ (chunk :: _) =>
    (∃ x ∈ w.db.sessions, x.id = u ∧ x.state = .finalized) →
      w.db.Accounts u r chunk.descriptor.id
  | .basic r u m [] =>
    w.db.Live w.clock u → (∃ o ∈ w.db.objects, o.key = (r, m.objectOid)) →
      ∀ d ∈ m.chunks, w.db.Accounts u r d.id
  | .verifying r oid u m [] hashed =>
    H.sha256 hashed = oid → w.db.Live w.clock u →
      (∃ o ∈ w.db.objects, o.key = (r, m.objectOid)) → ∀ d ∈ m.chunks, w.db.Accounts u r d.id
  | _ => True

instance (H : Hashes) (w : Shared) : (q : Proc) → Decidable (q.Accounted H w)
  | .registering _ _ _ _ | .basic _ _ _ (_ :: _) | .basic _ _ _ [] | .verifying _ _ _ _ [] _ =>
    inferInstanceAs (Decidable (_ → _))
  | .idle | .probing _ _ _ _ _ | .storing _ _ _ | .basicStoring _ _ _ _ _
  | .verifying _ _ _ _ (_ :: _) _ | .staging _ _ _ _ | .collecting _ _ | .listing _ _
  | .draining _ _ _ | .deleting _ _ _ _ | .deleted _ _ _ _ | .done _ | .stopped =>
    inferInstanceAs (Decidable True)

/-- Every step of a run leaves no chunk behind. -/
def Accounted (H : Hashes) (s : State ι) : Label ι → Prop
  | .act p (.next .auto) => (s.procs p).Accounted H s.toShared
  | _ => True

instance (H : Hashes) (s : State ι) (l : Label ι) : Decidable (Accounted H s l) := by
  unfold Accounted
  split <;> infer_instance

/-- The only turns that can lose track of a chunk are the two `Accounted` is about. -/
theorem Db.AllTracked.turn (ht : w.db.AllTracked) (hn : w.db.LinksNamed) (hi : SharedInv H w)
    {a : Action} (hact : procAct H cut now w q a = some (w', q')) (hq : q.Serves w)
    (hg : a = .next .auto → q.Accounted H w) : w'.db.AllTracked := by
  cases procAct_turn hact with
  | beginCdc _ _ hb =>
    have hs := (beginCdc_ok hb).2.2
    have hkeep := resumeOrCreate_keepsPending hs
    obtain ⟨⟨S, rfl⟩, -⟩ := resumeOrCreate_ok hs
    exact fun k hk h0 => Db.Tracked.mono (ht k hk h0) (fun _ h => h) (fun _ h => h) hkeep
  | beginBasic _ _ _ _ hs =>
    have hkeep := resumeOrCreate_keepsPending hs
    obtain ⟨⟨S, rfl⟩, -⟩ := resumeOrCreate_ok hs
    exact fun k hk h0 => Db.Tracked.mono (ht k hk h0) (fun _ h => h) (fun _ h => h) hkeep
  | snapshot _ _ hs =>
    obtain ⟨⟨E, R, rfl⟩, -⟩ := submitSnapshot_ok hs
    exact ht
  | reclaim => exact ht.reclaim hi.db _ _ _
  | register _ hr =>
    obtain ⟨-, m, hm, -⟩ := hq
    exact ht.register hi.db hm (hg rfl) hr
  | basicRegister _ hr => exact ht.register hi.db hq.2.1 (hg rfl) hr
  | publish hpub _ hp =>
    rcases hpub with rfl | ⟨oid, hashed, rfl⟩
    · exact ht.publish hi.db hn hq.2.1 (hg rfl) hp
    · rcases procAct_hashed hact with hsame | ⟨-, hsha⟩
      · rw [hsame]
        exact ht
      · exact ht.publish hi.db hn hq.2 (hg rfl hsha) hp
  | stage hs =>
    obtain ⟨⟨T, rfl⟩, -⟩ := stageTombstones_ok hs
    exact ht
  | collect _ _ hc => exact ht.collect hc
  | dequeue _ hd => exact ht.dequeue hd
  | commit hc => exact ht.drain hc
  | _ => exact ht

theorem tracked_inv (H : Hashes) (cut : Cutter) :
    ((server H cut : LTS (State ι) (Label ι)).guard (Accounted H)).Inductive fun s =>
      ((Owned s ∧ SharedInv H s.toShared) ∧ ∀ p, (s.procs p).Serves s.toShared) ∧
        s.db.LinksNamed ∧ s.db.AllTracked := by
  apply ((serves_inv H cut).guard _).of_known
  · intro s hs
    obtain ⟨t, rfl⟩ := hs
    exact ⟨fun l hl => absurd hl (Table.not_mem_empty l), fun k hk => absurd hk (Table.not_mem_empty k)⟩
  · intro s l s' hJ hi hst
    obtain ⟨hg, hst⟩ := hst
    cases l with
    | advance δ =>
      simp only [step, server, LTS.ofFn, Option.some.injEq] at hst
      rw [← hst]
      exact hi
    | act p a =>
      obtain ⟨w, q, hact, rfl⟩ := step_act hst
      refine ⟨hi.1.turn hJ.1.2 (procAct_turn hact) (hJ.2 p), hi.2.turn hi.1 hJ.1.2 hact (hJ.2 p) ?_⟩
      rintro rfl
      exact hg

/-- **No unreferenced chunk is forgotten**, as long as no chunk is left behind: every chunk row
without references is queued, or linked by a session that is open, or expired and not yet
removed. -/
theorem chunks_tracked (H : Hashes) (cut : Cutter) (s : State ι)
    (hr : ((server H cut).guard (Accounted H)).Reachable s) :
    ∀ k ∈ s.db.chunks, k.referenceCount = 0 →
      (∃ q ∈ s.db.queue, q.key = (k.repositoryId, k.chunkId)) ∨
      ∃ l ∈ s.db.sessionChunks, (l.repositoryId = k.repositoryId ∧ l.chunkId = k.chunkId) ∧
        ∃ x ∈ s.db.sessions, x.id = l.sessionId ∧ (x.state = .opened ∨ x.state = .expired) := by
  obtain ⟨-, -, htracked⟩ := (tracked_inv H cut).reachable hr
  intro k hk h0
  rcases htracked k hk h0 with hq | ⟨l, hl, hkey, -, x, hx, hid, hst⟩
  · exact .inl hq
  · refine .inr ⟨l, hl, hkey, x, hx, hid, ?_⟩
    cases hx : x.state with
    | opened => exact .inl rfl
    | expired => exact .inr rfl
    | finalized => exact absurd hx hst

end Runs

namespace Sample

/-- Process 0 uploads byte `a` in session 7 and stops; the session runs out. It begins session 9
on the same byte, and process 1 a `PUT` in that session, which has nothing missing. Process 0
finalizes session 9, reclaims session 7, collects the object and drains the chunk. Then
process 1 registers its chunk. -/
def registeredLate : List (Label (Fin 2)) :=
  begins first 1 7 [0x61] ++ puts first 1 7 [0x61] ++ [.advance sessionLifetime] ++
    begins first 1 9 [0x61] ++
    [.act second (.start (.uploadCdcChunk 1 (hashes.sha256 [0x61]) 9 0 [0x61]))] ++
    finalizes first 1 9 [0x61] ++
    [.act first (.start (.reclaimExpiredUploads 1 0)), .act first (.next (.listing [])),
     .act first (.next .auto),
     .act first (.start (.submitSnapshot 1 "x" [] 20)),
     .act first (.start (.submitSnapshot 1 "y" [] 21)),
     .act first (.start (.stage 1 0)), .act first (.next .auto),
     .act first (.start (.collectDue 1)),
     .act first (.next (.tombstone (hashes.sha256 [0x61]))), .act first (.next .auto),
     .act first (.next (.listing [⟨1, hashes.blake3 [0x61], sessionLifetime⟩]))] ++
    run first 4 ++ run second 1

end Sample

open Sample in
/-- The chunk row has no references, the queue is empty, and the one session that links the
chunk is finalized. -/
theorem chunk_forgotten :
    ∃ s : State (Fin 2), (server hashes Sample.cut).Reachable s ∧
      ¬ ∀ k ∈ s.db.chunks, k.referenceCount = 0 →
        (∃ q ∈ s.db.queue, q.key = (k.repositoryId, k.chunkId)) ∨
        ∃ l ∈ s.db.sessionChunks, (l.repositoryId = k.repositoryId ∧ l.chunkId = k.chunkId) ∧
          ∃ x ∈ s.db.sessions, x.id = l.sessionId ∧ (x.state = .opened ∨ x.state = .expired) :=
  LTS.exists_reachable_of_exec registeredLate ⟨0, rfl⟩ (by decide +kernel)

open Sample in
/-- A chunk uploaded and not yet published is tracked by its session. -/
theorem chunks_tracked_uploaded :
    ∃ s : State (Fin 1), ((server hashes Sample.cut).guard (Accounted hashes)).Reachable s ∧
      (∃ k ∈ s.db.chunks, k.referenceCount = 0) ∧
      ∀ k ∈ s.db.chunks, k.referenceCount = 0 →
        (∃ q ∈ s.db.queue, q.key = (k.repositoryId, k.chunkId)) ∨
        ∃ l ∈ s.db.sessionChunks, (l.repositoryId = k.repositoryId ∧ l.chunkId = k.chunkId) ∧
          ∃ x ∈ s.db.sessions, x.id = l.sessionId ∧ (x.state = .opened ∨ x.state = .expired) := by
  obtain ⟨s, hs, hk⟩ : ∃ s : State (Fin 1),
      ((server hashes Sample.cut).guard (Accounted hashes)).Reachable s ∧
      ∃ k ∈ s.db.chunks, k.referenceCount = 0 :=
    LTS.exists_reachable_of_execGuard
      (uploads 0 1 8 [0x62] ++ begins 0 1 7 [0x61] ++ puts 0 1 7 [0x61]) ⟨0, rfl⟩
      (by decide +kernel)
  exact ⟨s, hs, hk, chunks_tracked hashes Sample.cut s hs⟩

end GitLfsDelta
