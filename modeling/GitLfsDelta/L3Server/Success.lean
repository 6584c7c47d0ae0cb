import GitLfsDelta.L3Server.RefCounts

/-!
# When an upload transaction succeeds

`Frames` says what a transaction that succeeded has done; here is when it does succeed,
and the parts of its outcome that only an upload without expiry or collection needs: which
sessions stay as they are, and which sizes chunk rows have.

* `resumeOrCreate_live`: `begin_cdc` finds or creates a session, if the open sessions of the
  object carry the same manifest and none of them has expired.
* `publishManifest_live`: `publish_manifest` of a valid manifest succeeds in an open,
  unexpired session; no foreign key, check or conversion stops it.
-/
namespace GitLfsDelta

/-! ## Sessions -/

/-- The open sessions of the object carry the manifest, and none is past its time. -/
def Db.AllLive (db : Db) (now : Nat) (r : Uuid) (m : ObjectManifest) : Prop :=
  ∀ x ∈ db.sessions, x.repositoryId = r → x.objectOid = m.objectOid → x.state = .opened →
    x.manifest = m ∧ now < x.expiresAt

theorem Db.AllLive.expireOpen {db : Db} {now : Nat} {r : Uuid} {m : ObjectManifest}
    (h : db.AllLive now r m) :
    db.expireOpen now (fun s => s.repositoryId = r ∧ s.objectOid = m.objectOid) = db := by
  unfold Db.expireOpen
  rw [Table.updateWhere_of_none]
  intro x hx
  simp only [decide_eq_true_eq, decide_eq_false_iff_not, not_and, not_le]
  rintro ⟨hr, ho⟩ hst
  exact (h x hx hr ho hst).2

/-- How `begin_cdc` leaves a session: as it was, or open for another 24 hours. -/
def SessionRow.Kept (now : Nat) (x x' : SessionRow) : Prop :=
  x' = x ∨ x.state = .opened ∧ x' = { x with expiresAt := now + sessionLifetime }

/-- **`begin_cdc` succeeds** when the open sessions of the object carry its manifest. The
session it answers is open; the others are as before. -/
theorem resumeOrCreate_live {db : Db} {now : Nat} {r newId : Uuid} {m : ObjectManifest}
    (hlive : db.AllLive now r m) (hsize : m.objectSize.toNat < 2 ^ 63)
    (hnew : db.sessions.get? newId = none) (e : ApiError) :
    ∃ u S, resumeOrCreate e db now r m newId = .ok (u, { db with sessions := S }) ∧
      (∀ x ∈ db.sessions, ∃ x' ∈ S, x.Kept now x') ∧
      ∀ x' ∈ S, x' ∈ db.sessions ∨ x'.manifest = m ∧ x'.expiresAt = now + sessionLifetime := by
  unfold resumeOrCreate
  simp only [hlive.expireOpen, Nat.not_le.2 hsize, if_false, bind_eq_ok, orDatabase_ok, upsertSession]
  cases hfind : db.sessions.find? fun s =>
      s.repositoryId = r ∧ s.objectOid = m.objectOid ∧ s.state = .opened with
  | some s =>
    obtain ⟨hs, hp⟩ := Table.mem_of_find? hfind
    simp only [decide_eq_true_eq] at hp
    have hm := (hlive s hs hp.1 hp.2.1 hp.2.2).1
    refine ⟨s.id, _, ⟨_, rfl, by simp [hm]; rfl⟩, fun x hx => ?_, fun x' hx' => ?_⟩
    · by_cases hid : x.id = s.id
      · obtain rfl := Table.eq_of_key hx hs hid
        exact ⟨_, (Table.mem_updateWhere (by intro; rfl)).2 (.inr ⟨x, hx, by simp, rfl⟩),
          .inr ⟨hp.2.2, rfl⟩⟩
      · exact ⟨x, (Table.mem_updateWhere (by intro; rfl)).2 (.inl ⟨hx, by simpa using hid⟩), .inl rfl⟩
    · rcases (Table.mem_updateWhere (by intro; rfl)).1 hx' with ⟨hx, -⟩ | ⟨x, hx, hid, rfl⟩
      · exact .inl hx
      · obtain rfl := Table.eq_of_key hx hs (by simpa using hid)
        exact .inr ⟨hm, rfl⟩
  | none =>
    refine ⟨newId, _, ⟨_, by simp only [hnew, ne_eq, not_true_eq_false, if_false]; rfl,
      by simp; rfl⟩, fun x hx => ⟨x, Table.mem_insert_of_mem hx, .inl rfl⟩, fun x' hx' => ?_⟩
    rcases Table.mem_insert.1 hx' with hx | ⟨rfl, -⟩
    · exact .inl hx
    · exact .inr ⟨rfl, rfl⟩

/-- A query for the session by its own columns finds it. -/
theorem find_session {db : Db} {x : SessionRow} (hx : x ∈ db.sessions) {r : Uuid} {oid : ObjectOid}
    (hr : x.repositoryId = r) (ho : x.objectOid = oid) {p : SessionRow → Prop} [DecidablePred p]
    (hp : p x) :
    db.sessions.find? (fun s => s.id = x.id ∧ s.repositoryId = r ∧ s.objectOid = oid ∧ p s) =
      some x := by
  refine Table.find?_of_key hx (by simp [hr, ho, hp]) fun y hy => ?_
  simp only [decide_eq_true_eq] at hy
  exact hy.1

theorem loadFinalizable_live {db : Db} {x : SessionRow} (hx : x ∈ db.sessions) {t : Nat}
    (hf : x.Finalizable t) :
    loadFinalizableUpload db t x.repositoryId x.objectOid x.id =
      .ok (x.manifest, x.state = .finalized) := by
  unfold loadFinalizableUpload
  rw [find_session hx rfl rfl hf]

/-! ## Chunk sizes -/

/-- Registration adds at most the row of its own chunk. -/
theorem registerChunk_rows {db db' : Db} {r u : Uuid} {d : ChunkDescriptor}
    (h : registerChunk db r u d = .ok db') :
    ∀ k ∈ db'.chunks, k ∈ db.chunks ∨ k.key = (r, d.id) ∧ k.size = d.length.toNat := by
  unfold registerChunk at h
  rw [bind_eq_ok] at h
  obtain ⟨db₁, h₁, h₂⟩ := h
  rw [orDatabase_ok] at h₂
  obtain ⟨⟨L, rfl⟩, -⟩ := linkSessionChunk_ok h₂
  intro k hk
  unfold upsertChunk at h₁
  split at h₁
  · rw [orDatabase_ok] at h₁
    obtain ⟨rfl, -⟩ := insertChunk_ok h₁
    rcases Table.mem_insert.1 hk with hk | ⟨rfl, -⟩
    · exact .inl hk
    · exact .inr ⟨rfl, rfl⟩
  · split at h₁
    · cases h₁; exact .inl hk
    · cases h₁

theorem insertChunks_rows {r : Uuid} : ∀ {ds : List ChunkDescriptor} {db db' : Db},
    insertChunks r ds db = .ok db' →
    ∀ k ∈ db'.chunks, k ∈ db.chunks ∨ ∃ d ∈ ds, k.key = (r, d.id) ∧ k.size = d.length.toNat
  | [], db, db', h => by cases h; exact fun k hk => .inl hk
  | d :: ds, db, db', h => by
    unfold insertChunks at h
    rw [bind_eq_ok] at h
    obtain ⟨db₁, h₁, h₂⟩ := h
    obtain ⟨rfl, -⟩ := insertChunk_ok h₁
    intro k hk
    rcases insertChunks_rows h₂ k hk with hk | ⟨d', hd', hkey⟩
    · rcases Table.mem_insert.1 hk with hk | ⟨rfl, -⟩
      · exact .inl hk
      · exact .inr ⟨d, List.mem_cons_self, rfl, rfl⟩
    · exact .inr ⟨d', List.mem_cons_of_mem _ hd', hkey⟩

/-- Publication gives chunk rows the sizes of the manifest, or leaves them. -/
theorem publishManifest_sizes {db db' : Db} {now : Nat} {r u : Uuid} {m : ObjectManifest} {b : Bool}
    (h : publishManifest db now r u m = .ok (b, db')) :
    ∀ k' ∈ db'.chunks, (∃ k ∈ db.chunks, k'.key = k.key ∧ k'.size = k.size) ∨
      ∃ d ∈ m.chunks, k'.key = (r, d.id) ∧ k'.size = d.length.toNat := by
  obtain ⟨-, s, -, -, hcase⟩ := publishManifest_ok h
  rcases hcase with ⟨-, -, rfl⟩ | ⟨-, db₁, h₁, hcase⟩
  · exact fun k hk => .inl ⟨k, hk, rfl, rfl⟩
  have hrows : ∀ k ∈ db₁.chunks, (∃ k₀ ∈ db.chunks, k.key = k₀.key ∧ k.size = k₀.size) ∨
      ∃ d ∈ m.chunks, k.key = (r, d.id) ∧ k.size = d.length.toNat := by
    intro k hk
    rcases insertChunks_rows h₁ k hk with hk | hd
    · exact .inl ⟨k, hk, rfl, rfl⟩
    · exact .inr hd
  rcases hcase with ⟨-, -, rfl⟩ | ⟨-, -, db₃, h₃, rfl⟩
  · exact hrows
  · intro k' hk'
    obtain ⟨-, hup, -⟩ := referenceChunks_ok h₃
    obtain ⟨k, hk, hkey, hsize⟩ := hup.old k' hk'
    rw [hkey, hsize]
    exact hrows k hk

/-! ## Publication -/

theorem insertChunks_total {r : Uuid} : ∀ {ds : List ChunkDescriptor} (db : Db),
    (∀ d ∈ ds, 0 < d.length.toNat) → ∃ db', insertChunks r ds db = .ok db'
  | [], db, _ => ⟨db, rfl⟩
  | d :: ds, db, h => by
    have hpos := h d List.mem_cons_self
    unfold insertChunks
    simp only [Db.insertChunk, Nat.ne_of_gt hpos, if_false]
    exact insertChunks_total _ fun x hx => h x (List.mem_cons_of_mem _ hx)

/-- The loop over the chunks of a new object succeeds: the conversions fit, the ordinals
are free and the foreign keys find their rows. -/
theorem referenceChunks_total {r : Uuid} {oid : ObjectOid} : ∀ {ds : List ChunkDescriptor} {n : Nat}
    {db : Db}, n + ds.length ≤ 2 ^ 31 →
    (∀ d ∈ ds, 0 < d.length.toNat ∧ d.length.toNat < 2 ^ 31 ∧ d.offset.toNat < 2 ^ 63) →
    (∀ row ∈ db.objectChunks, row.repositoryId = r → row.objectOid = oid → row.ordinal < n) →
    (∃ o ∈ db.objects, o.key = (r, oid)) → (∀ d ∈ ds, ∃ k ∈ db.chunks, k.key = (r, d.id)) →
    ∃ db', referenceChunks r oid n ds db = .ok db'
  | [], n, db, _, _, _, _, _ => ⟨db, rfl⟩
  | d :: ds, n, db, hn, hd, hfree, hobj, hchunk => by
    obtain ⟨hpos, hlen, hoff⟩ := hd d List.mem_cons_self
    rw [List.length_cons] at hn
    have hkey : db.objectChunks.get? (objectChunkRow r oid n d).key = none := by
      refine Table.get?_none.2 fun row hrow hk => ?_
      simp only [ObjectChunkRow.key, objectChunkRow, Prod.mk.injEq] at hk
      have := hfree row hrow hk.1 hk.2.1
      omega
    obtain ⟨o, ho⟩ : ∃ o, db.objects.get? (r, oid) = some o := by
      obtain ⟨o, ho, hk⟩ := hobj
      exact ⟨o, Table.get?_some.2 ⟨ho, hk⟩⟩
    obtain ⟨k, hk⟩ : ∃ k, db.chunks.get? (r, d.id) = some k := by
      obtain ⟨k, hk, hkk⟩ := hchunk d List.mem_cons_self
      exact ⟨k, Table.get?_some.2 ⟨hk, hkk⟩⟩
    have hinsert : db.insertObjectChunk (objectChunkRow r oid n d) =
        .ok { db with objectChunks := db.objectChunks.insert (objectChunkRow r oid n d) } := by
      unfold Db.insertObjectChunk
      rw [if_neg (by simp only [objectChunkRow]; omega), if_neg (by simp [hkey]),
        if_neg (by simp [objectChunkRow, ho, hk])]
    unfold referenceChunks
    rw [if_neg (by omega), hinsert]
    refine referenceChunks_total (by omega) (fun x hx => hd x (List.mem_cons_of_mem _ hx))
      (fun row hrow hr ho => ?_) hobj fun x hx => ?_
    · rcases Table.mem_insert.1 hrow with hrow | ⟨rfl, -⟩
      · have := hfree row hrow hr ho
        omega
      · exact Nat.lt_succ_self n
    · obtain ⟨y, hy, hyk⟩ := hchunk x (List.mem_cons_of_mem _ hx)
      obtain ⟨y', hy', hyk', -⟩ := (addReference_updated db r d.id).keep y hy
      exact ⟨y', hy', hyk'.trans hyk⟩

/-- The session is finalized, the others stay. -/
theorem finalizeSession_rows (db : Db) (u : Uuid) :
    (∀ y ∈ db.sessions, (if y.id = u then { y with state := .finalized } else y) ∈
      (finalizeSession db u).sessions) ∧
    ∀ y' ∈ (finalizeSession db u).sessions, y'.state = .opened → y' ∈ db.sessions := by
  constructor
  · intro y hy
    apply (Table.mem_updateWhere (by intro; rfl)).2
    by_cases hid : y.id = u
    · rw [if_pos hid]; exact .inr ⟨y, hy, by simpa using hid, rfl⟩
    · rw [if_neg hid]; exact .inl ⟨hy, by simpa using hid⟩
  · intro y' hy' hst
    rcases (Table.mem_updateWhere (by intro; rfl)).1 hy' with ⟨hy, -⟩ | ⟨y, -, -, rfl⟩
    · exact hy
    · cases hst

/-- An object that is not published has no `object_chunks` rows. -/
theorem Db.Inv.unpublished {db : Db} (h : db.Inv) {r : Uuid} {oid : ObjectOid}
    (hnone : db.objects.get? (r, oid) = none) :
    ∀ row ∈ db.objectChunks, row.repositoryId = r → row.objectOid ≠ oid := by
  rintro row hrow rfl rfl
  obtain ⟨o, ho, hmem⟩ := (h.rows row).1 hrow
  obtain ⟨i, d, -, rfl⟩ := mem_chunkRows.1 hmem
  exact Table.get?_none.1 hnone o ho rfl

/-- **`publish_manifest` succeeds** on a valid manifest in an open, unexpired session. It
finalizes the session and inserts the object's row unless there is one. -/
theorem publishManifest_live {db : Db} (hi : db.Inv) {x : SessionRow} (hx : x ∈ db.sessions)
    {now : Nat} (ho : x.state = .opened) (hu : now < x.expiresAt) {m : ObjectManifest}
    (hoid : x.objectOid = m.objectOid) (hv : m.validate = .ok ()) :
    ∃ b db', publishManifest db now x.repositoryId x.id m = .ok (b, db') ∧
      ((∀ y ∈ db.sessions, (if y.id = x.id then { y with state := .finalized } else y) ∈ db'.sessions) ∧
        ∀ y' ∈ db'.sessions, y'.state = .opened → y' ∈ db.sessions) ∧
      db'.objects = db.objects.insert ⟨x.repositoryId, m.objectOid, m.objectSize.toNat, m⟩ := by
  obtain ⟨-, hmax, hcount, hall⟩ := validate_ok hv
  have hfind := find_session hx rfl hoid (p := (·.Finalizable now)) (.inl ⟨ho, hu⟩)
  have hsize : ¬ 2 ^ 63 ≤ m.objectSize.toNat := by simp only [maxObjectSize] at hmax; omega
  obtain ⟨db₁, h₁⟩ := insertChunks_total (r := x.repositoryId) db fun d hd => (hall d hd).1
  obtain ⟨⟨C, rfl⟩, -, hrows⟩ := insertChunks_ok h₁
  unfold publishManifest
  simp only [hv, hfind, ho, publishOpen, h₁, orDatabase, bind, Except.bind, if_neg hsize]
  cases hget : db.objects.get? (x.repositoryId, m.objectOid) with
  | none =>
    obtain ⟨db₃, h₃⟩ : ∃ db₃, referenceChunks x.repositoryId m.objectOid 0 m.chunks { db with
        chunks := C
        objects := db.objects.insert ⟨x.repositoryId, m.objectOid, m.objectSize.toNat, m⟩ } =
          .ok db₃ := by
      refine referenceChunks_total ?_ (fun d hd => ?_)
        (fun row hrow hr ho => absurd ho (hi.unpublished hget row hrow hr))
        (Table.exists_mem_insert _ _) hrows
      · simp only [maxChunkDescriptors] at hcount; omega
      · obtain ⟨hpos, hlen, hoff⟩ := hall d hd
        have : m.profile.sizes.2.2 = 8 * 1024 * 1024 := by cases m.profile; rfl
        omega
    obtain ⟨⟨C', O, rfl⟩, -⟩ := referenceChunks_ok h₃
    simp only [if_true, h₃]
    exact ⟨_, _, rfl, finalizeSession_rows _ x.id, rfl⟩
  | some o =>
    simp only [reduceCtorEq, if_false]
    refine ⟨_, _, rfl, finalizeSession_rows _ x.id, ?_⟩
    exact (Table.insert_of_some hget).symm

/-- The first publication of an object: what becomes of its tables. -/
theorem publishManifest_first {db db' : Db} {now : Nat} {x : SessionRow} (hx : x ∈ db.sessions)
    (ho : x.state = .opened) {m : ObjectManifest} {b : Bool}
    (hnone : db.objects.get? (x.repositoryId, m.objectOid) = none)
    (h : publishManifest db now x.repositoryId x.id m = .ok (b, db')) :
    b = true ∧ db'.objects = db.objects.insert ⟨x.repositoryId, m.objectOid, m.objectSize.toNat, m⟩ ∧
      db'.sessions = (finalizeSession db x.id).sessions ∧
      ∀ k ∈ db.chunks, ∃ k' ∈ db'.chunks, k'.key = k.key ∧ k'.size = k.size := by
  obtain ⟨-, s, hs, ⟨hid, -⟩, hcase⟩ := publishManifest_ok h
  obtain rfl := Table.eq_of_key hs hx hid
  rcases hcase with ⟨hf, -⟩ | ⟨-, db₁, h₁, ⟨-, ⟨o, ho', hk⟩, -⟩ | ⟨rfl, -, db₃, h₃, rfl⟩⟩
  · rw [ho] at hf; cases hf
  · exact absurd hk (Table.get?_none.1 hnone o ho')
  · obtain ⟨⟨C, rfl⟩, hgrow, -⟩ := insertChunks_ok h₁
    obtain ⟨⟨C', O, rfl⟩, hup, -⟩ := referenceChunks_ok h₃
    exact ⟨rfl, rfl, rfl, fun k hk => hup.keep k (hgrow.keep k hk)⟩

/-- In a finalized session nothing is left to do. -/
theorem publishManifest_finalized {db : Db} {x : SessionRow} (hx : x ∈ db.sessions) (now : Nat)
    (hf : x.state = .finalized) {m : ObjectManifest} (hoid : x.objectOid = m.objectOid)
    (hv : m.validate = .ok ()) :
    publishManifest db now x.repositoryId x.id m = .ok (false, db) := by
  unfold publishManifest
  simp only [hv, find_session hx rfl hoid (p := (·.Finalizable now)) (.inr hf), hf]

end GitLfsDelta
