import Mathlib.Data.Fintype.Basic
import GitLfsDelta.L4System.Registration

/-!
# Published objects stay reconstructible

`finalize_cdc` reads and verifies every chunk first and publishes in a later transaction.
In between only `upload_session_chunks` and `reference_count` hold a chunk alive, and a
chunk that the client was told not to upload has neither from this session. A drain may
then delete it after it was verified.

* `published_reconstructible`: in every run where that does not happen (`SparesVerified`),
  the store holds every chunk of every published manifest, with its identity and length.
* `published_lost`: a run where it happens; the object is published without its bytes.

The proof gives every process an assumption about the shared state (`Proc.Ok`) that its
own steps establish and no other step breaks: `upload_basic` links a chunk before it puts
it, so its chunks are held by the session's links; `finalize_cdc` has no such hold, which
is where the condition comes in.
-/
namespace GitLfsDelta

/-- The store holds bytes of the descriptor's length under its key. -/
def Holds (store : Store) (r : Uuid) (d : ChunkDescriptor) : Prop :=
  ∃ b, store r d.id = some b ∧ b.length = d.length.toNat

theorem Holds.mono {store store' : Store} {r : Uuid} {d : ChunkDescriptor}
    (hm : ∀ r c b, store r c = some b → store' r c = some b) (h : Holds store r d) :
    Holds store' r d := by
  obtain ⟨b, hb, hlen⟩ := h
  exact ⟨b, hm _ _ _ hb, hlen⟩

theorem Holds.erase {store : Store} {r r₁ : Uuid} {c₁ : ChunkId} {d : ChunkDescriptor}
    (h : Holds store r d) (hne : ¬ (r = r₁ ∧ d.id = c₁)) : Holds (deleteChunk store r₁ c₁) r d := by
  obtain ⟨b, hb, hlen⟩ := h
  exact ⟨b, erase_some.2 ⟨hb, hne⟩, hlen⟩

/-- Session `u` has uploaded the chunk. -/
def Db.LinkedBy (db : Db) (u r : Uuid) (c : ChunkId) : Prop :=
  ∃ l ∈ db.sessionChunks, l.sessionId = u ∧ l.repositoryId = r ∧ l.chunkId = c

theorem Db.LinkedBy.active {db : Db} {u r : Uuid} {c : ChunkId} (h : db.LinkedBy u r c)
    (ho : db.Open u) : db.ActivelyLinked r c := by
  obtain ⟨l, hl, rfl, rfl, rfl⟩ := h
  obtain ⟨x, hx, hid, hxo⟩ := ho
  exact ⟨l, hl, ⟨rfl, rfl⟩, x, hx, hid, hxo⟩

/-- Every session with this id, if there is one, belongs to the repository. -/
def Db.SessionIn (db : Db) (u r : Uuid) : Prop := ∀ x ∈ db.sessions, x.id = u → x.repositoryId = r

/-! ## What a process relies on -/

/-- `upload_basic` with the descriptors `pre` behind it. -/
structure BasicOk (w : Shared) (r u : Uuid) (m : ObjectManifest) (pre : List ChunkDescriptor)
    (todo : List Chunk) : Prop where
  issued : u ∈ w.issued
  session : w.db.SessionIn u r
  split : m.chunks = pre ++ todo.map (·.descriptor)
  held : w.db.Open u → ∀ d ∈ pre, w.db.LinkedBy u r d.id ∧ Holds w.store r d

/-- What a process may assume whenever it is its turn. -/
def Proc.Ok (w : Shared) : Proc → Prop
  | .basic r u m todo => ∃ pre, BasicOk w r u m pre todo
  | .basicStoring r u m chunk todo => ∃ pre, BasicOk w r u m pre (chunk :: todo) ∧
      (w.db.Open u → w.db.LinkedBy u r chunk.descriptor.id)
  | .verifying r _ u m todo _ => u ∈ w.issued ∧ ∃ pre, m.chunks = pre ++ todo ∧
      (w.db.Live w.clock u → ∀ d ∈ pre, Holds w.store r d)
  | _ => True

/-- A `finalize_cdc` in progress on a live session has verified the chunk. -/
def Proc.HasVerified (db : Db) (clock : Nat) (r : Uuid) (c : ChunkId) : Proc → Prop
  | .verifying r' _ u m todo _ => r' = r ∧ db.Live clock u ∧
      ∃ d ∈ m.chunks.take (m.chunks.length - todo.length), d.id = c
  | _ => False

instance (db : Db) (clock : Nat) (r : Uuid) (c : ChunkId) (q : Proc) :
    Decidable (q.HasVerified db clock r c) :=
  decidable_of_iff
    ((match q with
      | .verifying r' _ u m todo _ => r' = r ∧ db.Live clock u ∧
          ∃ d ∈ m.chunks.take (m.chunks.length - todo.length), d.id = c
      | _ => false) = true)
    (by cases q <;> simp [Proc.HasVerified])

variable {ι : Type} [DecidableEq ι]

/-- The step is not the deletion, by a drain, of a chunk that a `finalize_cdc` in progress
on an open and unexpired session has verified. -/
def SparesVerified (s : State ι) : Label ι → Prop
  | .act p (.next .auto) =>
    match s.procs p with
    | .deleting r c _ _ => ∀ p', ¬ (s.procs p').HasVerified s.db s.clock r c
    | _ => True
  | _ => True

instance [Fintype ι] (s : State ι) (l : Label ι) : Decidable (SparesVerified s l) :=
  decidable_of_iff
    ((match l with
      | .act p (.next .auto) =>
        match s.procs p with
        | .deleting r c _ _ => ∀ p', ¬ (s.procs p').HasVerified s.db s.clock r c
        | _ => true
      | _ => true) = true)
    (by
      unfold SparesVerified
      split
      · split
        · exact decide_eq_true_iff
        · simp
      · simp)

/-! ## Interference -/

variable {H : Hashes} {cut : Cutter} {B : List Bytes} {now : Nat} {w w' : Shared} {q q' : Proc}

theorem Effect.sessionIn (h : Effect H w w') {u r : Uuid} (hu : u ∈ w.issued)
    (hs : w.db.SessionIn u r) : w'.db.SessionIn u r := by
  intro x' hx' hid
  rcases h.sessions x' hx' with ⟨x, hx, ha⟩ | ⟨hn, -⟩
  · rw [ha.repositoryId_eq]; exact hs x hx (ha.id_eq.symm.trans hid)
  · exact absurd (hid ▸ hu) hn

theorem Effect.linkedBy (h : Effect H w w') {u r : Uuid} {c : ChunkId} (hl : w.db.LinkedBy u r c)
    (ho : w'.db.Open u) : w'.db.LinkedBy u r c := by
  obtain ⟨l, hlm, rfl, rfl, rfl⟩ := hl
  obtain ⟨x, hx, hid, -⟩ := ho
  exact ⟨l, h.links_kept l hlm ⟨x, hx, hid⟩, rfl, rfl, rfl⟩

/-- A step of another process that deletes nothing keeps a process's assumption. -/
theorem BasicOk.stable {r u : Uuid} {m : ObjectManifest} {pre : List ChunkDescriptor}
    {todo : List Chunk} (h : BasicOk w r u m pre todo) (he : Effect H w w')
    (hm : ∀ r c b, w.store r c = some b → w'.store r c = some b) :
    BasicOk w' r u m pre todo where
  issued := he.issued_mono h.issued
  session := he.sessionIn h.issued h.session
  split := h.split
  held ho d hd := by
    have ho' := (he.isOpen ho).resolve_right (not_not_intro h.issued)
    obtain ⟨hl, hh⟩ := h.held ho' d hd
    exact ⟨he.linkedBy hl ho, hh.mono hm⟩

theorem Proc.Ok.stable (h : q.Ok w) (he : Effect H w w')
    (hm : ∀ r c b, w.store r c = some b → w'.store r c = some b) : q.Ok w' := by
  cases q with
  | basic r u m todo =>
    obtain ⟨pre, hb⟩ := h
    exact ⟨pre, hb.stable he hm⟩
  | basicStoring r u m chunk todo =>
    obtain ⟨pre, hb, hl⟩ := h
    refine ⟨pre, hb.stable he hm, fun ho => ?_⟩
    exact he.linkedBy (hl ((he.isOpen ho).resolve_right (not_not_intro hb.issued))) ho
  | verifying r oid u m todo hashed =>
    obtain ⟨hu, pre, hsplit, hheld⟩ := h
    refine ⟨he.issued_mono hu, pre, hsplit, fun hl d hd => ?_⟩
    exact (hheld ((he.live hl).resolve_right (not_not_intro hu)) d hd).mono hm
  | _ => exact h

/-- A drain's deletion keeps the assumption: linked chunks are not locked, and verified
ones are spared. -/
theorem Proc.Ok.erase (h : q.Ok w) (hi : SharedInv H w) {r₁ : Uuid} {c₁ : ChunkId}
    (hlock : (r₁, c₁) ∈ w.locks) (hspare : ¬ q.HasVerified w.db w.clock r₁ c₁) :
    q.Ok { w with store := deleteChunk w.store r₁ c₁ } := by
  have hbasic : ∀ {r u : Uuid} {m : ObjectManifest} {pre : List ChunkDescriptor} {todo : List Chunk},
      BasicOk w r u m pre todo →
      BasicOk { w with store := deleteChunk w.store r₁ c₁ } r u m pre todo := by
    intro r u m pre todo hb
    refine ⟨hb.issued, hb.session, hb.split, fun ho d hd => ?_⟩
    obtain ⟨hl, hh⟩ := hb.held ho d hd
    refine ⟨hl, hh.erase ?_⟩
    intro hs
    obtain ⟨rfl, rfl⟩ := hs
    exact (hi.locked _ _ hlock).2 (hl.active ho)
  cases q with
  | basic r u m todo =>
    obtain ⟨pre, hb⟩ := h
    exact ⟨pre, hbasic hb⟩
  | basicStoring r u m chunk todo =>
    obtain ⟨pre, hb, hl⟩ := h
    exact ⟨pre, hbasic hb, hl⟩
  | verifying r oid u m todo hashed =>
    obtain ⟨hu, pre, hsplit, hheld⟩ := h
    refine ⟨hu, pre, hsplit, fun hl d hd => (hheld hl d hd).erase ?_⟩
    intro hs
    obtain ⟨rfl, rfl⟩ := hs
    refine hspare ⟨rfl, hl, d, ?_, rfl⟩
    have : m.chunks.length - todo.length = pre.length := by rw [hsplit, List.length_append]; omega
    rw [this, hsplit, List.take_left]
    exact hd
  | _ => exact h

/-! ## A process's own steps -/

theorem faithful_holds {store : Store} {r : Uuid} {k : Chunk} (hok : StoreOk H store)
    (hB : H.CollisionFree {b | b ∈ B}) (hst : ∀ r c b, store r c = some b → b ∈ B)
    (hk : k.Faithful H) (hkB : k.data ∈ B) :
    Holds (store.create r k.descriptor.id k.data) r k.descriptor := by
  obtain ⟨b, hb, hcase⟩ := create_self store r k.descriptor.id k.data
  refine ⟨b, hb, ?_⟩
  rcases hcase with hold | ⟨-, rfl⟩
  · -- what is stored there has the same identity, hence is the same bytes
    have : b = k.data := hB (hst _ _ _ hold) hkB ((hok _ _ _ hold).trans hk.1.symm)
    rw [this]; exact hk.2
  · exact hk.2

/-- The session a first step works in is issued and belongs to the repository. -/
theorem sessionIn_of_mem {db : Db} {x : SessionRow} (hx : x ∈ db.sessions) :
    db.SessionIn x.id x.repositoryId := by
  intro y hy hid
  rw [Table.eq_of_key hy hx hid]

theorem loadFinalizable_mem {db : Db} {t : Nat} {r u : Uuid} {oid : ObjectOid} {m : ObjectManifest}
    {b : Bool} (h : loadFinalizableUpload db t r oid u = .ok (m, b)) :
    ∃ x ∈ db.sessions, x.id = u ∧ x.repositoryId = r ∧ x.manifest = m := by
  unfold loadFinalizableUpload at h
  split at h; · cases h
  rename_i x hx
  cases h
  obtain ⟨hm, hp⟩ := Table.mem_of_find? hx
  simp only [decide_eq_true_eq] at hp
  exact ⟨x, hm, hp.1, hp.2.1, rfl⟩

/-- **A turn establishes the assumption of the process it leaves.** -/
theorem Turn.ok {a : Action} (h : Turn H cut now w q a w' q') (hi : SharedInv H w)
    (hi' : SharedInv H w') (he : Effect H w w') (hB : H.CollisionFree {b | b ∈ B})
    (hst : ∀ r c b, w.store r c = some b → b ∈ B) (hcar : q.Carries H B) (hq : q.Ok w) :
    q'.Ok w' := by
  cases h with
  | @beginBasic _ r oid body newId chunks m u db _ hid hc _ hs =>
    obtain ⟨-, hds, -⟩ := chunkObject_spec hc
    obtain ⟨-, -, -, x, hx, rfl, rfl, -⟩ := resumeOrCreate_ok hs
    exact ⟨[], hi'.issued x hx, sessionIn_of_mem hx, by simpa using hds,
      fun _ d hd => absurd hd List.not_mem_nil⟩
  | @beginFinalize _ r oid u m _ hl =>
    obtain ⟨x, hx, rfl, -⟩ := loadFinalizable_mem hl
    exact ⟨hi.issued x hx, [], rfl, fun _ d hd => absurd hd List.not_mem_nil⟩
  | @basicRegister r u m chunk todo db _ hr =>
    obtain ⟨pre, hb⟩ := hq
    have hb' := hb.stable he fun _ _ _ hb => hb
    refine ⟨pre, hb', fun _ => ?_⟩
    -- the link belongs to the session, hence to its repository
    obtain ⟨-, -, -, -, -, l, hl, hkey⟩ := registerChunk_ok hr
    obtain ⟨hlu, hlc⟩ := Prod.mk.inj hkey
    obtain ⟨x, hx, hid, hxr⟩ := hi'.db.linkSession l hl
    exact ⟨l, hl, hlu, hxr.symm.trans (hb'.session x hx (hid.trans hlu)), hlc⟩
  | @basicPut r u m chunk todo store hp =>
    obtain ⟨pre, hb, hl⟩ := hq
    obtain ⟨-, rfl⟩ := putVerified_ok.1 hp
    have hmono : ∀ r' c b, w.store r' c = some b →
        w.store.create r chunk.descriptor.id chunk.data r' c = some b := fun _ _ _ => create_of_some
    obtain ⟨hfaith, hdata⟩ := hcar chunk List.mem_cons_self
    refine ⟨pre ++ [chunk.descriptor], hb.issued, hb.session, ?_, fun ho d hd => ?_⟩
    · simpa using hb.split
    · rcases List.mem_append.1 hd with hd | hd
      · obtain ⟨hlk, hh⟩ := hb.held ho d hd
        exact ⟨hlk, hh.mono hmono⟩
      · rw [List.mem_singleton] at hd
        subst hd
        exact ⟨hl ho, faithful_holds hi.store hB hst hfaith hdata⟩
  | verify hv =>
    obtain ⟨hu, pre, hsplit, hheld⟩ := hq
    refine ⟨hu, pre ++ [_], by simpa using hsplit, fun hl d hd => ?_⟩
    rcases List.mem_append.1 hd with hd | hd
    · exact hheld hl d hd
    · rw [List.mem_singleton] at hd
      subst hd
      obtain ⟨hb, -, hlen⟩ := verifyChunk_ok hv
      exact ⟨_, hb, hlen⟩
  | _ => trivial

/-- What publication needs of the process that publishes. -/
theorem Proc.Ok.publishes {r u : Uuid} {m : ObjectManifest} (hq : q.Publishes r u m)
    (h : q.Ok w) (hl : w.db.Live w.clock u) : ∀ d ∈ m.chunks, Holds w.store r d := by
  intro d hd
  rcases hq with rfl | ⟨oid, hashed, rfl⟩
  · obtain ⟨pre, hb⟩ := h
    rw [hb.split] at hd
    exact (hb.held hl.isOpen d (by simpa using hd)).2
  · obtain ⟨-, pre, hsplit, hheld⟩ := h
    rw [hsplit] at hd
    exact hheld hl d (by simpa using hd)

/-! ## Published objects -/

/-- A new object is one that `upload_basic` or `finalize_cdc` publishes on a live session. -/
theorem Turn.objects_added {a : Action} (h : Turn H cut now w q a w' q') : ∀ o ∈ w'.db.objects,
    o ∈ w.db.objects ∨ ∃ r u m, q.Publishes r u m ∧
      o = ⟨r, m.objectOid, m.objectSize.toNat, m⟩ ∧ w.db.Live w.clock u ∧ w'.store = w.store := by
  intro o ho
  rcases h.objects with hsame | ⟨r, u, m, b, hq, hp, hst⟩ | ⟨r, oid, -, hdel⟩
  · exact .inl (hsame ▸ ho)
  · rcases (publishManifest_objects hp).2 o ho with ho | ⟨rfl, -, hl⟩
    · exact .inl ho
    · exact .inr ⟨r, u, m, hq, rfl, hl, hst⟩
  · rw [hdel] at ho
    exact .inl (Table.mem_deleteWhere.1 ho).1

structure PublishInv (s : State ι) : Prop where
  procs : ∀ p, (s.procs p).Ok s.toShared
  objects : ∀ o ∈ s.db.objects, ∀ d ∈ o.manifest.chunks, Holds s.store o.repositoryId d

/-- A locked chunk belongs to no published manifest. -/
theorem locked_not_published (hi : SharedInv H w) {r : Uuid} {c : ChunkId} (hl : (r, c) ∈ w.locks)
    {o : ObjectRow} (ho : o ∈ w.db.objects) {d : ChunkDescriptor} (hd : d ∈ o.manifest.chunks) :
    ¬ (o.repositoryId = r ∧ d.id = c) := by
  intro h
  obtain ⟨rfl, rfl⟩ := h
  obtain ⟨⟨k, hk, hkey, h0⟩, -⟩ := hi.locked _ _ hl
  have := hi.db.referenced ho hd hk hkey
  omega

theorem publishInv_step {s s' : State ι} {l : Label ι} (hown : Owned s)
    (hi : SharedInv H s.toShared) (hst : StoredIn H B s) (hB : H.CollisionFree {b | b ∈ B})
    (hp : PublishInv s) (hg : SparesVerified s l) (h : step H cut s l = some s') :
    PublishInv s' := by
  have he := step_effect hown h
  have hi' := he.sharedInv hi
  rcases step_cases h with ⟨δ, -, rfl⟩ | ⟨p, a, w, q, rfl, ht, rfl⟩
  · exact ⟨fun p => (hp.procs p).stable he fun _ _ _ hb => hb, hp.objects⟩
  have hown' := ht.ok hi hi' he hB hst.stored (hst.carries p) (hp.procs p)
  rcases ht.store with hmono | ⟨r₁, c₁, todo, n, hq, rfl, rfl⟩
  · refine ⟨fun p' => ?_, fun o ho d hd => ?_⟩
    · rw [move_procs]; split
      · exact hown'
      · exact (hp.procs p').stable he hmono
    · rcases ht.objects_added o ho with ho | ⟨r, u, m, hq, rfl, hl, hsame⟩
      · exact (hp.objects o ho d hd).mono hmono
      · rw [move_toShared, hsame]
        exact (hp.procs p).publishes hq hl d hd
  · -- the drain deletes the bytes under its lock
    have hlock : (r₁, c₁) ∈ s.locks := hown.holds p _ (by rw [hq]; rfl)
    simp only [SparesVerified, hq] at hg
    refine ⟨fun p' => ?_, fun o ho d hd => ?_⟩
    · rw [move_procs]; split
      · exact hown'
      · exact (hp.procs p').erase hi hlock (hg p')
    · exact (hp.objects o ho d hd).erase (locked_not_published hi hlock ho hd)

/-- **Published objects stay reconstructible, where verified chunks are spared.** Along
every run in which no drain deletes a chunk that a `finalize_cdc` in progress on a live
session has verified, and BLAKE3 has no collision among the uploaded bytes `B`: the store
holds, for every descriptor of every published manifest, bytes with its identity and
length. -/
theorem published_reconstructible (H : Hashes) (cut : Cutter) (B : List Bytes)
    (hB : H.CollisionFree {b | b ∈ B}) (s : State ι)
    (hr : ((server H cut).guard fun s l => l.UploadsIn H cut B ∧ SparesVerified s l).Reachable s) :
    ∀ o ∈ s.db.objects, ∀ d ∈ o.manifest.chunks,
      ∃ b, s.store o.repositoryId d.id = some b ∧ H.blake3 b = d.id ∧ b.length = d.length.toNat := by
  have hinv : ((server H cut).guard fun s l => l.UploadsIn H cut B ∧ SparesVerified s l).Inductive
      fun s : State ι => (Owned s ∧ SharedInv H s.toShared) ∧ StoredIn H B s ∧ PublishInv s := by
    refine ((server_inv H cut).guard _).of_known ?_ fun s l s' hJ hi hst => ?_
    · intro s h
      obtain ⟨t, rfl⟩ := h
      exact ⟨.initial H B t, fun _ => trivial, fun o ho => absurd ho (Table.not_mem_empty o)⟩
    · exact ⟨hi.1.step hst.1.1 hst.2, publishInv_step hJ.1 hJ.2 hi.1 hB hi.2 hst.1.2 hst.2⟩
  obtain ⟨⟨-, hi⟩, -, hp⟩ := hinv.reachable hr
  intro o ho d hd
  obtain ⟨b, hb, hlen⟩ := hp.objects o ho d hd
  exact ⟨b, hb, hi.store _ _ _ hb, hlen⟩

namespace Sample

/-- Process 0 uploads byte `a` in session 7 and stops; the session runs out. Process 1
begins session 9 on the same byte, has nothing to upload and starts to finalize: it has
verified the chunk. Process 0 reclaims session 7 and drains the chunk; process 1
publishes. -/
def verifiedThenDrained : List (Label (Fin 2)) :=
  begins first 1 7 [0x61] ++ puts first 1 7 [0x61] ++ [.advance sessionLifetime] ++
    begins second 1 9 [0x61] ++
    [.act second (.start (.finalizeCdc 1 (hashes.sha256 [0x61]) 9)), .act second (.next .auto),
     .act first (.start (.reclaimExpiredUploads 1 0)),
     .act first (.next (.listing [⟨1, hashes.blake3 [0x61], sessionLifetime⟩]))] ++
    run first 3 ++ run second 1

end Sample

open Sample in
/-- The object is published, and the store holds nothing under its only chunk. -/
theorem published_lost :
    ∃ s : State (Fin 2), (server hashes Sample.cut).Reachable s ∧ s.procs 1 = .done .noContent ∧
      ∃ o ∈ s.db.objects, ∃ d ∈ o.manifest.chunks, s.store o.repositoryId d.id = none :=
  LTS.exists_reachable_of_exec verifiedThenDrained ⟨0, rfl⟩ (by decide +kernel)

open Sample in
/-- A CDC upload and a basic upload of the same byte, in two repositories. -/
theorem published_reconstructible_shared :
    ∃ s : State (Fin 2),
      ((server hashes Sample.cut).guard fun s l =>
        l.UploadsIn hashes Sample.cut [[0x61]] ∧ SparesVerified s l).Reachable s ∧
      s.db.objects.rows.length = 2 ∧ ∀ o ∈ s.db.objects, ∀ d ∈ o.manifest.chunks,
        ∃ b, s.store o.repositoryId d.id = some b ∧ hashes.blake3 b = d.id ∧
          b.length = d.length.toNat := by
  have hB : hashes.CollisionFree {b | b ∈ [[0x61]]} := by
    intro a ha b hb _
    simp only [List.mem_singleton, Set.mem_ofPred_eq] at ha hb
    rw [ha, hb]
  obtain ⟨s, hs, hlen⟩ : ∃ s : State (Fin 2),
      ((server hashes Sample.cut).guard fun s l =>
        l.UploadsIn hashes Sample.cut [[0x61]] ∧ SparesVerified s l).Reachable s ∧
      s.db.objects.rows.length = 2 :=
    LTS.exists_reachable_of_execGuard
      (uploads 0 1 7 [0x61] ++ [.act 1 (.start (.uploadBasic 2 (hashes.sha256 [0x61]) [0x61] 8))] ++
        run 1 3) ⟨0, rfl⟩ (by decide +kernel)
  exact ⟨s, hs, hlen, published_reconstructible hashes Sample.cut _ hB s hs⟩

end GitLfsDelta
