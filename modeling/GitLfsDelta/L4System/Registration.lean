import GitLfsDelta.L4System.Invariant

/-!
# Registering and storing a chunk

`register_and_store_chunk` commits the chunk's row and the session's link first and
verifies the bytes only when it puts them. A `PUT` whose bytes do not have the identity of
their descriptor is answered 422, but the row it registered, with the descriptor's length,
stays, and every later registration of the identity has to agree with it.

* `correct_put_iff`: in every reachable state a `PUT` of bytes that match their descriptor
  is answered 204, and stored, exactly if no chunk row of that identity has another size.
  `correct_put_blocked` is the state after one rejected `PUT` of another session.
* `put_run`: with the row not locked, the steps of the process are `uploadCdcChunk`.
-/
namespace GitLfsDelta

/-- `upload_cdc_chunk` on its own: the answer, and the database and store it leaves.
mirrors crates/git-lfs-delta-server/src/lib.rs:1034-1064 and :1641-1688 -/
def uploadCdcChunk (H : Hashes) (db : Db) (store : Store) (now : Nat) (r : Uuid) (oid : ObjectOid)
    (u : Uuid) (index : Nat) (bytes : Bytes) : Except ApiError Unit × Db × Store :=
  match acceptChunk db now r oid u index bytes with
  | .error e => (.error e, db, store)
  | .ok d =>
    match registerChunk db r u d with
    | .error e => (.error e, db, store)
    | .ok db₁ =>
      match putVerified H store r d.id bytes with
      | .error e => (.error (.storage e), db₁, store)
      | .ok store₁ => (.ok (), db₁, store₁)

/-! ## What enters the store -/

/-- The byte strings a request hands to the store. -/
def Request.payloads (H : Hashes) (cut : Cutter) : Request → List Bytes
  | .uploadCdcChunk _ _ _ _ bytes => [bytes]
  | .uploadBasic _ _ body _ =>
    match chunkObject H cut body with
    | .error _ => []
    | .ok (chunks, _) => chunks.map (·.data)
  | _ => []

/-- The step uploads nothing outside `B`. -/
def Label.UploadsIn {ι : Type} (H : Hashes) (cut : Cutter) (B : List Bytes) : Label ι → Prop
  | .act _ (.start request) => ∀ b ∈ request.payloads H cut, b ∈ B
  | _ => True

instance {ι : Type} (H : Hashes) (cut : Cutter) (B : List Bytes) (l : Label ι) :
    Decidable (l.UploadsIn H cut B) :=
  decidable_of_iff
    ((match l with
      | .act _ (.start request) => (request.payloads H cut).all B.contains
      | _ => true) = true)
    (by unfold Label.UploadsIn; split <;> simp)

/-- The bytes a process carries lie in `B`, and the chunks of `upload_basic` match their
descriptors. -/
def Proc.Carries (H : Hashes) (B : List Bytes) : Proc → Prop
  | .registering _ _ _ bytes => bytes ∈ B
  | .storing _ _ bytes => bytes ∈ B
  | .basic _ _ _ todo => ∀ k ∈ todo, k.Faithful H ∧ k.data ∈ B
  | .basicStoring _ _ _ chunk todo => ∀ k ∈ chunk :: todo, k.Faithful H ∧ k.data ∈ B
  | _ => True

variable {ι : Type} [DecidableEq ι] {H : Hashes} {cut : Cutter} {B : List Bytes} {now : Nat}
  {w w' : Shared} {q q' : Proc}

theorem Turn.carries {a : Action} (h : Turn H cut now w q a w' q')
    (hpay : ∀ request, a = .start request → ∀ b ∈ request.payloads H cut, b ∈ B)
    (hq : q.Carries H B) : q'.Carries H B := by
  cases h with
  | acceptChunk => exact hpay _ rfl _ (by simp [Request.payloads])
  | beginBasic _ _ hc _ _ =>
    intro k hk
    refine ⟨(chunkObject_spec hc).1 k hk, hpay _ rfl _ ?_⟩
    simp only [Request.payloads, hc]
    exact List.mem_map_of_mem hk
  | register => exact hq
  | basicRegister => exact hq
  | basicPut => exact fun k hk => hq k (List.mem_cons_of_mem _ hk)
  | _ => trivial

/-- Only bytes a process carries enter the store. -/
theorem Turn.stored {a : Action} (h : Turn H cut now w q a w' q') (hq : q.Carries H B)
    (hst : ∀ r c b, w.store r c = some b → b ∈ B) : ∀ r c b, w'.store r c = some b → b ∈ B := by
  intro r c b hb
  cases h with
  | put hp =>
    obtain ⟨-, rfl⟩ := putVerified_ok.1 hp
    rcases create_cases hb with hb | ⟨-, -, rfl⟩
    · exact hst r c b hb
    · exact hq
  | basicPut hp =>
    obtain ⟨-, rfl⟩ := putVerified_ok.1 hp
    rcases create_cases hb with hb | ⟨-, -, rfl⟩
    · exact hst r c b hb
    · exact (hq _ List.mem_cons_self).2
  | erase => exact hst r c b (erase_some.1 hb).1
  | _ => exact hst r c b hb

structure StoredIn (H : Hashes) (B : List Bytes) (s : State ι) : Prop where
  stored : ∀ r c b, s.store r c = some b → b ∈ B
  carries : ∀ p, (s.procs p).Carries H B

omit [DecidableEq ι] in
theorem StoredIn.initial (H : Hashes) (B : List Bytes) (t : Nat) :
    StoredIn H B (.initial t : State ι) :=
  ⟨fun _ _ _ h => (nomatch h), fun _ => trivial⟩

theorem StoredIn.step {s s' : State ι} {l : Label ι} (hi : StoredIn H B s)
    (hl : l.UploadsIn H cut B) (h : step H cut s l = some s') : StoredIn H B s' := by
  rcases step_cases h with ⟨δ, -, rfl⟩ | ⟨p, a, w, q, rfl, ht, rfl⟩
  · exact ⟨hi.stored, hi.carries⟩
  have hpay : ∀ request, a = .start request → ∀ b ∈ request.payloads H cut, b ∈ B := by
    rintro request rfl
    exact hl
  refine ⟨ht.stored (hi.carries p) hi.stored, fun p' => ?_⟩
  rw [move_procs]; split
  · exact ht.carries hpay (hi.carries p)
  · exact hi.carries p'

/-! ## Sessions describe non-empty chunks -/

/-- Every descriptor of every session has a positive length. -/
def SessionsPositive (db : Db) : Prop :=
  ∀ x ∈ db.sessions, ∀ d ∈ x.manifest.chunks, 0 < d.length.toNat

/-- A manifest that `validate` accepts, or that describes the non-empty chunks of a cutter,
has positive lengths. -/
theorem manifest_positive {m : ObjectManifest} (hcut : ∀ body, ∀ raw ∈ cut body, raw.data ≠ [])
    (h : m.validate = .ok () ∨ ∃ body chunks, chunkObject H cut body = .ok (chunks, m)) :
    ∀ d ∈ m.chunks, 0 < d.length.toNat := by
  intro d hd
  rcases h with hv | ⟨body, chunks, hc⟩
  · exact ((validate_ok hv).2.2.2 d hd).1
  · obtain ⟨hall, hds, -, hdata⟩ := chunkObject_spec hc
    rw [hds] at hd
    obtain ⟨k, hk, rfl⟩ := List.mem_map.1 hd
    have hmem : k.data ∈ (cut body).map (·.data) := hdata ▸ List.mem_map_of_mem hk
    obtain ⟨raw, hraw, e⟩ := List.mem_map.1 hmem
    rw [← (hall k hk).2, ← e]
    exact List.length_pos_of_ne_nil (hcut body raw hraw)

theorem Turn.positive {a : Action} (h : Turn H cut now w q a w' q')
    (hcut : ∀ body, ∀ raw ∈ cut body, raw.data ≠ []) (hp : SessionsPositive w.db) :
    SessionsPositive w'.db := by
  intro x' hx' d hd
  rcases h.sessions with hage | ⟨e, r, m, newId, u, request, -, -, hm, hs⟩
  · obtain ⟨x, hx, ha⟩ := hage x' hx'
    exact hp x hx d (ha.manifest_eq ▸ hd)
  · rcases (resumeOrCreate_ok hs).2.1 x' hx' with ⟨x, hx, ha⟩ | ⟨rfl, -⟩
    · exact hp x hx d (ha.manifest_eq ▸ hd)
    · exact manifest_positive hcut hm d hd

/-! ## A correct `PUT` -/

theorem acceptChunk_live {db : Db} {x : SessionRow} (hx : x ∈ db.sessions) (ho : x.state = .opened)
    {t : Nat} (hu : t < x.expiresAt) {index : Nat} {d : ChunkDescriptor}
    (hd : x.manifest.chunks[index]? = some d) {b : Bytes} (hlen : b.length = d.length.toNat) :
    acceptChunk db t x.repositoryId x.objectOid x.id index b = .ok d := by
  have hfind : db.sessions.find? (fun s => s.id = x.id ∧ s.repositoryId = x.repositoryId ∧
      s.objectOid = x.objectOid ∧ s.state = .opened ∧ t < s.expiresAt) = some x := by
    refine Table.find?_of_key hx (by simp [ho, hu]) fun y hy => ?_
    simp only [decide_eq_true_eq] at hy
    exact hy.1
  unfold acceptChunk loadOpenUpload
  rw [hfind]
  simp [bind, Except.bind, hd, hlen]

/-- Registering in a session that exists succeeds exactly if the size agrees. -/
theorem registerChunk_iff {db : Db} {x : SessionRow} (hx : x ∈ db.sessions) {d : ChunkDescriptor}
    (hpos : 0 < d.length.toNat) :
    (∃ db', registerChunk db x.repositoryId x.id d = .ok db') ↔
      ∀ k ∈ db.chunks, k.key = (x.repositoryId, d.id) → k.size = d.length.toNat := by
  constructor
  · rintro ⟨db', h⟩ k hk hkey
    obtain ⟨-, hg, ⟨k', hk', hkey', hsize⟩, -⟩ := registerChunk_ok h
    rwa [← Table.eq_of_key (hg.keep k hk) hk' (hkey.trans hkey'.symm)] at hsize
  · intro hall
    obtain ⟨db₁, h₁⟩ : ∃ db₁, upsertChunk db x.repositoryId d = .ok db₁ := by
      unfold upsertChunk
      cases hg : db.chunks.get? (x.repositoryId, d.id) with
      | none => exact ⟨_, by simp [orDatabase, Db.insertChunk, Nat.ne_of_gt hpos]; rfl⟩
      | some k =>
        obtain ⟨hk, hkey⟩ := Table.get?_some.1 hg
        exact ⟨db, by simp [hall k hk hkey]⟩
    obtain ⟨⟨C, rfl⟩, -, k, hk, hkey, -⟩ := upsertChunk_ok h₁
    have hchunk : C.get? (x.repositoryId, d.id) = some k := Table.get?_some.2 ⟨hk, hkey⟩
    have hsess : db.sessions.get? x.id = some x := Table.get?_some.2 ⟨hx, rfl⟩
    simp only [registerChunk, bind_eq_ok, orDatabase_ok]
    by_cases hl : db.sessionChunks.get? (x.id, d.id) = none
    · exact ⟨_, _, h₁, by simp [Db.linkSessionChunk, hl, hsess, hchunk]; rfl⟩
    · exact ⟨_, _, h₁, by simp [Db.linkSessionChunk, hl]; rfl⟩

/-- **When a correct `PUT` succeeds.** In every reachable state: a `PUT` of bytes `b` for a
descriptor with the identity and length of `b`, in an open and unexpired session, is
answered 204 and leaves `b` in the store exactly if no chunk row of that identity was
registered with another size. -/
theorem correct_put_iff (H : Hashes) (cut : Cutter) (B : List Bytes)
    (hB : H.CollisionFree {b | b ∈ B}) (hcut : ∀ body, ∀ raw ∈ cut body, raw.data ≠ []) (s : State ι)
    (hr : ((server H cut).guard fun _ l => l.UploadsIn H cut B).Reachable s) (x : SessionRow)
    (hx : x ∈ s.db.sessions) (hlive : x.state = .opened ∧ s.clock < x.expiresAt) (index : Nat)
    (d : ChunkDescriptor) (hd : x.manifest.chunks[index]? = some d) (b : Bytes) (hb : b ∈ B)
    (hid : d.id = H.blake3 b) (hlen : d.length.toNat = b.length) :
    ((uploadCdcChunk H s.db s.store s.clock x.repositoryId x.objectOid x.id index b).1 = .ok () ∧
      (uploadCdcChunk H s.db s.store s.clock x.repositoryId x.objectOid x.id index b).2.2
        x.repositoryId d.id = some b) ↔
    ∀ k ∈ s.db.chunks, k.key = (x.repositoryId, d.id) → k.size = d.length.toNat := by
  have hinv : ((server H cut).guard fun _ l => l.UploadsIn H cut B).Inductive
      fun s : State ι => (Owned s ∧ SharedInv H s.toShared) ∧ StoredIn H B s ∧
        SessionsPositive s.db := by
    refine ((server_inv H cut).guard _).of_known ?_ fun s l s' hJ hi hst => ?_
    · intro s h
      obtain ⟨t, rfl⟩ := h
      exact ⟨.initial H B t, fun x hx => absurd hx (Table.not_mem_empty x)⟩
    · refine ⟨hi.1.step hst.1 hst.2, ?_⟩
      rcases step_cases hst.2 with ⟨δ, -, rfl⟩ | ⟨p, a, w, q, -, ht, rfl⟩
      · exact hi.2
      · exact ht.positive hcut hi.2
  obtain ⟨⟨-, hi⟩, hst, hpos⟩ := hinv.reachable hr
  have hreg := registerChunk_iff hx (hpos x hx d (List.mem_of_getElem? hd))
  rw [← hreg]
  unfold uploadCdcChunk
  rw [acceptChunk_live hx hlive.1 hlive.2 hd hlen.symm]
  simp only
  cases hregister : registerChunk s.db x.repositoryId x.id d with
  | error e => simp
  | ok db₁ =>
    have hput : putVerified H s.store x.repositoryId d.id b =
        .ok (s.store.create x.repositoryId d.id b) := putVerified_ok.2 ⟨hid.symm, rfl⟩
    rw [hput]
    simp only [true_and]
    refine iff_of_true ?_ ⟨db₁, rfl⟩
    obtain ⟨b', hb', hcase⟩ := create_self s.store x.repositoryId d.id b
    rcases hcase with hold | ⟨-, rfl⟩
    · -- bytes already there have the same identity
      have : b' = b := hB (hst.stored _ _ _ hold) hb ((hi.store _ _ _ hold).trans hid)
      rw [hb', this]
    · exact hb'

namespace Sample

/-- A manifest of the object `aa` that gives its two bytes the identity of byte `a`. -/
def mislabelled : ObjectManifest :=
  ⟨.v1, .fastCdcV1, hashes.sha256 [0x61, 0x61], 2, [⟨hashes.blake3 [0x61], 0, 2⟩]⟩

/-- Process 0 begins session 7 on `mislabelled` and puts the bytes `aa`, which is rejected;
process 1 begins session 9 on byte `a`. -/
def rejectedThenBegun : List (Label (Fin 2)) :=
  .act first (.start (.beginCdc 1 (hashes.sha256 [0x61, 0x61]) 1 mislabelled 7)) :: run first 2 ++
    [.act first (.start (.uploadCdcChunk 1 (hashes.sha256 [0x61, 0x61]) 7 0 [0x61, 0x61]))] ++
    run first 2 ++ begins second 1 9 [0x61]

end Sample

open Sample in
/-- The first `PUT` was answered 422; the correct one in the other session is answered
500. -/
theorem correct_put_blocked :
    ∃ s : State (Fin 2), (server hashes Sample.cut).Reachable s ∧
      s.procs 0 = .done (.failed (.storage
        (.digestMismatch (hashes.blake3 [0x61]) (hashes.blake3 [0x61, 0x61])))) ∧
      (∃ x ∈ s.db.sessions, x.id = 9 ∧ x.repositoryId = 1 ∧ x.objectOid = hashes.sha256 [0x61] ∧
        (x.state = .opened ∧ s.clock < x.expiresAt) ∧
        x.manifest.chunks[0]? = some ⟨hashes.blake3 [0x61], 0, 1⟩) ∧
      (uploadCdcChunk hashes s.db s.store s.clock 1 (hashes.sha256 [0x61]) 9 0 [0x61]).1 =
        .error .integrity :=
  LTS.exists_reachable_of_exec rejectedThenBegun ⟨0, rfl⟩ (by decide +kernel)

open Sample in
/-- A second session on a byte that is stored puts it again. -/
theorem correct_put_iff_again :
    ∃ s : State (Fin 2),
      ((server hashes Sample.cut).guard fun _ l => l.UploadsIn hashes Sample.cut [[0x61]]).Reachable s ∧
      s.store 1 (hashes.blake3 [0x61]) = some [0x61] ∧
      (uploadCdcChunk hashes s.db s.store s.clock 1 (hashes.sha256 [0x61]) 7 0 [0x61]).1 = .ok () := by
  have hB : hashes.CollisionFree {b | b ∈ [[0x61]]} := by
    intro a ha b hb _
    simp only [List.mem_singleton, Set.mem_ofPred_eq] at ha hb
    rw [ha, hb]
  have hcut : ∀ body, ∀ raw ∈ Sample.cut body, raw.data ≠ [] := by
    intro body raw hraw
    unfold Sample.cut at hraw
    split at hraw
    · cases hraw
    · rw [List.mem_singleton] at hraw
      rw [hraw]; assumption
  obtain ⟨s, hs, hstore, ⟨x, hx, hxid, hxr, hxo, hlive, hd⟩, hsize⟩ : ∃ s : State (Fin 2),
      ((server hashes Sample.cut).guard fun _ l => l.UploadsIn hashes Sample.cut [[0x61]]).Reachable s ∧
      s.store 1 (hashes.blake3 [0x61]) = some [0x61] ∧
      (∃ x ∈ s.db.sessions, x.id = 7 ∧ x.repositoryId = 1 ∧ x.objectOid = hashes.sha256 [0x61] ∧
        (x.state = .opened ∧ s.clock < x.expiresAt) ∧
        x.manifest.chunks[0]? = some ⟨hashes.blake3 [0x61], 0, 1⟩) ∧
      ∀ k ∈ s.db.chunks, k.key = (1, hashes.blake3 [0x61]) → k.size = 1 :=
    LTS.exists_reachable_of_execGuard (begins 0 1 7 [0x61] ++ puts 0 1 7 [0x61]) ⟨0, rfl⟩
      (by decide +kernel)
  have := (correct_put_iff hashes Sample.cut [[0x61]] hB hcut s hs x hx hlive 0 _ hd [0x61]
    (by simp) rfl rfl).2
  rw [hxid, hxr, hxo] at this
  exact ⟨s, hs, hstore, (this hsize).1⟩

/-! ## The handler as steps -/

/-- With no row of the repository locked, a process that runs alone computes
`uploadCdcChunk`. -/
theorem put_run (s : State ι) (p : ι) (hf : (s.procs p).Free) (r : Uuid) (oid : ObjectOid) (u : Uuid)
    (index : Nat) (bytes : Bytes) (hl : ∀ c, (r, c) ∉ s.locks) :
    ∃ n s', LTS.exec (step H cut) s (.act p (.start (.uploadCdcChunk r oid u index bytes)) ::
        List.replicate n (.act p (.next .auto))) = some s' ∧
      (s'.db, s'.store) = (uploadCdcChunk H s.db s.store s.clock r oid u index bytes).2 ∧
      s'.procs p = .done (match (uploadCdcChunk H s.db s.store s.clock r oid u index bytes).1 with
        | .ok () => .noContent
        | .error e => .failed e) := by
  unfold uploadCdcChunk
  cases hacc : acceptChunk s.db s.clock r oid u index bytes with
  | error e =>
    have h₁ : step H cut s (.act p (.start (.uploadCdcChunk r oid u index bytes))) =
        some (s.move p s.toShared (.done (.failed e))) :=
      step_start hf (by simp only [procStart, hacc])
    exact ⟨0, s.move p s.toShared (.done (.failed e)), by simp [LTS.exec, h₁], rfl,
      move_procs_self ..⟩
  | ok d =>
    let s₁ := s.move p s.toShared (.registering r u d bytes)
    have h₁ : step H cut s (.act p (.start (.uploadCdcChunk r oid u index bytes))) = some s₁ :=
      step_start hf (by simp only [procStart, hacc])
    cases hreg : registerChunk s.db r u d with
    | error e =>
      have h₂ : step H cut s₁ (.act p (.next .auto)) =
          some (s₁.move p s₁.toShared (.done (.failed e))) := by
        apply step_next
        rw [move_procs_self]
        simp only [procNext]
        rw [show s₁.locks = s.locks from rfl, if_neg (hl d.id), show s₁.db = s.db from rfl, hreg]
      exact ⟨1, s₁.move p s₁.toShared (.done (.failed e)), by simp [LTS.exec, h₁, h₂],
        by simp only [hreg]; rfl, by simp only [move_procs_self, hreg]⟩
    | ok db₁ =>
      let s₂ := s₁.move p { s₁.toShared with db := db₁ } (.storing r d.id bytes)
      have h₂ : step H cut s₁ (.act p (.next .auto)) = some s₂ := by
        apply step_next
        rw [move_procs_self]
        simp only [procNext]
        rw [show s₁.locks = s.locks from rfl, if_neg (hl d.id), show s₁.db = s.db from rfl, hreg]
      -- the bytes are verified only now, after the commit
      cases hput : putVerified H s.store r d.id bytes with
      | error e =>
        have h₃ : step H cut s₂ (.act p (.next .auto)) =
            some (s₂.move p s₂.toShared (.done (.failed (.storage e)))) := by
          apply step_next
          rw [move_procs_self]
          simp only [procNext]
          rw [show s₂.toShared.store = s.store from rfl, hput]
        exact ⟨2, s₂.move p s₂.toShared (.done (.failed (.storage e))),
          by simp [List.replicate_succ, LTS.exec, h₁, h₂, h₃],
          by simp only [hreg, hput]; rfl, by simp only [move_procs_self, hreg, hput]⟩
      | ok store₁ =>
        have h₃ : step H cut s₂ (.act p (.next .auto)) =
            some (s₂.move p { s₂.toShared with store := store₁ } (.done .noContent)) := by
          apply step_next
          rw [move_procs_self]
          simp only [procNext]
          rw [show s₂.toShared.store = s.store from rfl, hput]
        exact ⟨2, s₂.move p { s₂.toShared with store := store₁ } (.done .noContent),
          by simp [List.replicate_succ, LTS.exec, h₁, h₂, h₃],
          by simp only [hreg, hput]; rfl, by simp only [move_procs_self, hreg, hput]⟩

end GitLfsDelta
