import GitLfsDelta.L4System.Invariant

/-!
# Upload sessions

`begin_cdc` and `upload_basic` create or resume a session, `publish_manifest` finalizes it and
`reclaim_expired_uploads` and later begins expire it, all under a clock that may advance
between any two steps. `SessionRow.Follows` is everything that can happen to a row in one of
these; a row that does not follow an earlier one is new, under a new id.

* `sessionInv`: at most one session of an object is open, and the manifest of every session
  passes `validate` and describes the session's object. `upload_basic` does not validate; its
  manifests pass because the cutter conforms (`chunkObject_validate`).
* `Begun` is one `begin_cdc` from its transaction on; `sessions_keep_invariant` compares two of
  them, which may overlap.
-/
namespace GitLfsDelta

/-! ## One row -/

/-- What a transaction at time `now` may make of a session row. -/
structure SessionRow.Follows (now : Nat) (x x' : SessionRow) : Prop where
  id : x'.id = x.id
  repositoryId : x'.repositoryId = x.repositoryId
  objectOid : x'.objectOid = x.objectOid
  objectSize : x'.objectSize = x.objectSize
  manifest : x'.manifest = x.manifest
  state : x'.state = x.state ∨ x.state = .opened ∧
    (x'.state = .finalized ∧ now < x.expiresAt ∨ x'.state = .expired ∧ x.expiresAt ≤ now)

theorem SessionRow.Follows.refl (now : Nat) (x : SessionRow) : x.Follows now x :=
  ⟨rfl, rfl, rfl, rfl, rfl, .inl rfl⟩

theorem SessionRow.Follows.opened {now : Nat} {x x' : SessionRow} (h : x.Follows now x')
    (ho : x'.state = .opened) : x.state = .opened := by
  rcases h.state with hs | ⟨hs, -⟩
  · exact hs ▸ ho
  · exact hs

/-- Every row of `S'` follows one of `S`. -/
def SessionsFollow (now : Nat) (S S' : Table SessionRow.id) : Prop :=
  ∀ x' ∈ S', ∃ x ∈ S, x.Follows now x'

theorem SessionsFollow.refl (now : Nat) (S : Table SessionRow.id) : SessionsFollow now S S :=
  fun x hx => ⟨x, hx, .refl now x⟩

/-- Expiry follows; a row that does not expire is untouched. -/
theorem expireOpen_follows {db : Db} {now : Nat} {p : SessionRow → Bool} {x' : SessionRow}
    (h : x' ∈ (db.expireOpen now p).sessions) :
    ∃ x ∈ db.sessions, x.Follows now x' ∧ (x'.state ≠ .expired → x' = x) := by
  rcases (Table.mem_updateWhere (by intro; rfl)).1 h with ⟨hx, -⟩ | ⟨x, hx, hp, rfl⟩
  · exact ⟨x', hx, .refl now x', fun _ => rfl⟩
  · simp only [decide_eq_true_eq] at hp
    exact ⟨x, hx, ⟨rfl, rfl, rfl, rfl, rfl, .inr ⟨hp.2.1, .inr ⟨rfl, hp.2.2⟩⟩⟩,
      fun ho => absurd rfl ho⟩

/-- An open row that is not due survives expiry. -/
theorem mem_expireOpen_live {db : Db} {now : Nat} {p : SessionRow → Bool} {x : SessionRow}
    (hx : x ∈ db.sessions) (hlive : now < x.expiresAt) : x ∈ (db.expireOpen now p).sessions := by
  refine (Table.mem_updateWhere (by intro; rfl)).2 (.inl ⟨hx, ?_⟩)
  simp only [decide_eq_false_iff_not]
  intro h
  omega

/-! ## Creating and resuming -/

/-- The open sessions of an object. -/
def SessionRow.OpenFor (r : Uuid) (oid : ObjectOid) (x : SessionRow) : Prop :=
  x.repositoryId = r ∧ x.objectOid = oid ∧ x.state = .opened

/-- A begin that succeeds resumes the open session of its object, or finds none and inserts
one; all other rows are as expiry left them. -/
theorem resumeOrCreate_cases {e : ApiError} {db db' : Db} {now : Nat} {r u newId : Uuid}
    {m : ObjectManifest} (h : resumeOrCreate e db now r m newId = .ok (u, db')) :
    ∃ S, SessionsFollow now db.sessions S ∧
      (∀ x ∈ S, x.state = .opened → x ∈ db.sessions) ∧
      (∀ x ∈ db.sessions, now < x.expiresAt → x ∈ S) ∧
      (∀ x ∈ S, x.state = .finalized → x ∈ db.sessions) ∧
      ((∃ x ∈ S, x.OpenFor r m.objectOid ∧ x.id = u ∧
          ∀ y, y ∈ db'.sessions ↔ (y ∈ S ∧ y.id ≠ u) ∨
            y = { x with expiresAt := now + sessionLifetime }) ∨
        (u = newId ∧ (∀ x ∈ S, ¬ x.OpenFor r m.objectOid) ∧
          ∀ y, y ∈ db'.sessions ↔ y ∈ S ∨ y = newSession now r m newId)) := by
  unfold resumeOrCreate at h
  simp only at h
  split at h; · cases h
  rw [bind_eq_ok] at h
  obtain ⟨⟨x₀, db₂⟩, hup, h⟩ := h
  rw [orDatabase_ok] at hup
  simp only at h
  split at h; · cases h
  cases h
  refine ⟨(db.expireOpen now fun s => s.repositoryId = r ∧ s.objectOid = m.objectOid).sessions,
    fun x' hx' => ?_, fun x hx ho => ?_, fun x hx => mem_expireOpen_live hx, fun x hx hf => ?_, ?_⟩
  · obtain ⟨x, hx, hf, -⟩ := expireOpen_follows hx'
    exact ⟨x, hx, hf⟩
  · obtain ⟨y, hy, -, hsame⟩ := expireOpen_follows hx
    rw [hsame (by rw [ho]; decide)]
    exact hy
  · obtain ⟨y, hy, -, hsame⟩ := expireOpen_follows hx
    rw [hsame (by rw [hf]; decide)]
    exact hy
  unfold upsertSession at hup
  split at hup
  · rename_i x hfind
    cases hup
    obtain ⟨hx, hp⟩ := Table.mem_of_find? hfind
    simp only [decide_eq_true_eq] at hp
    refine .inl ⟨x, hx, hp, rfl, fun y => ?_⟩
    rw [Table.mem_updateWhere (by intro; rfl)]
    simp only [decide_eq_true_eq, decide_eq_false_iff_not]
    apply or_congr_right
    constructor
    · intro hy
      obtain ⟨b, hb, hid, rfl⟩ := hy
      rw [Table.eq_of_key hb hx hid]
    · rintro rfl
      exact ⟨x, hx, rfl, rfl⟩
  · rename_i hfind
    split at hup; · cases hup
    rename_i hnone
    cases hup
    refine .inr ⟨rfl, fun x hx ho => ?_, fun y => ?_⟩
    · have := Table.find?_none.1 hfind x hx
      simp only [decide_eq_false_iff_not] at this
      exact this ho
    · rw [Table.mem_insert]
      apply or_congr_right
      constructor
      · intro hy; exact hy.1
      · intro hy; exact ⟨hy, by simpa using hnone⟩

theorem resumeOrCreate_follows {e : ApiError} {db db' : Db} {now : Nat} {r u newId : Uuid}
    {m : ObjectManifest} (h : resumeOrCreate e db now r m newId = .ok (u, db')) :
    ∀ x' ∈ db'.sessions, (∃ x ∈ db.sessions, x.Follows now x') ∨ x' = newSession now r m newId := by
  obtain ⟨S, hS, hopen, -, -, hcase⟩ := resumeOrCreate_cases h
  intro x' hx'
  rcases hcase with ⟨x, hx, ho, -, hrows⟩ | ⟨-, -, hrows⟩
  · rcases (hrows x').1 hx' with ⟨hx', -⟩ | rfl
    · exact .inl (hS x' hx')
    · exact .inl ⟨x, hopen x hx ho.2.2, ⟨rfl, rfl, rfl, rfl, rfl, .inl rfl⟩⟩
  · rcases (hrows x').1 hx' with hx' | rfl
    · exact .inl (hS x' hx')
    · exact .inr rfl

/-- A begin finalizes nothing. -/
theorem resumeOrCreate_unfinalized {e : ApiError} {db db' : Db} {now : Nat} {r u newId : Uuid}
    {m : ObjectManifest} (h : resumeOrCreate e db now r m newId = .ok (u, db')) :
    ∀ x' ∈ db'.sessions, x'.state = .finalized → x' ∈ db.sessions := by
  obtain ⟨S, -, hopen, -, hfin, hcase⟩ := resumeOrCreate_cases h
  intro x' hx' hf
  rcases hcase with ⟨x, hx, ho, -, hrows⟩ | ⟨-, -, hrows⟩
  · rcases (hrows x').1 hx' with ⟨hx', -⟩ | rfl
    · exact hfin x' hx' hf
    · rw [ho.2.2] at hf; cases hf
  · rcases (hrows x').1 hx' with hx' | rfl
    · exact hfin x' hx' hf
    · cases hf

/-! ## One open session per object -/

def OneOpen (S : Table SessionRow.id) : Prop :=
  ∀ x ∈ S, ∀ y ∈ S, y.OpenFor x.repositoryId x.objectOid → x.state = .opened → x = y

theorem OneOpen.follow {now : Nat} {S S' : Table SessionRow.id} (h : OneOpen S)
    (hf : SessionsFollow now S S') : OneOpen S' := by
  intro x' hx' y' hy' hy hxo
  obtain ⟨x, hx, hxf⟩ := hf x' hx'
  obtain ⟨y, hy₀, hyf⟩ := hf y' hy'
  have hxy : x = y := by
    apply h x hx y hy₀ _ (hxf.opened hxo)
    exact ⟨by rw [← hyf.repositoryId, hy.1, hxf.repositoryId],
      by rw [← hyf.objectOid, hy.2.1, hxf.objectOid], hyf.opened hy.2.2⟩
  exact Table.eq_of_key hx' hy' (by rw [hxf.id, hyf.id, hxy])

theorem OneOpen.resume {e : ApiError} {db db' : Db} {now : Nat} {r u newId : Uuid}
    {m : ObjectManifest} (h : OneOpen db.sessions)
    (hb : resumeOrCreate e db now r m newId = .ok (u, db')) : OneOpen db'.sessions := by
  obtain ⟨S, hS, hopen, -, -, hcase⟩ := resumeOrCreate_cases hb
  rcases hcase with ⟨x, hx, ho, rfl, hrows⟩ | ⟨-, hnone, hrows⟩
  · -- the resumed row keeps its place
    have hf : SessionsFollow now S db'.sessions := by
      intro y hy
      rcases (hrows y).1 hy with ⟨hy, -⟩ | rfl
      · exact ⟨y, hy, .refl now y⟩
      · exact ⟨x, hx, ⟨rfl, rfl, rfl, rfl, rfl, .inl rfl⟩⟩
    exact (h.follow hS).follow hf
  · intro a ha b hb hab hao
    rcases (hrows a).1 ha with ha | rfl <;> rcases (hrows b).1 hb with hb | rfl
    · exact h.follow hS a ha b hb hab hao
    · exact absurd ⟨hab.1.symm, hab.2.1.symm, hao⟩ (hnone a ha)
    · exact absurd hab (hnone b hb)
    · rfl

/-- While a session of the object is open and unexpired, a begin answers with its id. -/
theorem resumeOrCreate_same {e : ApiError} {db db' : Db} {now : Nat} {r u newId : Uuid}
    {m : ObjectManifest} (h : OneOpen db.sessions)
    (hb : resumeOrCreate e db now r m newId = .ok (u, db')) {x : SessionRow} (hx : x ∈ db.sessions)
    (ho : x.OpenFor r m.objectOid) (hlive : now < x.expiresAt) : u = x.id := by
  obtain ⟨S, -, hopen, hkeep, -, hcase⟩ := resumeOrCreate_cases hb
  rcases hcase with ⟨y, hy, hyo, rfl, -⟩ | ⟨-, hnone, -⟩
  · rw [h x hx y (hopen y hy hyo.2.2) ⟨hyo.1.trans ho.1.symm, hyo.2.1.trans ho.2.1.symm, hyo.2.2⟩
      ho.2.2]
  · exact absurd ho (hnone x (hkeep x hx hlive))

/-! ## Publication and reclamation -/

theorem finalizeSession_follows {db : Db} {now : Nat} {x : SessionRow} (hx : x ∈ db.sessions)
    (ho : x.state = .opened) (hlive : now < x.expiresAt) :
    SessionsFollow now db.sessions (finalizeSession db x.id).sessions := by
  intro y' hy'
  rcases (Table.mem_updateWhere (by intro; rfl)).1 hy' with ⟨hy, -⟩ | ⟨y, hy, hid, rfl⟩
  · exact ⟨y', hy, .refl now y'⟩
  · obtain rfl := Table.eq_of_key hy hx (by simpa using hid)
    exact ⟨y, hy, ⟨rfl, rfl, rfl, rfl, rfl, .inr ⟨ho, .inl ⟨rfl, hlive⟩⟩⟩⟩

theorem publishManifest_follows {db db' : Db} {now : Nat} {r u : Uuid} {m : ObjectManifest} {b : Bool}
    (h : publishManifest db now r u m = .ok (b, db')) :
    SessionsFollow now db.sessions db'.sessions := by
  obtain ⟨-, x, hx, ⟨rfl, -, -⟩, hcase⟩ := publishManifest_ok h
  rcases hcase with ⟨-, -, rfl⟩ | ⟨⟨ho, hlive⟩, db₁, h₁, hcase⟩
  · exact .refl now _
  obtain ⟨⟨C, rfl⟩, -⟩ := insertChunks_ok h₁
  rcases hcase with ⟨-, -, rfl⟩ | ⟨-, -, db₃, h₃, rfl⟩
  · exact finalizeSession_follows hx ho hlive
  · obtain ⟨⟨C', O, rfl⟩, -⟩ := referenceChunks_ok h₃
    exact finalizeSession_follows hx ho hlive

theorem reclaimSessions_follows (db : Db) (now : Nat) (r : Uuid) (seconds : Nat) :
    SessionsFollow now db.sessions (reclaimSessions db now r seconds).sessions := by
  unfold reclaimSessions
  obtain ⟨Q, hQ⟩ := enqueueAll_frame now ((db.expireOpen now fun s => s.repositoryId = r).chunks.rows.filter
    fun k => ReclaimsChunk (db.expireOpen now fun s => s.repositoryId = r) now r seconds k)
    (db.expireOpen now fun s => s.repositoryId = r)
  simp only
  rw [hQ]
  intro x' hx'
  obtain ⟨x, hx, hf, -⟩ := expireOpen_follows (Table.mem_deleteWhere.1 hx').1
  exact ⟨x, hx, hf⟩

/-! ## Steps -/

variable {ι : Type} [DecidableEq ι] {H : Hashes} {cut : Cutter} {now : Nat} {w w' : Shared}
  {q q' : Proc} {s s' : State ι} {l : Label ι}

/-- Sessions follow, unless the turn begins an upload. -/
theorem Turn.follows {a : Action} (h : Turn H cut now w q a w' q') :
    SessionsFollow w.clock w.db.sessions w'.db.sessions ∨
    ∃ e r m newId u, newId ∉ w.issued ∧ resumeOrCreate e w.db w.clock r m newId = .ok (u, w'.db) ∧
      (m.validate = .ok () ∨ ∃ oid body chunks, a = .start (.uploadBasic r oid body newId) ∧
        q' = .basic r u m chunks ∧ chunkObject H cut body = .ok (chunks, m)) := by
  cases h with
  | beginCdc _ hid hb =>
    obtain ⟨hv, -, hs⟩ := beginCdc_ok hb
    exact .inr ⟨_, _, _, _, _, hid, hs, .inl hv⟩
  | beginBasic _ hid hc _ hs =>
    exact .inr ⟨_, _, _, _, _, hid, hs, .inr ⟨_, _, _, rfl, rfl, hc⟩⟩
  | snapshot _ _ hs =>
    obtain ⟨⟨E, R, rfl⟩, -⟩ := submitSnapshot_ok hs
    exact .inl (.refl _ _)
  | reclaim => exact .inl (reclaimSessions_follows _ _ _ _)
  | register _ hr =>
    obtain ⟨⟨C, L, rfl⟩, -⟩ := registerChunk_ok hr
    exact .inl (.refl _ _)
  | basicRegister _ hr =>
    obtain ⟨⟨C, L, rfl⟩, -⟩ := registerChunk_ok hr
    exact .inl (.refl _ _)
  | publish _ _ hp => exact .inl (publishManifest_follows hp)
  | stage hs =>
    obtain ⟨⟨T, rfl⟩, -⟩ := stageTombstones_ok hs
    exact .inl (.refl _ _)
  | collect _ _ hc =>
    obtain ⟨⟨C, Q, rfl⟩, -⟩ := collectObject_ok hc
    exact .inl (.refl _ _)
  | commit hc =>
    obtain ⟨rfl, -⟩ := drainCommit_ok hc
    exact .inl (.refl _ _)
  | _ => exact .inl (.refl _ _)

/-- A basic upload that reaches its chunks is within the size limit. -/
theorem startBasic_length {r u newId : Uuid} {oid : ObjectOid} {body : Bytes} {m : ObjectManifest}
    {chunks : List Chunk} (h : startBasic H cut w r oid body newId = some (w', .basic r u m chunks)) :
    body.length ≤ maxObjectSize := by
  unfold startBasic at h
  split at h; · cases h
  simp only at h
  split at h
  · cases h
  · omega

/-- A row follows an earlier one, or is open under an id that was not issued before. -/
theorem Turn.row {a : Action} (h : Turn H cut now w q a w' q') : ∀ x' ∈ w'.db.sessions,
    (∃ x ∈ w.db.sessions, x.Follows w.clock x') ∨ x'.id ∉ w.issued ∧ x'.state = .opened := by
  intro x' hx'
  rcases h.follows with hf | ⟨e, r, m, newId, u, hid, hs, -⟩
  · exact .inl (hf x' hx')
  · rcases resumeOrCreate_follows hs x' hx' with hf | rfl
    · exact .inl hf
    · exact .inr ⟨hid, rfl⟩

theorem step_row (h : step H cut s l = some s') : ∀ x' ∈ s'.db.sessions,
    (∃ x ∈ s.db.sessions, x.Follows s.clock x') ∨ x'.id ∉ s.issued ∧ x'.state = .opened := by
  rcases step_cases h with ⟨δ, -, rfl⟩ | ⟨p, a, w, q, rfl, ht, rfl⟩
  · exact fun x' hx' => .inl ⟨x', hx', .refl _ x'⟩
  · exact ht.row

/-- Sessions are created with valid manifests. -/
theorem step_follows (hcut : cut.Conforms) (h : step H cut s l = some s') :
    SessionsFollow s.clock s.db.sessions s'.db.sessions ∨
    ∃ e r m newId u, newId ∉ s.issued ∧ resumeOrCreate e s.db s.clock r m newId = .ok (u, s'.db) ∧
      m.validate = .ok () := by
  rcases step_cases h with ⟨δ, -, rfl⟩ | ⟨p, a, w, q, rfl, ht, rfl⟩
  · exact .inl (.refl _ _)
  rcases ht.follows with hf | ⟨e, r, m, newId, u, hid, hs, hv | ⟨oid, body, chunks, rfl, rfl, hc⟩⟩
  · exact .inl hf
  · exact .inr ⟨e, r, m, newId, u, hid, hs, hv⟩
  · -- the size check comes before the chunking
    have hlen : body.length ≤ maxObjectSize := by
      simp only [step, Option.map_eq_some_iff, procAct] at h
      obtain ⟨⟨w₁, q₁⟩, hact, he⟩ := h
      split at hact
      · have hproc : q₁ = .basic r u m chunks := by
          have := congrFun (congrArg State.procs he) p
          simpa using this
        rw [hproc] at hact
        exact startBasic_length hact
      · cases hact
    exact .inr ⟨e, r, m, newId, u, hid, hs, (chunkObject_validate hcut hlen hc).1⟩

/-- The manifest describes the session's object. -/
def SessionRow.Valid (x : SessionRow) : Prop :=
  x.manifest.validate = .ok () ∧ x.manifest.objectOid = x.objectOid ∧
    x.manifest.objectSize.toNat = x.objectSize

structure SessionInv (s : State ι) : Prop where
  one : OneOpen s.db.sessions
  valid : ∀ x ∈ s.db.sessions, x.Valid

/-- **One open session per object, and valid manifests, along every run.** -/
theorem sessionInv (H : Hashes) (hcut : cut.Conforms) :
    (server H cut : LTS (State ι) (Label ι)).Inductive SessionInv where
  init s hs := by
    obtain ⟨t, rfl⟩ := hs
    exact ⟨fun x hx => absurd hx (Table.not_mem_empty x), fun x hx => absurd hx (Table.not_mem_empty x)⟩
  step s l s' hi hst := by
    rcases step_follows hcut hst with hf | ⟨e, r, m, newId, u, -, hs, hv⟩
    · refine ⟨hi.one.follow hf, fun x' hx' => ?_⟩
      obtain ⟨x, hx, hxf⟩ := hf x' hx'
      unfold SessionRow.Valid
      rw [hxf.manifest, hxf.objectOid, hxf.objectSize]
      exact hi.valid x hx
    · refine ⟨hi.one.resume hs, fun x' hx' => ?_⟩
      rcases resumeOrCreate_follows hs x' hx' with ⟨x, hx, hxf⟩ | rfl
      · unfold SessionRow.Valid
        rw [hxf.manifest, hxf.objectOid, hxf.objectSize]
        exact hi.valid x hx
      · exact ⟨hv, rfl, rfl⟩

/-! ## Runs -/

/-- What any number of transactions may make of a session row. -/
def SessionRow.Becomes (x x' : SessionRow) : Prop :=
  (x'.repositoryId = x.repositoryId ∧ x'.objectOid = x.objectOid ∧ x'.objectSize = x.objectSize ∧
    x'.manifest = x.manifest) ∧ (x'.state = x.state ∨ x.state = .opened)

theorem SessionRow.Becomes.follow {now : Nat} {x y z : SessionRow} (h : x.Becomes y)
    (hf : y.Follows now z) : x.Becomes z := by
  obtain ⟨⟨hr, ho, hz, hm⟩, hs⟩ := h
  refine ⟨⟨hf.repositoryId.trans hr, hf.objectOid.trans ho, hf.objectSize.trans hz,
    hf.manifest.trans hm⟩, ?_⟩
  rcases hs with hs | hs
  · rcases hf.state with hf | ⟨hf, -⟩
    · exact .inl (hf.trans hs)
    · exact .inr (hs ▸ hf)
  · exact .inr hs

/-- A session's row, as long as there is one, becomes nothing else: its id is never reused. -/
theorem run_row {ls : List (Label ι)} (hr : (server H cut).Reachable s)
    (hrun : (server H cut).Run s ls s') {x : SessionRow} (hx : x ∈ s.db.sessions) :
    ∀ x' ∈ s'.db.sessions, x'.id = x.id → x.Becomes x' := by
  have hinv := (server_inv H cut).reachable hr
  suffices h : (Owned s' ∧ SharedInv H s'.toShared) ∧ x.id ∈ s'.issued ∧
      ∀ x' ∈ s'.db.sessions, x'.id = x.id → x.Becomes x' from h.2.2
  apply hrun.preserve
    (P := fun s => (Owned s ∧ SharedInv H s.toShared) ∧ x.id ∈ s.issued ∧
      ∀ x' ∈ s.db.sessions, x'.id = x.id → x.Becomes x')
  · refine ⟨hinv, hinv.2.issued x hx, fun x' hx' hid => ?_⟩
    rw [Table.eq_of_key hx' hx hid]
    exact ⟨⟨rfl, rfl, rfl, rfl⟩, .inl rfl⟩
  · intro a l b _ ha hst
    obtain ⟨hi, hissued, hrow⟩ := ha
    refine ⟨(server_inv H cut).step a l b hi hst, (step_effect hi.1 hst).issued_mono hissued, ?_⟩
    intro x' hx' hid
    rcases step_row hst x' hx' with ⟨y, hy, hf⟩ | ⟨hnew, -⟩
    · exact (hrow y hy (hf.id.symm.trans hid)).follow hf
    · exact absurd (hid ▸ hissued) hnew

/-! ## Processes and their sessions -/

/-- The session, as long as there is one, is of the repository and has the manifest. -/
def Db.Serves (db : Db) (u r : Uuid) (m : ObjectManifest) : Prop :=
  ∀ x ∈ db.sessions, x.id = u → x.repositoryId = r ∧ x.manifest = m

/-- A request works on the manifest of its session. -/
def Proc.Serves (w : Shared) : Proc → Prop
  | .registering r u d _ => u ∈ w.issued ∧ ∃ m, w.db.Serves u r m ∧ d ∈ m.chunks
  | .basic r u m todo => u ∈ w.issued ∧ w.db.Serves u r m ∧ ∀ k ∈ todo, k.descriptor ∈ m.chunks
  | .basicStoring r u m _ todo =>
    u ∈ w.issued ∧ w.db.Serves u r m ∧ ∀ k ∈ todo, k.descriptor ∈ m.chunks
  | .verifying r _ u m _ _ => u ∈ w.issued ∧ w.db.Serves u r m
  | _ => True

theorem Db.Serves.of_row {db : Db} {x : SessionRow} (hx : x ∈ db.sessions) :
    db.Serves x.id x.repositoryId x.manifest := by
  intro y hy hid
  rw [Table.eq_of_key hy hx hid]
  exact ⟨rfl, rfl⟩

theorem Db.Serves.stable {u r : Uuid} {m : ObjectManifest} (h : w.db.Serves u r m)
    (hu : u ∈ w.issued) {t : Nat} (hrow : ∀ x' ∈ w'.db.sessions,
      (∃ x ∈ w.db.sessions, x.Follows t x') ∨ x'.id ∉ w.issued ∧ x'.state = .opened) :
    w'.db.Serves u r m := by
  intro x' hx' hid
  rcases hrow x' hx' with ⟨x, hx, hf⟩ | ⟨hnew, -⟩
  · rw [hf.repositoryId, hf.manifest]
    exact h x hx (hf.id.symm.trans hid)
  · exact absurd (hid ▸ hu) hnew

theorem Proc.Serves.stable (h : q.Serves w) {t : Nat} (hissued : ∀ u ∈ w.issued, u ∈ w'.issued)
    (hrow : ∀ x' ∈ w'.db.sessions,
      (∃ x ∈ w.db.sessions, x.Follows t x') ∨ x'.id ∉ w.issued ∧ x'.state = .opened) :
    q.Serves w' := by
  cases q with
  | registering r u d bytes =>
    obtain ⟨hu, m, hm, hd⟩ := h
    exact ⟨hissued u hu, m, hm.stable hu hrow, hd⟩
  | basic r u m todo => exact ⟨hissued u h.1, h.2.1.stable h.1 hrow, h.2.2⟩
  | basicStoring r u m chunk todo => exact ⟨hissued u h.1, h.2.1.stable h.1 hrow, h.2.2⟩
  | verifying r oid u m todo hashed => exact ⟨hissued u h.1, h.2.stable h.1 hrow⟩
  | _ => trivial

theorem acceptChunk_ok {db : Db} {t : Nat} {r u : Uuid} {oid : ObjectOid} {index : Nat}
    {bytes : Bytes} {d : ChunkDescriptor} (h : acceptChunk db t r oid u index bytes = .ok d) :
    ∃ x ∈ db.sessions, (x.id = u ∧ x.repositoryId = r ∧ x.objectOid = oid) ∧
      (x.state = .opened ∧ t < x.expiresAt) ∧ x.manifest.chunks[index]? = some d ∧
      bytes.length = d.length.toNat := by
  unfold acceptChunk at h
  rw [bind_eq_ok] at h
  obtain ⟨m, hm, h⟩ := h
  unfold loadOpenUpload at hm
  split at hm; · cases hm
  rename_i x hfind
  cases hm
  obtain ⟨hx, hp⟩ := Table.mem_of_find? hfind
  simp only [decide_eq_true_eq] at hp
  split at h; · cases h
  rename_i d' hd
  split at h; · cases h
  rename_i hlen
  cases h
  exact ⟨x, hx, ⟨hp.1, hp.2.1, hp.2.2.1⟩, hp.2.2.2, hd, by simpa using hlen⟩

theorem loadFinalizableUpload_ok {db : Db} {t : Nat} {r u : Uuid} {oid : ObjectOid}
    {m : ObjectManifest} {done : Bool} (h : loadFinalizableUpload db t r oid u = .ok (m, done)) :
    ∃ x ∈ db.sessions, (x.id = u ∧ x.repositoryId = r ∧ x.objectOid = oid) ∧ x.Finalizable t ∧
      x.manifest = m ∧ done = decide (x.state = .finalized) := by
  unfold loadFinalizableUpload at h
  split at h; · cases h
  rename_i x hfind
  cases h
  obtain ⟨hx, hp⟩ := Table.mem_of_find? hfind
  simp only [decide_eq_true_eq] at hp
  exact ⟨x, hx, ⟨hp.1, hp.2.1, hp.2.2.1⟩, hp.2.2.2, rfl, rfl⟩

/-- A request's own steps. -/
theorem Turn.serves {a : Action} (h : Turn H cut now w q a w' q') (hq : q.Serves w)
    (hi : SharedInv H w') (hissued : ∀ u ∈ w.issued, u ∈ w'.issued) : q'.Serves w' := by
  have hstable := hq.stable hissued h.row
  cases h with
  | acceptChunk _ hd =>
    obtain ⟨x, hx, ⟨rfl, rfl, -⟩, -, hget, -⟩ := acceptChunk_ok hd
    exact ⟨hi.issued x hx, x.manifest, .of_row hx, List.mem_of_getElem? hget⟩
  | beginBasic _ _ hc _ hs =>
    obtain ⟨-, -, -, x, hx, rfl, rfl, -, rfl, -, -⟩ := resumeOrCreate_ok hs
    refine ⟨hi.issued x hx, .of_row hx, fun k hk => ?_⟩
    rw [(chunkObject_spec hc).2.1]
    exact List.mem_map_of_mem hk
  | beginFinalize _ hm =>
    obtain ⟨x, hx, ⟨rfl, rfl, -⟩, -, rfl, -⟩ := loadFinalizableUpload_ok hm
    exact ⟨hi.issued x hx, .of_row hx⟩
  | basicRegister =>
    exact ⟨hstable.1, hstable.2.1, fun k hk => hstable.2.2 k (List.mem_cons_of_mem _ hk)⟩
  | basicPut => exact hstable
  | verify => exact hstable
  | _ => trivial

/-- **Requests stay with their sessions along every run.** -/
theorem serves_inv (H : Hashes) (cut : Cutter) :
    (server H cut : LTS (State ι) (Label ι)).Inductive fun s =>
      (Owned s ∧ SharedInv H s.toShared) ∧ ∀ p, (s.procs p).Serves s.toShared := by
  apply (server_inv H cut).of_known
  · intro s hs
    obtain ⟨t, rfl⟩ := hs
    exact fun _ => trivial
  · intro s l s' hi hs hst
    have hi' := (server_inv H cut).step s l s' hi hst
    have hissued : ∀ u ∈ s.issued, u ∈ s'.issued := fun u => (step_effect hi.1 hst).issued_mono
    rcases step_cases hst with ⟨δ, -, rfl⟩ | ⟨p, a, w, q, rfl, ht, rfl⟩
    · exact fun p => (hs p).stable hissued fun x hx => .inl ⟨x, hx, .refl s.clock x⟩
    · intro p'
      rw [move_procs]
      split
      · exact ht.serves (hs p) hi'.2 hissued
      · exact (hs p').stable hissued ht.row

/-! ## Begins -/

/-- The step gives process `p` a new request. -/
def Label.Starts (p : ι) : Label ι → Prop
  | .act p' (.start _) => p' = p
  | _ => False

/-- The step deletes nothing from the store. -/
def KeepsStore (s : State ι) : Label ι → Prop
  | .act p (.next .auto) => ∀ r c todo n, s.procs p ≠ .deleting r c todo n
  | _ => True

/-- `begin_cdc` of manifest `m`: its transaction leads from `s` to `s₁`, and in `s'` it is at `q`. -/
def Begun (M : LTS (State ι) (Label ι)) (r : Uuid) (m : ObjectManifest) (s s₁ s' : State ι)
    (q : Proc) : Prop :=
  ∃ p oid v newId ls, M.step s (.act p (.start (.beginCdc r oid v m newId))) s₁ ∧
    M.Run s₁ ls s' ∧ (∀ l ∈ ls, ¬ l.Starts p) ∧ s'.procs p = q

/-- The session that a begin is about. -/
def Proc.upload? : Proc → Option Uuid
  | .probing u _ _ _ _ => some u
  | .done (.plan u _) => some u
  | _ => none

/-- A begin has found chunk `j` present. -/
def Proc.Found (j : Nat) : Proc → Prop
  | .probing _ _ _ i missing => j < i ∧ j ∉ missing
  | .done (.plan _ missing) => j ∉ missing
  | _ => False

/-- A begin has found chunk `j` missing. -/
def Proc.Misses (j : Nat) : Proc → Prop
  | .probing _ _ _ _ missing => j ∈ missing
  | .done (.plan _ missing) => j ∈ missing
  | _ => False

theorem KeepsStore.store (hk : KeepsStore s l) (h : step H cut s l = some s') {r : Uuid}
    {c : ChunkId} (hc : s.store r c ≠ none) : s'.store r c ≠ none := by
  obtain ⟨b, hb⟩ := Option.ne_none_iff_exists'.1 hc
  rcases step_cases h with ⟨δ, -, rfl⟩ | ⟨p, a, w, q, rfl, ht, rfl⟩
  · exact hc
  · rcases ht.store with hs | ⟨r', c', todo, n, hq, rfl, -⟩
    · rw [show (s.move p w q).store r c = some b from hs r c b hb]
      simp
    · exact absurd hq (hk r' c' todo n)

/-- Where the probes of a begin stand: what was found present is in the store now, what was
found missing was not in the store `σ` it started with. -/
def Probed (σ : Store) (u r : Uuid) (ids : List ChunkId) (store : Store) : Proc → Prop
  | .probing u' r' todo i missing =>
    u' = u ∧ r' = r ∧ todo = ids.drop i ∧
      (∀ j c, j < i → ids[j]? = some c → j ∉ missing → store r c ≠ none) ∧
      ∀ j ∈ missing, ∃ c, ids[j]? = some c ∧ σ r c = none
  | .done (.plan u' missing) =>
    u' = u ∧ (∀ j c, ids[j]? = some c → j ∉ missing → store r c ≠ none) ∧
      ∀ j ∈ missing, ∃ c, ids[j]? = some c ∧ σ r c = none
  | .stopped => True
  | _ => False

/-- A begin for session `u`, or what is left of it. -/
def PlansFor (u : Uuid) (q : Proc) : Prop := q.upload? = some u ∨ q = .stopped

/-- A process that no step restarts is cut off, takes its next step, or waits. -/
theorem step_process (h : step H cut s l = some s') {p : ι} (hl : ¬ l.Starts p) :
    s'.procs p = s.procs p ∨ s'.procs p = .stopped ∨
    ∃ choice w, procNext H s.toShared (s.procs p) choice = some (w, s'.procs p) := by
  cases l with
  | advance δ =>
    simp only [step, Option.some.injEq] at h
    subst h
    exact .inl rfl
  | act p' a =>
    simp only [step, Option.map_eq_some_iff] at h
    obtain ⟨⟨w, q⟩, hact, rfl⟩ := h
    rw [move_procs]
    by_cases hp : p = p'
    · subst hp
      rw [if_pos rfl]
      cases a with
      | kill =>
        simp only [procAct] at hact
        split at hact <;> cases hact <;> exact .inr (.inl rfl)
      | start request => exact absurd rfl hl
      | next choice => exact .inr (.inr ⟨choice, w, hact⟩)
    · rw [if_neg hp]
      exact .inl rfl

/-- What the steps of one request keep holds when it is done. -/
theorem process_run {Q : Proc → Prop} (hstop : Q .stopped)
    (hnext : ∀ w q choice w' q', Q q → procNext H w q choice = some (w', q') → Q q')
    {ls : List (Label ι)} (hrun : (server H cut).Run s ls s') {p : ι} (hls : ∀ l ∈ ls, ¬ l.Starts p)
    (h : Q (s.procs p)) : Q (s'.procs p) := by
  apply hrun.preserve (P := fun s => Q (s.procs p)) h
  intro a l b hl ha hst
  rcases step_process hst (hls l hl) with hsame | hb | ⟨choice, w, hn⟩
  · rwa [hsame]
  · rwa [hb]
  · exact hnext _ _ _ _ _ ha hn

theorem PlansFor.next {u : Uuid} {choice : Choice} (hq : PlansFor u q)
    (hnext : procNext H w q choice = some (w', q')) : PlansFor u q' := by
  rcases hq with hq | rfl
  · unfold Proc.upload? at hq
    split at hq
    · rename_i u' r todo i missing
      cases todo <;> cases choice <;> cases hnext <;> exact .inl hq
    · cases hnext
    · cases hq
  · cases hnext

theorem Probed.step {σ : Store} {u r : Uuid} {ids : List ChunkId} {p : ι}
    (hq : Probed σ u r ids s.store (s.procs p)) (hσ : ∀ c, σ r c ≠ none → s.store r c ≠ none)
    (hk : KeepsStore s l) (h : step H cut s l = some s') (hl : ¬ l.Starts p) :
    Probed σ u r ids s'.store (s'.procs p) := by
  have hmono : ∀ c, s.store r c ≠ none → s'.store r c ≠ none := fun c => hk.store h
  -- what a process knows of the store stays true as the store grows
  have hgrow : ∀ q, Probed σ u r ids s.store q → Probed σ u r ids s'.store q := by
    intro q hq
    unfold Probed at hq ⊢
    split at hq
    · exact ⟨hq.1, hq.2.1, hq.2.2.1, fun j c hj hc hm => hmono c (hq.2.2.2.1 j c hj hc hm), hq.2.2.2.2⟩
    · exact ⟨hq.1, fun j c hc hm => hmono c (hq.2.1 j c hc hm), hq.2.2⟩
    · trivial
    · cases hq
  rcases step_process h hl with hsame | hstop | ⟨choice, w, hnext⟩
  · rw [hsame]; exact hgrow _ hq
  · rw [hstop]; trivial
  apply hgrow
  generalize s'.procs p = q' at hnext
  generalize s.procs p = q at hq hnext
  unfold Probed at hq
  split at hq
  · rename_i u' r' todo i missing
    obtain ⟨rfl, rfl, htodo, hfound, hmissing⟩ := hq
    have hnth : ∀ j, j < i ∨ todo[j - i]? = ids[j]? := by
      intro j
      rcases Nat.lt_or_ge j i with hj | hj
      · exact .inl hj
      · right
        rw [htodo, List.getElem?_drop, Nat.add_sub_cancel' hj]
    cases todo with
    | nil =>
      cases choice <;> cases hnext
      refine ⟨rfl, fun j c hc hm => ?_, hmissing⟩
      rcases hnth j with hj | hj
      · exact hfound j c hj hc hm
      · rw [hc] at hj; cases hj
    | cons c cs =>
      have hi : ids[i]? = some c := by
        rcases hnth i with hj | hj
        · exact absurd hj (Nat.lt_irrefl i)
        · rw [← hj]; simp
      have hcs : cs = ids.drop (i + 1) := by
        rw [← List.drop_drop, ← htodo]; rfl
      cases choice <;> cases hnext
      refine ⟨rfl, rfl, hcs, fun j c' hj hc' hm => ?_, fun j hj => ?_⟩
      · rcases Nat.lt_succ_iff_lt_or_eq.1 hj with hj | rfl
        · apply hfound j c' hj hc'
          intro hjm
          split at hm
          · exact hm hjm
          · exact hm (List.mem_append_left _ hjm)
        · rw [hi] at hc'
          cases hc'
          split at hm
          · rename_i hex
            rw [chunkExists, Option.isSome_iff_ne_none] at hex
            exact hex
          · exact absurd (List.mem_append_right _ (List.mem_singleton.2 rfl)) hm
      · split at hj
        · exact hmissing j hj
        · rename_i hex
          rcases List.mem_append.1 hj with hj | hj
          · exact hmissing j hj
          · rw [List.mem_singleton.1 hj]
            refine ⟨c, hi, ?_⟩
            by_contra hne
            exact hex (Option.isSome_iff_ne_none.2 (hσ c hne))
  · cases hnext
  · cases hnext
  · cases hq

/-- The first step of a begin is refused, or commits and starts to probe. -/
theorem step_begin {p : ι} {r newId : Uuid} {oid : ObjectOid} {v : Nat} {m : ObjectManifest}
    (h : step H cut s (.act p (.start (.beginCdc r oid v m newId))) = some s') :
    (∃ e, s'.procs p = .done (.failed e)) ∨
    ∃ e u, resumeOrCreate e s.db s.clock r m newId = .ok (u, s'.db) ∧ s'.store = s.store ∧
      s'.procs p = .probing u r (m.chunks.map (·.id)) 0 [] := by
  simp only [step, Option.map_eq_some_iff, procAct] at h
  obtain ⟨⟨w, q⟩, hact, rfl⟩ := h
  split at hact
  · simp only [procStart, startBegin] at hact
    split at hact; · cases hact
    split at hact
    · cases hact
      exact .inl ⟨_, move_procs_self ..⟩
    · rename_i u db hb
      cases hact
      exact .inr ⟨_, u, (beginCdc_ok hb).2.2, rfl, move_procs_self ..⟩
  · cases hact

/-- A refused request stays refused. -/
theorem refused_run {ls : List (Label ι)} (hrun : (server H cut).Run s ls s') {p : ι}
    (hls : ∀ l ∈ ls, ¬ l.Starts p) {e : ApiError} (h : s.procs p = .done (.failed e)) :
    s'.procs p = .done (.failed e) ∨ s'.procs p = .stopped := by
  apply process_run (Q := fun q => q = .done (.failed e) ∨ q = .stopped) (.inr rfl) _ hrun hls
    (.inl h)
  rintro w q choice w' q' (rfl | rfl) hn <;> cases hn

/-- A begin is about the session its transaction created or resumed. -/
theorem Begun.upload {r u : Uuid} {m : ObjectManifest} (h : Begun (server H cut) r m s s₁ s' q)
    (hu : q.upload? = some u) :
    ∃ e newId l ls, (server H cut).step s l s₁ ∧ (server H cut).Run s₁ ls s' ∧
      resumeOrCreate e s.db s.clock r m newId = .ok (u, s₁.db) := by
  obtain ⟨p, oid, v, newId, ls, hst, hrun, hls, rfl⟩ := h
  rcases step_begin hst with ⟨e, he⟩ | ⟨e, u', hb, -, hprobe⟩
  · rcases refused_run hrun hls he with hq | hq <;> rw [hq] at hu <;> cases hu
  · have hfor : PlansFor u' (s'.procs p) := by
      apply process_run (Q := PlansFor u') (.inr rfl) (fun _ _ _ _ _ hq hn => hq.next hn) hrun hls
      rw [hprobe]
      exact .inl rfl
    rcases hfor with hu' | hstop
    · rw [hu] at hu'
      cases hu'
      exact ⟨e, newId, _, ls, hst, hrun, hb⟩
    · rw [hstop] at hu
      cases hu

/-- What a begin says about the store, if nothing is deleted from it. -/
theorem Begun.probed {r : Uuid} {m : ObjectManifest}
    (h : Begun ((server H cut).guard KeepsStore) r m s s₁ s' q) (j : Nat) :
    (q.Found j → ∀ d, m.chunks[j]? = some d → s'.store r d.id ≠ none) ∧
      (q.Misses j → ∃ d, m.chunks[j]? = some d ∧ s.store r d.id = none) := by
  obtain ⟨p, oid, v, newId, ls, hst, hrun, hls, rfl⟩ := h
  rcases step_begin hst.2 with ⟨e, he⟩ | ⟨e, u, hb, hstore, hprobe⟩
  · rcases refused_run hrun.of_guard hls he with hq | hq <;> rw [hq] <;> exact ⟨False.elim, False.elim⟩
  · have hprobed : (∀ c, s.store r c ≠ none → s'.store r c ≠ none) ∧
        Probed s.store u r (m.chunks.map (·.id)) s'.store (s'.procs p) := by
      apply hrun.preserve (P := fun x => (∀ c, s.store r c ≠ none → x.store r c ≠ none) ∧
        Probed s.store u r (m.chunks.map (·.id)) x.store (x.procs p))
      · rw [hprobe, hstore]
        refine ⟨fun c hc => hc, rfl, rfl, rfl, ?_, ?_⟩
        · intro j c hj; exact absurd hj (Nat.not_lt_zero j)
        · intro j hj; cases hj
      · intro a l b hl ha hab
        exact ⟨fun c hc => hab.1.store hab.2 (ha.1 c hc),
          ha.2.step ha.1 hab.1 hab.2 (hls l hl)⟩
    have hchunk : ∀ c, (m.chunks.map (·.id))[j]? = some c → ∃ d, m.chunks[j]? = some d ∧ d.id = c := by
      intro c hc
      rw [List.getElem?_map, Option.map_eq_some_iff] at hc
      exact hc
    obtain ⟨-, hprobed⟩ := hprobed
    generalize s'.procs p = q at hprobed
    unfold Probed at hprobed
    split at hprobed
    · obtain ⟨-, -, -, hfound, hmissing⟩ := hprobed
      refine ⟨fun hj d hd => hfound j d.id hj.1 (by simp [hd]) hj.2, fun hj => ?_⟩
      obtain ⟨c, hc, hnone⟩ := hmissing j hj
      obtain ⟨d, hd, rfl⟩ := hchunk c hc
      exact ⟨d, hd, hnone⟩
    · obtain ⟨-, hfound, hmissing⟩ := hprobed
      refine ⟨fun hj d hd => hfound j d.id (by simp [hd]) hj, fun hj => ?_⟩
      obtain ⟨c, hc, hnone⟩ := hmissing j hj
      obtain ⟨d, hd, rfl⟩ := hchunk c hc
      exact ⟨d, hd, hnone⟩
    · exact ⟨False.elim, False.elim⟩
    · cases hprobed

/-- Two begins with one manifest, the second while the first one's session is live, name the
same session. -/
theorem Begun.same {r u u' : Uuid} {m : ObjectManifest} {s₁ t s₂ s₂' s₃ : State ι} {q q' : Proc}
    {ls : List (Label ι)} (hcut : cut.Conforms) (hr : (server H cut).Reachable s)
    (h : Begun (server H cut) r m s s₁ t q) (hu : q.upload? = some u)
    (hrun : (server H cut).Run s₁ ls s₂) (hlive : s₂.db.Live s₂.clock u)
    (h' : Begun (server H cut) r m s₂ s₂' s₃ q') (hu' : q'.upload? = some u') : u' = u := by
  obtain ⟨e, newId, l, -, hst, -, hb⟩ := h.upload hu
  obtain ⟨e', newId', l', -, -, -, hb'⟩ := h'.upload hu'
  obtain ⟨-, -, -, x, hx, hid, hxr, hxo, -, -, -⟩ := resumeOrCreate_ok hb
  obtain ⟨y, hy, hyid, hyo, hyu⟩ := hlive
  have hr₁ := hr.step hst
  have hone := ((sessionInv H hcut).reachable (hr₁.run hrun)).one
  have hrow : x.Becomes y := run_row hr₁ hrun hx y hy (hyid.trans hid.symm)
  have hsame : u' = y.id :=
    resumeOrCreate_same hone hb' hy ⟨hrow.1.1.trans hxr, hrow.1.2.1.trans hxo, hyo⟩ hyu
  exact hsame.trans hyid

/-- If nothing is deleted from the store, the second misses nothing that the first had found. -/
theorem Begun.shrink {r : Uuid} {m : ObjectManifest} {s₁ t s₂ s₂' s₃ : State ι} {q q' : Proc}
    {ls : List (Label ι)} (h : Begun ((server H cut).guard KeepsStore) r m s s₁ t q)
    (hrun : ((server H cut).guard KeepsStore).Run t ls s₂)
    (h' : Begun ((server H cut).guard KeepsStore) r m s₂ s₂' s₃ q') {j : Nat} (hj : q.Found j) :
    ¬ q'.Misses j := by
  intro hmiss
  obtain ⟨d, hd, hnone⟩ := (h'.probed j).2 hmiss
  have hstored : s₂.store r d.id ≠ none := by
    apply hrun.preserve (P := fun x => x.store r d.id ≠ none) ((h.probed j).1 hj d hd)
    intro a l b _ ha hab
    exact hab.1.store hab.2 ha
  exact hstored hnone

/-! ## Conflicts -/

theorem registerChunk_error {db : Db} {r u : Uuid} {d : ChunkDescriptor} {e : ApiError}
    (h : registerChunk db r u d = .error e) : e = .database ∨ e = .integrity := by
  unfold registerChunk at h
  rcases bind_eq_error.1 h with h | ⟨db₁, -, h⟩
  · unfold upsertChunk at h
    split at h
    · exact .inl (orDatabase_error h)
    · split at h
      · cases h
      · cases h; exact .inr rfl
  · exact .inl (orDatabase_error h)

theorem referenceChunks_error {r : Uuid} {oid : ObjectOid} : ∀ {ds : List ChunkDescriptor} {n : Nat}
    {db : Db} {e : ApiError}, referenceChunks r oid n ds db = .error e →
    e = .database ∨ e = .integrity
  | [], _, _, _, h => by cases h
  | d :: ds, n, db, e, h => by
    unfold referenceChunks at h
    split at h
    · cases h; exact .inr rfl
    · rcases bind_eq_error.1 h with h | ⟨db₁, -, h⟩
      · exact .inl (orDatabase_error h)
      · exact referenceChunks_error h

theorem publishManifest_error {db : Db} {now : Nat} {r u : Uuid} {m : ObjectManifest} {e : ApiError}
    (h : publishManifest db now r u m = .error e) :
    e = .database ∨ e = .integrity ∨ e.status = 404 := by
  unfold publishManifest at h
  split at h
  · cases h; exact .inr (.inl rfl)
  split at h
  · cases h; exact .inr (.inr rfl)
  split at h
  · cases h
  · cases h; exact .inr (.inr rfl)
  unfold publishOpen at h
  rcases bind_eq_error.1 h with h | ⟨db₁, -, h⟩
  · exact .inl (orDatabase_error h)
  split at h
  · cases h; exact .inr (.inl rfl)
  split at h
  · rcases bind_eq_error.1 h with h | ⟨db₃, -, h⟩
    · rcases referenceChunks_error h with h | h
      · exact .inl h
      · exact .inr (.inl h)
    · cases h
  · cases h

/-- After its first step a request fails without a conflict, or for lack of chunks. -/
def LateError (e : ApiError) : Prop := e.status ≠ 409 ∨ e = ⟨409, "upload is missing chunks"⟩

theorem lateError_register {db : Db} {r u : Uuid} {d : ChunkDescriptor} {e : ApiError}
    (h : registerChunk db r u d = .error e) : LateError e := by
  rcases registerChunk_error h with rfl | rfl <;> exact .inl (by decide)

theorem lateError_storage (e : StorageError) : LateError (.storage e) := by
  cases e <;> exact .inl (by simp [ApiError.storage])

theorem lateError_publish {r u : Uuid} {m : ObjectManifest} {e : ApiError}
    (h : procPublish w r u m = some (w', .done (.failed e))) : LateError e := by
  unfold procPublish at h
  split at h; · cases h
  split at h
  · rename_i x hx
    cases h
    rcases publishManifest_error hx with rfl | rfl | h404
    · exact .inl (by decide)
    · exact .inl (by decide)
    · exact .inl (by rw [h404]; decide)
  · cases h

theorem procNext_failed {choice : Choice} {e : ApiError}
    (h : procNext H w q choice = some (w', .done (.failed e))) : LateError e := by
  unfold procNext at h
  split at h
  · cases h
  · cases h
  · split at h; · cases h
    split at h
    · rename_i x hx
      cases h; exact lateError_register hx
    · cases h
  · split at h
    · cases h; exact lateError_storage _
    · cases h
  · split at h; · cases h
    split at h
    · rename_i x hx
      cases h; exact lateError_register hx
    · cases h
  · split at h
    · cases h; exact lateError_storage _
    · cases h
  · exact lateError_publish h
  · split at h
    · rename_i x hx
      cases h
      unfold verifyChunk at hx
      split at hx
      · cases hx; exact .inr rfl
      · cases hx; exact lateError_storage _
      · split at hx <;> cases hx
        exact .inl (by decide)
    · cases h
  · split at h
    · cases h; exact .inl (by decide)
    · exact lateError_publish h
  all_goals grind

/-- A manifest conflict is the answer of a request's first step, and leaves the database as it
was. -/
theorem step_conflict {p : ι} {a : Action} (h : step H cut s (.act p a) = some s')
    (hp : s'.procs p = .done (.failed .conflict)) :
    (∃ request, a = .start request) ∧ s'.db = s.db := by
  simp only [step, Option.map_eq_some_iff] at h
  obtain ⟨⟨w, q⟩, hact, rfl⟩ := h
  rw [move_procs_self] at hp
  simp only at hp
  subst hp
  constructor
  · cases a with
    | kill =>
      simp only [procAct] at hact
      split at hact <;> cases hact
    | start request => exact ⟨request, rfl⟩
    | next choice =>
      rcases procNext_failed hact with h | h
      · exact absurd rfl h
      · exact absurd (congrArg ApiError.message h) (by decide)
  · have ht := procAct_turn hact
    generalize hr : Response.failed .conflict = response at ht
    generalize s.procs p = q at ht
    cases ht with
    | reply => rfl
    | refuse => rfl
    | _ => cases hr

/-- **Upload sessions keep their invariant.** In every reachable state at most one session of
an object is open and every session's manifest is valid and describes the session's object; on
every run from there a session keeps its manifest and leaves `open` at most once; a session is
finalized only while it is open and unexpired; a request refused because of a different
manifest leaves the sessions as they were; and two begins with one manifest, the transaction of
the second coming after that of the first and while its session is open and unexpired, are about
the same session; if nothing is deleted from the store, the second never finds a chunk missing that
the first had found before it. -/
theorem sessions_keep_invariant (H : Hashes) (cut : Cutter) (hcut : cut.Conforms) (s : State ι)
    (hr : (server H cut).Reachable s) :
    (∀ x ∈ s.db.sessions, ∀ y ∈ s.db.sessions, x.repositoryId = y.repositoryId →
      x.objectOid = y.objectOid → x.state = .opened → y.state = .opened → x = y) ∧
    (∀ x ∈ s.db.sessions, x.manifest.validate = .ok () ∧ x.manifest.objectOid = x.objectOid ∧
      x.manifest.objectSize.toNat = x.objectSize) ∧
    (∀ ls s', (server H cut).Run s ls s' → ∀ x ∈ s.db.sessions, ∀ x' ∈ s'.db.sessions,
      x'.id = x.id → x'.manifest = x.manifest ∧ (x'.state = x.state ∨ x.state = .opened)) ∧
    (∀ l s', (server H cut).step s l s' → ∀ x' ∈ s'.db.sessions, x'.state = .finalized →
      ∃ x ∈ s.db.sessions, x.id = x'.id ∧
        (x.state = .finalized ∨ x.state = .opened ∧ s.clock < x.expiresAt)) ∧
    (∀ p a s', (server H cut).step s (.act p a) s' → s'.procs p = .done (.failed .conflict) →
      (∃ request, a = .start request) ∧ s'.db.sessions = s.db.sessions) ∧
    (∀ r m u u' q q' s₁ t ls s₂ s₂' s₃, Begun (server H cut) r m s s₁ t q → q.upload? = some u →
      (server H cut).Run s₁ ls s₂ → s₂.db.Live s₂.clock u →
      Begun (server H cut) r m s₂ s₂' s₃ q' → q'.upload? = some u' → u' = u) ∧
    ∀ r m q q' s₁ t ls s₂ s₂' s₃, Begun ((server H cut).guard KeepsStore) r m s s₁ t q →
      ((server H cut).guard KeepsStore).Run t ls s₂ →
      Begun ((server H cut).guard KeepsStore) r m s₂ s₂' s₃ q' → ∀ j, q.Found j → ¬ q'.Misses j := by
  have hi := (sessionInv H hcut).reachable hr
  refine ⟨fun x hx y hy hrep ho hxo hyo => hi.one x hx y hy ⟨hrep.symm, ho.symm, hyo⟩ hxo,
    hi.valid, ?_, ?_, ?_, ?_, ?_⟩
  · intro ls s' hrun x hx x' hx' hid
    obtain ⟨⟨-, -, -, hm⟩, hstate⟩ := run_row hr hrun hx x' hx' hid
    exact ⟨hm, hstate⟩
  · intro l s' hst x' hx' hfin
    rcases step_row hst x' hx' with ⟨x, hx, hf⟩ | ⟨-, ho⟩
    · refine ⟨x, hx, hf.id.symm, ?_⟩
      rcases hf.state with h | ⟨h, ⟨-, hlive⟩ | ⟨hexp, -⟩⟩
      · exact .inl (h ▸ hfin)
      · exact .inr ⟨h, hlive⟩
      · rw [hfin] at hexp; cases hexp
    · rw [hfin] at ho; cases ho
  · intro p a s' hst hp
    obtain ⟨ha, hdb⟩ := step_conflict hst hp
    exact ⟨ha, by rw [hdb]⟩
  · intro r m u u' q q' s₁ t ls s₂ s₂' s₃ h hu hrun hlive h' hu'
    exact Begun.same hcut hr h hu hrun hlive h' hu'
  · intro r m q q' s₁ t ls s₂ s₂' s₃ h hrun h' j hj
    exact Begun.shrink h hrun h' hj

open Sample in
/-- Process 0 begins byte `a` and is overtaken by process 1, which would have called the session 8:
both are about session 7. -/
theorem sessions_keep_invariant_begun : ∃ s₁ s₂ s : State (Fin 2), ∃ q,
    Begun (server hashes maximalCut) 1 (manifest [0x61]) (.initial 0) s₁ s (.done (.plan 7 [0])) ∧
      Begun (server hashes maximalCut) 1 (manifest [0x61]) s₁ s₂ s q ∧ q.upload? = some 7 := by
  have hevaluated : (step hashes maximalCut (.initial 0 : State (Fin 2))
      (.act 0 (.start (.beginCdc 1 (hashes.sha256 [0x61]) 1 (manifest [0x61]) 7)))).any (fun s₁ =>
        s₁.db.Live s₁.clock 7 ∧ (step hashes maximalCut s₁
          (.act 1 (.start (.beginCdc 1 (hashes.sha256 [0x61]) 1 (manifest [0x61]) 8)))).any (fun s₂ =>
            (LTS.exec (step hashes maximalCut) s₂ (run 1 2 ++ run 0 2)).any (fun s =>
              s.procs 0 = .done (.plan 7 [0]) ∧ (s.procs 1).upload?.isSome = true) = true) = true) = true := by
    decide +kernel
  obtain ⟨s₁, hs₁, h₁⟩ := (Option.any_eq_true _ _).1 hevaluated
  simp only [decide_eq_true_eq] at h₁
  obtain ⟨s₂, hs₂, h₂⟩ := (Option.any_eq_true _ _).1 h₁.2
  simp only [decide_eq_true_eq] at h₂
  obtain ⟨s, hs, h⟩ := (Option.any_eq_true _ _).1 h₂
  simp only [decide_eq_true_eq] at h
  obtain ⟨hfirst, hsecond⟩ := h
  have hrun : (server hashes maximalCut).Run s₂ (run 1 2 ++ run 0 2) s := LTS.run_of_exec hs
  have hbegun : Begun (server hashes maximalCut) 1 (manifest [0x61]) (.initial 0) s₁ s (.done (.plan 7 [0])) :=
    ⟨0, _, _, _, _, hs₁, .cons hs₂ hrun, by simp [run, Label.Starts], hfirst⟩
  have hovertaken : Begun (server hashes maximalCut) 1 (manifest [0x61]) s₁ s₂ s (s.procs 1) :=
    ⟨1, _, _, _, _, hs₂, hrun, by simp [run, Label.Starts], rfl⟩
  obtain ⟨u, hu⟩ := Option.isSome_iff_exists.1 hsecond
  have hsame : u = 7 := (sessions_keep_invariant hashes maximalCut maximalCut_conforms (.initial 0)
    ⟨_, [], ⟨0, rfl⟩, .nil _⟩).2.2.2.2.2.1 1 (manifest [0x61]) 7 u _ _ s₁ s [] s₁ s₂ s
      hbegun rfl (.nil _) h₁.1 hovertaken hu
  exact ⟨s₁, s₂, s, _, hbegun, hovertaken, hsame ▸ hu⟩

end GitLfsDelta
