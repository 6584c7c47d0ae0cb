import GitLfsDelta.L3Server.Isolation
import GitLfsDelta.L4System.Locking
import GitLfsDelta.L4System.Readers
import GitLfsDelta.L4System.Sessions
import GitLfsDelta.L4System.Snapshots

/-!
# Processes and the part of the server that belongs to a repository

A request or a command is for one repository, and so is every later step of its process.
`Shared.only R` is what belongs to repository `R` of the database, of the store and of the row
locks. A process of `R` does on that part alone what it does on the whole (`procStart_only`,
`procNext_only`, `kill_only`); a process of another repository leaves it as it is
(`Turn.other`). The same holds of readers and of lock requests.
-/
namespace GitLfsDelta

/-! ## Repositories of processes -/

/-- The repository a process works for, while it does. -/
def Proc.repository? : Proc → Option Uuid
  | .probing _ r .. | .registering r .. | .storing r .. | .basic r .. | .basicStoring r .. => some r
  | .verifying r .. | .staging r .. | .collecting r _ | .listing r _ => some r
  | .draining r .. | .deleting r .. | .deleted r .. => some r
  | _ => none

/-- A process without the ghost number of its `dry_run`. -/
def Proc.forget : Proc → Proc
  | .staging r seconds candidates _ => .staging r seconds candidates 0
  | q => q

@[simp] theorem Proc.repository?_forget (q : Proc) : q.forget.repository? = q.repository? := by
  cases q <;> rfl

/-- What belongs to a repository of the shared state. -/
def Shared.only (R : Uuid) (w : Shared) : Shared where
  db := w.db.only R
  store r c := if r = R then w.store r c else none
  clock := w.clock
  locks := w.locks.filter fun k => k.1 = R
  issued := []
  logicalUploaded := 0

/-- The outcome of a step on the repository's part; ids and metric are counted anew. -/
def Shared.like (R : Uuid) (w : Shared) (w' : Shared) : Prop :=
  w'.db = w.db.only R ∧ w'.store = (w.only R).store ∧ w'.clock = w.clock ∧ w'.locks = (w.only R).locks

variable {H : Hashes} {cut : Cutter} {now : Nat} {w w' : Shared} {q q' : Proc} {R r : Uuid}

theorem Shared.like.only_eq {w₁ w₂ w' : Shared} (h₁ : w₁.like R w') (h₂ : w₂.like R w') :
    w₁.only R = w₂.only R := by
  obtain ⟨hdb₁, hstore₁, hclock₁, hlocks₁⟩ := h₁
  obtain ⟨hdb₂, hstore₂, hclock₂, hlocks₂⟩ := h₂
  have hdb : w₁.db.only R = w₂.db.only R := hdb₁.symm.trans hdb₂
  have hstore : (w₁.only R).store = (w₂.only R).store := hstore₁.symm.trans hstore₂
  have hclock : w₁.clock = w₂.clock := hclock₁.symm.trans hclock₂
  have hlocks : (w₁.only R).locks = (w₂.only R).locks := hlocks₁.symm.trans hlocks₂
  simp only [Shared.only] at hstore hlocks ⊢
  rw [hdb, hstore, hclock, hlocks]

theorem like_only (w : Shared) (R : Uuid) : w.like R (w.only R) := ⟨rfl, rfl, rfl, rfl⟩

@[simp] theorem store_only (w : Shared) (R : Uuid) (c : ChunkId) : (w.only R).store R c = w.store R c :=
  if_pos rfl

@[simp] theorem locks_only {c : ChunkId} : (R, c) ∈ (w.only R).locks ↔ (R, c) ∈ w.locks := by
  simp [Shared.only]

/-- What is known of the shared state in every run. -/
structure Shared.Sound (H : Hashes) (w : Shared) : Prop where
  inv : SharedInv H w
  snapshots : SnapshotInv w

theorem Shared.Sound.owned (h : w.Sound H) : w.db.Owned := ⟨h.inv.db.linkSession, h.snapshots.owner⟩

theorem Shared.Sound.fresh_session (h : w.Sound H) {newId : Uuid} (hnew : newId ∉ w.issued) :
    ∀ s ∈ w.db.sessions, s.id ≠ newId :=
  fun s hs hid => hnew (hid ▸ h.inv.issued s hs)

theorem Shared.Sound.fresh_epoch (h : w.Sound H) {newId : Uuid} (hnew : newId ∉ w.issued) :
    ∀ e ∈ w.db.epochs, e.id ≠ newId :=
  fun e he hid => hnew (hid ▸ h.snapshots.issued e he)

/-! ## Stores -/

theorem getVerified_only {c : ChunkId} :
    getVerified H (w.only R).store R c = getVerified H w.store R c := by
  unfold getVerified
  rw [store_only]

theorem verifyChunk_only {d : ChunkDescriptor} : verifyChunk H (w.only R) R d = verifyChunk H w R d := by
  unfold verifyChunk
  rw [getVerified_only]

theorem readStored_only {d : ChunkDescriptor} :
    readStored H (w.only R).store R d = readStored H w.store R d := by
  unfold readStored
  rw [getVerified_only]

theorem chunkExists_only {c : ChunkId} : chunkExists (w.only R).store R c = chunkExists w.store R c := by
  unfold chunkExists
  rw [store_only]

/-- A write of the repository. -/
theorem create_only {c : ChunkId} {bytes : Bytes} :
    (w.only R).store.create R c bytes =
      fun r c' => if r = R then w.store.create R c bytes r c' else none := by
  funext r c'
  simp only [Store.create, store_only]
  by_cases hr : r = R
  · subst hr
    simp [Shared.only]
  · simp [Shared.only, hr]

theorem putVerified_only {c : ChunkId} {bytes : Bytes} :
    putVerified H (w.only R).store R c bytes =
      (putVerified H w.store R c bytes).map fun store r c => if r = R then store r c else none := by
  unfold putVerified
  split
  · rfl
  · rw [create_only]
    rfl

theorem erase_only {c : ChunkId} : deleteChunk (w.only R).store R c =
    fun r c' => if r = R then deleteChunk w.store R c r c' else none := by
  funext r c'
  by_cases hr : r = R
  · subst hr
    simp [deleteChunk, Store.erase, Shared.only]
  · simp [deleteChunk, Store.erase, Shared.only, hr]

/-! ## Locks -/

theorem unlock_only {c : ChunkId} :
    ((w.only R).unlock (R, c)).locks = ((w.unlock (R, c)).only R).locks := by
  simp only [Shared.unlock, Shared.only, List.filter_filter]
  apply List.filter_congr
  intro k _
  exact Bool.and_comm _ _

theorem publishWaits_only {u : Uuid} {m : ObjectManifest} (hu : w.db.Mine R u) :
    PublishWaits (w.only R) R u m ↔ PublishWaits w R u m := by
  unfold PublishWaits
  have hobjects : (w.only R).db.objects.get? (R, m.objectOid) = w.db.objects.get? (R, m.objectOid) :=
    objects_only
  rw [hobjects]
  simp only [locks_only]
  apply and_congr_left
  intro _
  constructor
  · intro h
    obtain ⟨s, hs, h⟩ := h
    exact ⟨s, (Table.mem_keep.1 hs).1, h⟩
  · intro h
    obtain ⟨s, hs, hid, hopen⟩ := h
    exact ⟨s, Table.mem_keep.2 ⟨hs, decide_eq_true (hu s hs hid)⟩, hid, hopen⟩

/-! ## Steps of the repository -/

/-- A step does on the repository's part what it does on the whole. -/
def Restricts (R : Uuid) (whole part : Option (Shared × Proc)) : Prop :=
  ∀ w' q', whole = some (w', q') → ∃ w'', part = some (w'', q'.forget) ∧ w'.like R w''

theorem Restricts.some {q : Proc} {w'' : Shared} (h : w'.like R w'') (hq : q'.forget = q) :
    Restricts R (some (w', q')) (some (w'', q)) := by
  intro w₁ q₁ he
  cases he
  exact ⟨w'', by rw [hq], h⟩

theorem Restricts.none {part : Option (Shared × Proc)} : Restricts R none part := nofun

/-- The first step of a request of the repository. -/
theorem procStart_only {request : Request} (hs : w.Sound H) (hr : request.repository = R) :
    Restricts R (procStart H cut now w request) (procStart H cut 0 (w.only R) request) := by
  have hissued : ∀ newId : Uuid, newId ∉ (w.only R).issued := fun _ => List.not_mem_nil
  cases request with
  | beginCdc r oid v m newId =>
    obtain rfl : r = R := hr
    simp only [procStart, startBegin]
    split
    · exact .none
    rename_i hnew
    rw [if_neg (hissued newId)]
    have honly : beginCdc (w.only r).db (w.only r).clock r oid v m newId =
        (beginCdc w.db w.clock r oid v m newId).map (Prod.map id (Db.only r)) :=
      beginCdc_only (hs.fresh_session hnew)
    rw [honly]
    cases beginCdc w.db w.clock r oid v m newId with
    | error e => exact .some ⟨rfl, rfl, rfl, rfl⟩ rfl
    | ok x => exact .some ⟨rfl, rfl, rfl, rfl⟩ rfl
  | uploadCdcChunk r oid u index bytes =>
    obtain rfl : r = R := hr
    simp only [procStart]
    have honly : acceptChunk (w.only r).db (w.only r).clock r oid u index bytes =
        acceptChunk w.db w.clock r oid u index bytes := acceptChunk_only
    rw [honly]
    cases acceptChunk w.db w.clock r oid u index bytes with
    | error e => exact .some (like_only w r) rfl
    | ok d => exact .some (like_only w r) rfl
  | uploadBasic r oid body newId =>
    obtain rfl : r = R := hr
    simp only [procStart, startBasic]
    split
    · exact .none
    rename_i hnew
    rw [if_neg (hissued newId)]
    split
    · exact .some ⟨rfl, rfl, rfl, rfl⟩ rfl
    cases chunkObject H cut body with
    | error e =>
      cases e
      exact .some ⟨rfl, rfl, rfl, rfl⟩ rfl
    | ok x =>
      obtain ⟨chunks, m⟩ := x
      simp only
      split
      · exact .some ⟨rfl, rfl, rfl, rfl⟩ rfl
      have honly : ensureUploadSession (w.only r).db (w.only r).clock r m newId =
          (ensureUploadSession w.db w.clock r m newId).map (Prod.map id (Db.only r)) :=
        ensureUploadSession_only (hs.fresh_session hnew)
      rw [honly]
      cases ensureUploadSession w.db w.clock r m newId with
      | error e => exact .some ⟨rfl, rfl, rfl, rfl⟩ rfl
      | ok x => exact .some ⟨rfl, rfl, rfl, rfl⟩ rfl
  | finalizeCdc r oid u =>
    obtain rfl : r = R := hr
    simp only [procStart]
    have honly : loadFinalizableUpload (w.only r).db (w.only r).clock r oid u =
        loadFinalizableUpload w.db w.clock r oid u :=
      loadFinalizableUpload_only
    rw [honly]
    cases loadFinalizableUpload w.db w.clock r oid u with
    | error e => exact .some (like_only w r) rfl
    | ok x =>
      obtain ⟨m, done⟩ := x
      cases done with
      | true => exact .some (like_only w r) rfl
      | false => exact .some (like_only w r) rfl
  | submitSnapshot r fingerprint oids newId =>
    obtain rfl : r = R := hr
    simp only [procStart]
    split
    · exact .none
    rename_i hnew
    rw [if_neg (hissued newId)]
    have honly : submitSnapshot (w.only r).db (w.only r).clock r fingerprint oids newId =
        (submitSnapshot w.db w.clock r fingerprint oids newId).map (Db.only r) :=
      submitSnapshot_only hs.owned (hs.fresh_epoch hnew)
    rw [honly]
    cases submitSnapshot w.db w.clock r fingerprint oids newId with
    | error e => exact .some ⟨rfl, rfl, rfl, rfl⟩ rfl
    | ok db => exact .some ⟨rfl, rfl, rfl, rfl⟩ rfl
  | stage r grace =>
    obtain rfl : r = R := hr
    simp only [procStart]
    have honly : dryRun (w.only r).db r = dryRun w.db r := dryRun_only
    rw [honly]
    split
    · exact .some (like_only w r) rfl
    · exact .some (like_only w r) rfl
  | collectDue r => exact .some (like_only w R) rfl
  | reclaimExpiredUploads r grace =>
    obtain rfl : r = R := hr
    simp only [procStart]
    split
    · exact .some (like_only w r) rfl
    · have hcount : (w.only r).db.sessions.rows.length -
          (reclaimSessions (w.only r).db (w.only r).clock r grace).sessions.rows.length =
          w.db.sessions.rows.length - (reclaimSessions w.db w.clock r grace).sessions.rows.length :=
        reclaimSessions_count_only
      have honly : reclaimSessions (w.only r).db (w.only r).clock r grace =
          (reclaimSessions w.db w.clock r grace).only r := reclaimSessions_only hs.owned
      rw [hcount, honly]
      exact .some ⟨rfl, rfl, rfl, rfl⟩ rfl

/-- The manifest's session is of the repository. -/
theorem mine_of_serves {u : Uuid} {m : ObjectManifest} (h : w.db.Serves u r m) : w.db.Mine r u :=
  fun x hx hid => (h x hx hid).1

theorem procPublish_only {u : Uuid} {m : ObjectManifest} (hu : w.db.Mine R u) :
    Restricts R (procPublish w R u m) (procPublish (w.only R) R u m) := by
  have honly : publishManifest (w.only R).db (w.only R).clock R u m =
      (publishManifest w.db w.clock R u m).map (Prod.map id (Db.only R)) := publishManifest_only
  unfold procPublish
  split
  · exact .none
  rename_i hwaits
  rw [if_neg fun h => hwaits ((publishWaits_only hu).1 h), honly]
  cases publishManifest w.db w.clock R u m with
  | error e => exact .some (like_only w R) rfl
  | ok x => exact .some ⟨rfl, rfl, rfl, rfl⟩ rfl

/-- What a step leaves to the environment. -/
theorem procNext_choice {choice : Choice} (h : procNext H w q choice = some (w', q')) :
    choice = .auto ∨ (∃ r n oid, q = .collecting r n ∧ choice = .tombstone oid) ∨
      ∃ r n entries, q = .listing r n ∧ choice = .listing entries := by
  unfold procNext at h
  split at h
  case h_11 => exact .inr (.inl ⟨_, _, _, rfl, rfl⟩)
  case h_13 => exact .inr (.inr ⟨_, _, _, rfl, rfl⟩)
  case h_18 => cases h
  all_goals exact .inl rfl

/-- A step of the repository that leaves nothing to the environment. -/
theorem procAuto_only (hs : w.Sound H) (hq : q.Serves w) (hr : q.repository? = some R) :
    Restricts R (procNext H w q .auto) (procNext H (w.only R) q.forget .auto) := by
  cases q with
  | idle => cases hr
  | done => cases hr
  | stopped => cases hr
  | listing => exact .none
  | probing u r todo index missing =>
    obtain rfl : r = R := Option.some.inj hr
    cases todo with
    | nil => exact .some (like_only w r) rfl
    | cons c cs =>
      simp only [Proc.forget, procNext, chunkExists_only]
      exact .some (like_only w r) rfl
  | registering r u d bytes =>
    obtain rfl : r = R := Option.some.inj hr
    obtain ⟨-, m, hm, -⟩ := hq
    have honly : registerChunk (w.only r).db r u d = (registerChunk w.db r u d).map (Db.only r) :=
      registerChunk_only hs.owned (mine_of_serves hm)
    simp only [Proc.forget, procNext, locks_only, honly]
    split
    · exact .none
    cases registerChunk w.db r u d with
    | error e => exact .some (like_only w r) rfl
    | ok db => exact .some ⟨rfl, rfl, rfl, rfl⟩ rfl
  | storing r c bytes =>
    obtain rfl : r = R := Option.some.inj hr
    simp only [Proc.forget, procNext, putVerified_only]
    cases putVerified H w.store r c bytes with
    | error e => exact .some (like_only w r) rfl
    | ok store => exact .some ⟨rfl, rfl, rfl, rfl⟩ rfl
  | basic r u m todo =>
    obtain rfl : r = R := Option.some.inj hr
    obtain ⟨-, hm, -⟩ := hq
    cases todo with
    | nil => exact procPublish_only (mine_of_serves hm)
    | cons chunk todo =>
      have honly : registerChunk (w.only r).db r u chunk.descriptor =
          (registerChunk w.db r u chunk.descriptor).map (Db.only r) :=
        registerChunk_only hs.owned (mine_of_serves hm)
      simp only [Proc.forget, procNext, locks_only, honly]
      split
      · exact .none
      cases registerChunk w.db r u chunk.descriptor with
      | error e => exact .some (like_only w r) rfl
      | ok db => exact .some ⟨rfl, rfl, rfl, rfl⟩ rfl
  | basicStoring r u m chunk todo =>
    obtain rfl : r = R := Option.some.inj hr
    simp only [Proc.forget, procNext, putVerified_only]
    cases putVerified H w.store r chunk.descriptor.id chunk.data with
    | error e => exact .some (like_only w r) rfl
    | ok store => exact .some ⟨rfl, rfl, rfl, rfl⟩ rfl
  | verifying r oid u m todo hashed =>
    obtain rfl : r = R := Option.some.inj hr
    cases todo with
    | nil =>
      simp only [Proc.forget, procNext]
      split
      · exact .some (like_only w r) rfl
      · exact procPublish_only (mine_of_serves hq.2)
    | cons d todo =>
      simp only [Proc.forget, procNext, verifyChunk_only]
      cases verifyChunk H w r d with
      | error e => exact .some (like_only w r) rfl
      | ok bytes => exact .some (like_only w r) rfl
  | staging r seconds candidates evidence =>
    obtain rfl : r = R := Option.some.inj hr
    have honly : stageTombstones (w.only r).clock r seconds candidates (w.only r).db =
        (stageTombstones w.clock r seconds candidates w.db).map (Db.only r) := stageTombstones_only
    simp only [Proc.forget, procNext, honly]
    cases stageTombstones w.clock r seconds candidates w.db with
    | error e => exact .some (like_only w r) rfl
    | ok db => exact .some ⟨rfl, rfl, rfl, rfl⟩ rfl
  | collecting r n =>
    obtain rfl : r = R := Option.some.inj hr
    have hnone : NoneDue (w.only r).db (w.only r).clock r ↔ NoneDue w.db w.clock r := noneDue_only
    simp only [Proc.forget, procNext, hnone]
    split
    · exact .some (like_only w r) rfl
    · exact .none
  | draining r todo n =>
    obtain rfl : r = R := Option.some.inj hr
    cases todo with
    | nil => exact .some (like_only w r) rfl
    | cons c todo =>
      have hdecision : drainDecision (w.only r).db r c = drainDecision w.db r c :=
        drainDecision_only hs.owned
      simp only [Proc.forget, procNext, locks_only, hdecision]
      split
      · exact .none
      cases drainDecision w.db r c with
      | dequeue => exact .some ⟨dequeue_only, rfl, rfl, rfl⟩ rfl
      | keep => exact .some (like_only w r) rfl
      | delete =>
        refine .some ⟨rfl, rfl, rfl, ?_⟩ rfl
        simp [Shared.only]
  | deleting r c todo n =>
    obtain rfl : r = R := Option.some.inj hr
    exact .some ⟨rfl, erase_only, rfl, rfl⟩ rfl
  | deleted r c todo n =>
    obtain rfl : r = R := Option.some.inj hr
    have honly : drainCommit (w.only r).db r c = (drainCommit w.db r c).map (Db.only r) :=
      drainCommit_only
    simp only [Proc.forget, procNext, honly]
    cases drainCommit w.db r c with
    | error e => exact .some ⟨rfl, rfl, rfl, unlock_only⟩ rfl
    | ok db => exact .some ⟨rfl, rfl, rfl, unlock_only⟩ rfl

/-- A later step of a process of the repository. -/
theorem procNext_only {choice : Choice} (hs : w.Sound H) (hq : q.Serves w)
    (hr : q.repository? = some R) :
    Restricts R (procNext H w q choice) (procNext H (w.only R) q.forget choice) := by
  intro w' q' h
  rcases procNext_choice h with rfl | ⟨r, n, oid, rfl, rfl⟩ | ⟨r, n, entries, rfl, rfl⟩
  · exact procAuto_only hs hq hr w' q' h
  · obtain rfl : r = R := Option.some.inj hr
    have hdue : NextDue (w.only r).db (w.only r).clock r oid ↔ NextDue w.db w.clock r oid :=
      nextDue_only
    have hchunks : (w.only r).db.chunksOf r oid = w.db.chunksOf r oid := chunksOf_only
    have honly : collectObject (w.only r).db (w.only r).clock r oid =
        (collectObject w.db w.clock r oid).map (Db.only r) := collectObject_only
    revert w' q'
    change Restricts r _ _
    simp only [Proc.forget, procNext, hdue, hchunks, locks_only, honly]
    split
    · cases collectObject w.db w.clock r oid with
      | error e => exact .some (like_only w r) rfl
      | ok db => exact .some ⟨rfl, rfl, rfl, rfl⟩ rfl
    · exact .none
  · obtain rfl : r = R := Option.some.inj hr
    have hlisting : QueueListing (w.only r).db r entries ↔ QueueListing w.db r entries :=
      queueListing_only
    revert w' q'
    change Restricts r _ _
    simp only [Proc.forget, procNext, hlisting]
    split
    · exact .some (like_only w r) rfl
    · exact .none

/-! ## Actions -/

/-- The repository an action on a process is for. -/
def Action.repository? (q : Proc) : Action → Option Uuid
  | .start request => some request.repository
  | .kill | .next _ => q.repository?

/-- What is seen of a process from a repository. -/
def Proc.seen (R : Uuid) (q : Proc) : Proc := if q.repository? = some R then q.forget else .idle

/-- No repository is not this one. -/
theorem none_ne (R : Uuid) : (none : Option Uuid) ≠ some R := (Option.some_ne_none R).symm

theorem Proc.Free.repository? (h : q.Free) : q.repository? = none := by
  cases q <;> first | rfl | cases h

theorem Proc.seen_of_ne (h : q.repository? ≠ some R) : q.seen R = .idle := if_neg h

theorem Proc.held_repository {k : Uuid × ChunkId} (h : q.held = some k) : q.repository? = some k.1 := by
  cases q <;> first | (cases h; rfl) | cases h

/-- What an action on a process of the repository does on the whole, it does on the part. -/
theorem procAct_only {a : Action} (hs : w.Sound H) (hq : q.Serves w) (ha : a.repository? q = some R) :
    Restricts R (procAct H cut now w q a) (procAct H cut 0 (w.only R) (q.seen R) a) := by
  cases a with
  | kill =>
    have hr : q.repository? = some R := ha
    have hheld : q.forget.held = q.held := by cases q <;> rfl
    simp only [procAct, Proc.seen, hr, if_pos, hheld]
    cases hk : q.held with
    | none => exact .some (like_only w R) rfl
    | some k =>
      obtain ⟨r, c⟩ := k
      obtain rfl : r = R := Option.some.inj ((Proc.held_repository hk).symm.trans hr)
      exact .some ⟨rfl, rfl, rfl, unlock_only⟩ rfl
  | start request =>
    simp only [procAct]
    split
    · rename_i hfree
      have hidle : (q.seen R).Free := by
        rw [Proc.seen_of_ne (by rw [hfree.repository?]; simp)]
        trivial
      rw [if_pos hidle]
      exact procStart_only hs (Option.some.inj ha)
    · exact .none
  | next choice =>
    have hr : q.repository? = some R := ha
    simp only [procAct, Proc.seen, hr, if_pos]
    exact procNext_only hs hq hr

/-! ## Steps of another repository -/

theorem only_of_db {db : Db} {issued : List Uuid} {n : Nat} (h : db.only R = w.db.only R) :
    Shared.only R { w with db := db, issued := issued, logicalUploaded := n } = w.only R := by
  simp only [Shared.only, h]

theorem only_of_store {store : Store} (h : store R = w.store R) :
    Shared.only R { w with store := store } = w.only R := by
  have hstore : (fun r c => if r = R then store r c else none) =
      fun r c => if r = R then w.store r c else none := by
    funext r c
    split
    · rename_i hr
      rw [hr, h]
    · rfl
  simp only [Shared.only, hstore]

theorem only_of_locks {locks : List (Uuid × ChunkId)}
    (h : locks.filter (fun k => k.1 = R) = w.locks.filter fun k => k.1 = R) :
    Shared.only R { w with locks := locks } = w.only R := by
  simp only [Shared.only, h]

theorem unlock_other {k : Uuid × ChunkId} (hk : k.1 ≠ R) : (w.unlock k).only R = w.only R := by
  apply only_of_locks
  rw [List.filter_filter]
  apply List.filter_congr
  intro x _
  by_cases hx : x = k
  · subst hx
    simp [hk]
  · simp [hx]

theorem beginCdc_other {db db' : Db} {now v : Nat} {oid : ObjectOid} {m : ObjectManifest} {newId u : Uuid}
    (hr : r ≠ R) (h : beginCdc db now r oid v m newId = .ok (u, db')) : db'.only R = db.only R := by
  unfold beginCdc at h
  split at h
  · cases h
  split at h
  · cases h
  split at h
  · cases h
  · exact resumeOrCreate_other hr h

theorem putVerified_other {c : ChunkId} {bytes : Bytes} {store store' : Store} (hr : r ≠ R)
    (h : putVerified H store r c bytes = .ok store') : store' R = store R := by
  unfold putVerified at h
  split at h
  · cases h
  · cases h
    funext c'
    exact if_neg fun hc => hr hc.1.symm

/-- **A step of another repository does not show.** -/
theorem Turn.other {a : Action} (h : Turn H cut now w q a w' q') (hs : w.Sound H)
    (ha : a.repository? q ≠ some R) : w'.only R = w.only R ∧ q'.repository? ≠ some R := by
  have hne : ∀ {r}, a.repository? q = some r → r ≠ R :=
    fun hr hR => ha (hr.trans (congrArg some hR))
  cases h with
  | reply => exact ⟨rfl, none_ne R⟩
  | refuse => exact ⟨rfl, none_ne R⟩
  | die => exact ⟨rfl, none_ne R⟩
  | rollback hk => exact ⟨unlock_other (hne (Proc.held_repository hk)), none_ne R⟩
  | beginCdc _ _ hb => exact ⟨only_of_db (beginCdc_other (hne rfl) hb), ha⟩
  | acceptChunk => exact ⟨rfl, ha⟩
  | beginBasic _ _ _ _ hb => exact ⟨only_of_db (resumeOrCreate_other (hne rfl) hb), ha⟩
  | beginFinalize => exact ⟨rfl, ha⟩
  | snapshot _ _ hb => exact ⟨only_of_db (submitSnapshot_other (hne rfl) hb), none_ne R⟩
  | dryRun => exact ⟨rfl, ha⟩
  | beginCollect => exact ⟨rfl, ha⟩
  | reclaim => exact ⟨only_of_db (reclaimSessions_other hs.owned (hne rfl)), ha⟩
  | probe => exact ⟨rfl, ha⟩
  | register _ hb => exact ⟨only_of_db (registerChunk_other (hne rfl) hb), ha⟩
  | put hput => exact ⟨only_of_store (putVerified_other (hne rfl) hput), none_ne R⟩
  | basicRegister _ hb => exact ⟨only_of_db (registerChunk_other (hne rfl) hb), ha⟩
  | basicPut hput => exact ⟨only_of_store (putVerified_other (hne rfl) hput), ha⟩
  | verify => exact ⟨rfl, ha⟩
  | publish hq _ hb =>
    refine ⟨only_of_db (publishManifest_other ?_ hb), none_ne R⟩
    obtain rfl | ⟨oid, hashed, rfl⟩ := hq <;> exact hne rfl
  | stage hb => exact ⟨only_of_db (stageTombstones_other (hne rfl) hb), none_ne R⟩
  | collect _ _ hb => exact ⟨only_of_db (collectObject_other (hne rfl) hb), ha⟩
  | collected => exact ⟨rfl, ha⟩
  | list => exact ⟨rfl, ha⟩
  | dequeue => exact ⟨only_of_db (dequeue_other (hne rfl)), ha⟩
  | keep => exact ⟨rfl, ha⟩
  | lock =>
    refine ⟨only_of_locks (List.filter_cons_of_neg ?_), ha⟩
    exact fun hr => hne rfl (of_decide_eq_true hr)
  | erase =>
    refine ⟨only_of_store ?_, ha⟩
    funext c'
    exact if_neg fun hc => hne rfl hc.1.symm
  | commit hb =>
    refine ⟨?_, ha⟩
    refine Eq.trans (only_of_db ?_) (unlock_other (hne rfl))
    exact drainCommit_other (hne rfl) hb
  | abort => exact ⟨unlock_other (hne rfl), none_ne R⟩

/-! ## Readers -/

def Reader.repository? : Reader → Option Uuid
  | .batching r .. | .fetching r .. | .reading r _ => some r
  | _ => none

section Readers

variable {site : Site} {x x' : Reader}

theorem Reader.Free.repository? (h : x.Free) : x.repository? = none := by
  cases x <;> first | rfl | cases h

theorem openObject_only {db : Db} {oid : ObjectOid} :
    openObject (db.only R) R oid = openObject db R oid := by
  unfold openObject
  rw [loadManifest_only]

theorem locateChunk_only {db : Db} {oid : ObjectOid} {index : Nat} :
    locateChunk (db.only R) R oid index = locateChunk db R oid index := by
  unfold locateChunk
  rw [loadManifest_only]

theorem readStart_only {db : Db} {request : ReadRequest} :
    readStart (db.only R) R request = readStart db R request := by
  cases request with
  | batch owner repository identity request => rfl
  | downloadBasic oid => simp only [readStart, openObject_only]
  | downloadCdcManifest oid => simp only [readStart, loadManifest_only]
  | downloadCdcChunk oid index => simp only [readStart, locateChunk_only]

theorem readStart_repository {db : Db} {request : ReadRequest} (hr : r ≠ R) :
    (readStart db r request).repository? ≠ some R := by
  have hne : some r ≠ some R := fun h => hr (Option.some.inj h)
  cases request <;> simp only [readStart] <;> split <;> first | exact hne | exact none_ne R

theorem readNext_only (hr : x.repository? = some R) :
    readNext H site (w.only R).db (w.only R).store x = readNext H site w.db w.store x := by
  cases x with
  | idle => cases hr
  | done => cases hr
  | stopped => cases hr
  | batching r b todo answered =>
    obtain rfl : r = R := Option.some.inj hr
    cases todo with
    | nil => rfl
    | cons object todo =>
      have hexists : objectExists (w.only r).db r object.oid = objectExists w.db r object.oid :=
        objectExists_only
      simp only [readNext, hexists]
  | fetching r oid m todo body =>
    obtain rfl : r = R := Option.some.inj hr
    cases todo with
    | nil => rfl
    | cons d todo => simp only [readNext, readStored_only]
  | reading r d =>
    obtain rfl : r = R := Option.some.inj hr
    simp only [readNext, readStored_only]

/-- A reader stays with its repository until it is done. -/
theorem readNext_repository {db : Db} {store : Store} (h : readNext H site db store x = some x')
    (hr : x.repository? ≠ some R) : x'.repository? ≠ some R := by
  cases x with
  | idle => cases h
  | done => cases h
  | stopped => cases h
  | batching r b todo answered =>
    cases todo with
    | nil => cases h; exact none_ne R
    | cons object todo =>
      simp only [readNext] at h
      split at h <;> cases h
      · exact none_ne R
      · exact hr
  | fetching r oid m todo body =>
    cases todo <;> simp only [readNext] at h <;> split at h <;> cases h <;> first | exact hr | exact none_ne R
  | reading r d =>
    simp only [readNext] at h
    split at h <;> cases h <;> exact none_ne R

end Readers

/-! ## Locks -/

def LockProc.repository? : LockProc → Option Uuid
  | .creating r .. | .listing r _ | .verifying r .. | .reading r .. | .deleting r .. => some r
  | _ => none

/-- What belongs to a repository of the lock table. -/
def LockShared.only (R : Uuid) (w : LockShared) : LockShared where
  locks := w.locks.keep fun l => l.repositoryId = R
  issued := []
  clock := w.clock

section Locks

variable {t t' : LockTable} {v v' : LockShared} {x x' : LockProc}

theorem LockProc.Free.repository? (h : x.Free) : x.repository? = none := by
  cases x <;> first | rfl | cases h

theorem findLock_only {lockId : Uuid} :
    ((t.keep fun l => l.repositoryId = R).find? fun l => l.id = lockId ∧ l.repositoryId = R) =
      t.find? fun l => l.id = lockId ∧ l.repositoryId = R := by
  apply Table.find?_keep
  intro l _ hl
  simp only [decide_eq_true_eq] at hl ⊢
  exact hl.2

theorem lockOwner_only {lockId : Uuid} :
    lockOwner (t.keep fun l => l.repositoryId = R) R lockId = lockOwner t R lockId := by
  unfold lockOwner
  rw [findLock_only]

theorem deleteLock_only {lockId : Uuid} :
    deleteLock (t.keep fun l => l.repositoryId = R) R lockId =
      (deleteLock t R lockId).map (Prod.map id (Table.keep fun l => l.repositoryId = R)) := by
  unfold deleteLock
  rw [findLock_only]
  split
  · rfl
  · exact congrArg (fun t => Except.ok (_, t)) (Table.keep_deleteWhere fun _ _ _ => rfl).symm

theorem loadLocksPage_only {query : LockListQuery} :
    loadLocksPage (t.keep fun l => l.repositoryId = R) R query = loadLocksPage t R query := by
  unfold loadLocksPage
  rw [Table.filter_keep]
  intro l _ hl
  simp only [LockListQuery.selects, Bool.and_eq_true] at hl
  exact hl.1.1.1

theorem verifyLocks_only {identity : Identity} {cursor : Option Uuid} {limit : Option Nat} :
    verifyLocks (t.keep fun l => l.repositoryId = R) R identity cursor limit =
      verifyLocks t R identity cursor limit := by
  unfold verifyLocks
  rw [loadLocksPage_only]

/-- A path is looked up among the locks of the repository, an id among all. -/
theorem createLock_only {now : Nat} {identity : Identity} {path : Text} {newId : Uuid}
    (hnew : ∀ l ∈ t, l.id ≠ newId) :
    createLock (t.keep fun l => l.repositoryId = R) now R identity path newId =
      (createLock t now R identity path newId).map
        (Prod.map id (Table.keep fun l => l.repositoryId = R)) := by
  have hkey : ∀ l ∈ t, l.id = newId → decide (l.repositoryId = R) = true :=
    fun l hl hid => absurd hid (hnew l hl)
  have hget : (t.keep fun l => l.repositoryId = R).get? newId = t.get? newId := Table.get?_keep hkey
  have hholds : (∃ l ∈ t.keep (fun l => l.repositoryId = R), l.Holds R path) ↔
      ∃ l ∈ t, l.Holds R path := by
    simp only [Table.mem_keep, decide_eq_true_eq]
    constructor
    · intro h
      obtain ⟨l, ⟨hl, -⟩, hh⟩ := h
      exact ⟨l, hl, hh⟩
    · intro h
      obtain ⟨l, hl, hh⟩ := h
      exact ⟨l, ⟨hl, hh.1⟩, hh⟩
  have hinsert : insertLock (t.keep fun l => l.repositoryId = R) ⟨newId, R, path, identity.subject, now⟩ =
      (insertLock t ⟨newId, R, path, identity.subject, now⟩).map
        (Table.keep fun l => l.repositoryId = R) := by
    unfold insertLock
    simp only [hget, hholds]
    split
    · rfl
    · exact congrArg Except.ok (Table.keep_insert (by simp) (by exact hkey)).symm
  unfold createLock
  simp only [hinsert]
  cases insertLock t ⟨newId, R, path, identity.subject, now⟩ with
  | error e => cases e <;> rfl
  | ok t' => rfl

/-- A query of the repository. Ids are counted anew on the part. -/
theorem lockNext_only {newId : Uuid} (hissued : ∀ l ∈ v.locks, l.id ∈ v.issued)
    (hr : x.repository? = some R) (h : lockNext v newId x = some (v', x')) :
    ∃ v'', lockNext (v.only R) newId x = some (v'', x') ∧ v''.locks = (v'.only R).locks := by
  cases x with
  | idle => cases hr
  | done => cases hr
  | stopped => cases hr
  | creating r identity path =>
    obtain rfl : r = R := Option.some.inj hr
    simp only [lockNext] at h ⊢
    split at h
    · cases h
    rename_i hnew
    rw [List.contains_iff_mem] at hnew
    have honly : createLock (v.only r).locks (v.only r).clock r identity path newId =
        (createLock v.locks v.clock r identity path newId).map
          (Prod.map id (Table.keep fun l => l.repositoryId = r)) :=
      createLock_only fun l hl hid => hnew (hid ▸ hissued l hl)
    rw [if_neg (by simp [LockShared.only]), honly]
    cases hc : createLock v.locks v.clock r identity path newId with
    | error e =>
      simp only [hc] at h
      cases h
      exact ⟨_, rfl, rfl⟩
    | ok y =>
      simp only [hc] at h
      cases h
      exact ⟨_, rfl, rfl⟩
  | listing r query =>
    obtain rfl : r = R := Option.some.inj hr
    have honly : loadLocksPage (v.only r).locks r query = loadLocksPage v.locks r query :=
      loadLocksPage_only
    simp only [lockNext, honly]
    cases h
    exact ⟨_, rfl, rfl⟩
  | verifying r identity cursor limit =>
    obtain rfl : r = R := Option.some.inj hr
    have honly : verifyLocks (v.only r).locks r identity cursor limit =
        verifyLocks v.locks r identity cursor limit := verifyLocks_only
    simp only [lockNext, honly]
    cases h
    exact ⟨_, rfl, rfl⟩
  | reading r identity lockId force =>
    obtain rfl : r = R := Option.some.inj hr
    have honly : lockOwner (v.only r).locks r lockId = lockOwner v.locks r lockId := lockOwner_only
    simp only [lockNext, honly] at h ⊢
    split at h
    · cases h
      exact ⟨_, rfl, rfl⟩
    · split at h
      · rename_i hmay
        cases h
        exact ⟨_, if_pos hmay, rfl⟩
      · rename_i hmay
        cases h
        exact ⟨_, if_neg hmay, rfl⟩
  | deleting r identity lockId force =>
    obtain rfl : r = R := Option.some.inj hr
    have honly : deleteLock (v.only r).locks r lockId =
        (deleteLock v.locks r lockId).map (Prod.map id (Table.keep fun l => l.repositoryId = r)) :=
      deleteLock_only
    simp only [lockNext, honly] at h ⊢
    cases hd : deleteLock v.locks r lockId with
    | error e =>
      simp only [hd] at h
      cases h
      exact ⟨_, rfl, rfl⟩
    | ok y =>
      simp only [hd] at h
      cases h
      exact ⟨_, rfl, rfl⟩

/-- A query of another repository does not show. -/
theorem lockNext_other {newId : Uuid} (hr : x.repository? ≠ some R)
    (h : lockNext v newId x = some (v', x')) :
    (v'.only R).locks = (v.only R).locks ∧ x'.repository? ≠ some R := by
  have hne : ∀ {r}, x.repository? = some r → r ≠ R := fun hx hR => hr (hx.trans (congrArg some hR))
  cases x with
  | idle => cases h
  | done => cases h
  | stopped => cases h
  | creating r identity path =>
    simp only [lockNext] at h
    split at h
    · cases h
    split at h
    · cases h
      exact ⟨rfl, none_ne R⟩
    · rename_i lock locks hc
      cases h
      obtain ⟨-, rfl, -, -⟩ := createLock_ok hc
      exact ⟨Table.keep_insert_other (by simp [hne rfl]), none_ne R⟩
  | listing r query =>
    cases h
    exact ⟨rfl, none_ne R⟩
  | verifying r identity cursor limit =>
    cases h
    exact ⟨rfl, none_ne R⟩
  | reading r identity lockId force =>
    simp only [lockNext] at h
    split at h
    · cases h
      exact ⟨rfl, none_ne R⟩
    · split at h
      · cases h
        exact ⟨rfl, hr⟩
      · cases h
        exact ⟨rfl, none_ne R⟩
  | deleting r identity lockId force =>
    simp only [lockNext] at h
    split at h
    · cases h
      exact ⟨rfl, none_ne R⟩
    · rename_i lock locks hd
      cases h
      refine ⟨?_, none_ne R⟩
      unfold deleteLock at hd
      split at hd
      · cases hd
      · cases hd
        apply Table.keep_deleteWhere_other
        intro l _ hl
        simp only [decide_eq_true_eq] at hl
        simp [hl, (hne rfl).symm]

theorem lockStart_repository {identity : Identity} {request : LockRequest} (hr : r ≠ R) :
    (lockStart r identity request).repository? ≠ some R := by
  have hne : some r ≠ some R := fun h => hr (Option.some.inj h)
  cases request with
  | create path =>
    simp only [lockStart]
    split
    · exact none_ne R
    · exact hne
  | list query => exact hne
  | verify cursor limit => exact hne
  | unlock lockId force => exact hne

end Locks

end GitLfsDelta
