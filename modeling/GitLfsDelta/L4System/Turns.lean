import GitLfsDelta.L4System.Server
import GitLfsDelta.L3Server.RefCounts

/-!
# What a step can do

`Turn` lists every move of a process, with the transaction or store call behind it and
the condition under which it happens; `procAct_turn` says the step functions do nothing
else, and `step_cases` the same for the whole system. Invariants are proved over turns
and never unfold a step function.

`Owned` is the first of them: an open drain transaction holds its lock, and no two hold
the same one.
-/
namespace GitLfsDelta

/-- Every move of a process, as `shared, process ⟶ shared, process`. -/
inductive Turn (H : Hashes) (cut : Cutter) (now : Nat) :
    Shared → Proc → Action → Shared → Proc → Prop
  -- an error reply, or the last reply of a request, changes nothing
  | reply {w q a response} : q.held = none → Turn H cut now w q a w (.done response)
  | refuse {w q a newId response} : newId ∉ w.issued → q.held = none →
      Turn H cut now w q a { w with issued := newId :: w.issued } (.done response)
  | die {w q} : q.held = none → Turn H cut now w q .kill w .stopped
  | rollback {w q k} : q.held = some k → Turn H cut now w q .kill (w.unlock k) .stopped
  -- first steps
  | beginCdc {w q r oid v m newId u db} : q.Free → newId ∉ w.issued →
      beginCdc w.db w.clock r oid v m newId = .ok (u, db) →
      Turn H cut now w q (.start (.beginCdc r oid v m newId))
        { w with issued := newId :: w.issued, db := db } (.probing u r (m.chunks.map (·.id)) 0 [])
  | acceptChunk {w q r oid u index bytes d} : q.Free →
      acceptChunk w.db w.clock r oid u index bytes = .ok d →
      Turn H cut now w q (.start (.uploadCdcChunk r oid u index bytes)) w (.registering r u d bytes)
  | beginBasic {w q r oid body newId chunks m u db} : q.Free → newId ∉ w.issued →
      chunkObject H cut body = .ok (chunks, m) → m.objectOid = oid →
      ensureUploadSession w.db w.clock r m newId = .ok (u, db) →
      Turn H cut now w q (.start (.uploadBasic r oid body newId))
        { w with issued := newId :: w.issued, db := db } (.basic r u m chunks)
  | beginFinalize {w q r oid u m} : q.Free →
      loadFinalizableUpload w.db w.clock r oid u = .ok (m, false) →
      Turn H cut now w q (.start (.finalizeCdc r oid u)) w (.verifying r oid u m m.chunks [])
  | snapshot {w q r fp oids newId db} : q.Free → newId ∉ w.issued →
      submitSnapshot w.db w.clock r fp oids newId = .ok db →
      Turn H cut now w q (.start (.submitSnapshot r fp oids newId))
        { w with issued := newId :: w.issued, db := db } (.done (.admin oids.length))
  | dryRun {w q r grace} : q.Free →
      Turn H cut now w q (.start (.stage r grace)) w (.staging r grace (dryRun w.db r) now)
  | beginCollect {w q r} : q.Free →
      Turn H cut now w q (.start (.collectDue r)) w (.collecting r 0)
  | reclaim {w q r grace n} : q.Free →
      Turn H cut now w q (.start (.reclaimExpiredUploads r grace))
        { w with db := reclaimSessions w.db w.clock r grace } (.listing r n)
  -- later steps of an upload
  | probe {w u r c cs i missing missing'} :
      Turn H cut now w (.probing u r (c :: cs) i missing) (.next .auto) w
        (.probing u r cs (i + 1) missing')
  | register {w r u d bytes db} : (r, d.id) ∉ w.locks → registerChunk w.db r u d = .ok db →
      Turn H cut now w (.registering r u d bytes) (.next .auto) { w with db := db }
        (.storing r d.id bytes)
  | put {w r c bytes store} : putVerified H w.store r c bytes = .ok store →
      Turn H cut now w (.storing r c bytes) (.next .auto) { w with store := store }
        (.done .noContent)
  | basicRegister {w r u m chunk todo db} : (r, chunk.descriptor.id) ∉ w.locks →
      registerChunk w.db r u chunk.descriptor = .ok db →
      Turn H cut now w (.basic r u m (chunk :: todo)) (.next .auto) { w with db := db }
        (.basicStoring r u m chunk todo)
  | basicPut {w r u m chunk todo store} :
      putVerified H w.store r chunk.descriptor.id chunk.data = .ok store →
      Turn H cut now w (.basicStoring r u m chunk todo) (.next .auto) { w with store := store }
        (.basic r u m todo)
  | verify {w r oid u m d todo hashed bytes} : verifyChunk H w r d = .ok bytes →
      Turn H cut now w (.verifying r oid u m (d :: todo) hashed) (.next .auto) w
        (.verifying r oid u m todo (hashed ++ bytes))
  | publish {w q r u m b db n} :
      (q = .basic r u m [] ∨ ∃ oid hashed, q = .verifying r oid u m [] hashed) →
      ¬ PublishWaits w r u m → publishManifest w.db w.clock r u m = .ok (b, db) →
      Turn H cut now w q (.next .auto) { w with db := db, logicalUploaded := n } (.done .noContent)
  -- later steps of collection
  | stage {w r seconds cs ev db n} : stageTombstones w.clock r seconds cs w.db = .ok db →
      Turn H cut now w (.staging r seconds cs ev) (.next .auto) { w with db := db }
        (.done (.admin n))
  | collect {w r n oid db} : NextDue w.db w.clock r oid →
      (∀ o ∈ w.db.chunksOf r oid, (r, o.chunkId) ∉ w.locks) →
      collectObject w.db w.clock r oid = .ok db →
      Turn H cut now w (.collecting r n) (.next (.tombstone oid)) { w with db := db }
        (.collecting r (n + 1))
  | collected {w r n} : NoneDue w.db w.clock r →
      Turn H cut now w (.collecting r n) (.next .auto) w (.listing r n)
  | list {w r n entries} : QueueListing w.db r entries →
      Turn H cut now w (.listing r n) (.next (.listing entries)) w
        (.draining r (entries.map (·.chunkId)) n)
  | dequeue {w r c todo n} : (r, c) ∉ w.locks → drainDecision w.db r c = .dequeue →
      Turn H cut now w (.draining r (c :: todo) n) (.next .auto) { w with db := w.db.dequeue r c }
        (.draining r todo n)
  | keep {w r c todo n} : (r, c) ∉ w.locks → drainDecision w.db r c = .keep →
      Turn H cut now w (.draining r (c :: todo) n) (.next .auto) w (.draining r todo n)
  | lock {w r c todo n} : (r, c) ∉ w.locks → drainDecision w.db r c = .delete →
      Turn H cut now w (.draining r (c :: todo) n) (.next .auto)
        { w with locks := (r, c) :: w.locks } (.deleting r c todo n)
  | erase {w r c todo n} :
      Turn H cut now w (.deleting r c todo n) (.next .auto)
        { w with store := deleteChunk w.store r c } (.deleted r c todo n)
  | commit {w r c todo n db} : drainCommit w.db r c = .ok db →
      Turn H cut now w (.deleted r c todo n) (.next .auto) { w.unlock (r, c) with db := db }
        (.draining r todo n)
  | abort {w r c todo n e} : drainCommit w.db r c = .error e →
      Turn H cut now w (.deleted r c todo n) (.next .auto) (w.unlock (r, c))
        (.done (.adminFailed (.database e)))

theorem Proc.Free.held {q : Proc} (h : q.Free) : q.held = none := by
  cases q <;> first | rfl | cases h

variable {H : Hashes} {cut : Cutter} {now : Nat} {w w' : Shared} {q q' : Proc}

theorem procStart_turn {request : Request} (hq : q.Free)
    (h : procStart H cut now w request = some (w', q')) :
    Turn H cut now w q (.start request) w' q' := by
  have hheld := hq.held
  cases request with
  | beginCdc r oid v m newId =>
    simp only [procStart, startBegin] at h
    split at h; · cases h
    rename_i hid
    split at h
    · cases h; exact .refuse hid hheld
    · rename_i u db hb
      cases h; exact .beginCdc hq hid hb
  | uploadCdcChunk r oid u index bytes =>
    simp only [procStart] at h
    split at h
    · cases h; exact .reply hheld
    · rename_i d hd
      cases h; exact .acceptChunk hq hd
  | uploadBasic r oid body newId =>
    simp only [procStart, startBasic] at h
    split at h; · cases h
    rename_i hid
    split at h
    · cases h; exact .refuse hid hheld
    split at h
    · cases h; exact .refuse hid hheld
    rename_i chunks m hc
    split at h
    · cases h; exact .refuse hid hheld
    rename_i hoid
    split at h
    · cases h; exact .refuse hid hheld
    · rename_i u db hs
      cases h; exact .beginBasic hq hid hc (by simpa using hoid) hs
  | finalizeCdc r oid u =>
    simp only [procStart] at h
    split at h
    · cases h; exact .reply hheld
    · cases h; exact .reply hheld
    · rename_i m hm
      cases h; exact .beginFinalize hq hm
  | submitSnapshot r fp oids newId =>
    simp only [procStart] at h
    split at h; · cases h
    rename_i hid
    split at h
    · cases h; exact .refuse hid hheld
    · rename_i db hs
      cases h; exact .snapshot hq hid hs
  | stage r grace =>
    simp only [procStart] at h
    split at h
    · cases h; exact .reply hheld
    · cases h; exact .dryRun hq
  | collectDue r =>
    simp only [procStart] at h
    cases h; exact .beginCollect hq
  | reclaimExpiredUploads r grace =>
    simp only [procStart] at h
    split at h
    · cases h; exact .reply hheld
    · cases h; exact .reclaim hq

theorem procPublish_turn {r u : Uuid} {m : ObjectManifest} (hheld : q.held = none)
    (hq : q = .basic r u m [] ∨ ∃ oid hashed, q = .verifying r oid u m [] hashed)
    (h : procPublish w r u m = some (w', q')) : Turn H cut now w q (.next .auto) w' q' := by
  unfold procPublish at h
  split at h; · cases h
  rename_i hwait
  split at h
  · cases h; exact .reply hheld
  · rename_i b db hp
    cases h; exact .publish hq hwait hp

theorem procNext_turn {choice : Choice} (h : procNext H w q choice = some (w', q')) :
    Turn H cut now w q (.next choice) w' q' := by
  unfold procNext at h
  split at h
  · cases h; exact .reply rfl
  · cases h; exact .probe
  · split at h; · cases h
    rename_i hl
    split at h
    · cases h; exact .reply rfl
    · rename_i db hr
      cases h; exact .register hl hr
  · split at h
    · cases h; exact .reply rfl
    · rename_i store hs
      cases h; exact .put hs
  · split at h; · cases h
    rename_i hl
    split at h
    · cases h; exact .reply rfl
    · rename_i db hr
      cases h; exact .basicRegister hl hr
  · split at h
    · cases h; exact .reply rfl
    · rename_i store hs
      cases h; exact .basicPut hs
  · exact procPublish_turn rfl (.inl rfl) h
  · split at h
    · cases h; exact .reply rfl
    · rename_i bytes hv
      cases h; exact .verify hv
  · split at h
    · cases h; exact .reply rfl
    · exact procPublish_turn rfl (.inr ⟨_, _, rfl⟩) h
  · split at h
    · cases h; exact .reply rfl
    · rename_i db hs
      cases h; exact .stage hs
  · split at h
    · rename_i hdue
      split at h
      · cases h; exact .reply rfl
      · rename_i db hc
        cases h; exact .collect hdue.1 hdue.2 hc
    · cases h
  · split at h
    · rename_i hnone
      cases h; exact .collected hnone
    · cases h
  · split at h
    · rename_i hlist
      cases h; exact .list hlist
    · cases h
  · cases h; exact .reply rfl
  · split at h; · cases h
    rename_i hl
    split at h
    · rename_i hd
      cases h; exact .dequeue hl hd
    · rename_i hd
      cases h; exact .keep hl hd
    · rename_i hd
      cases h; exact .lock hl hd
  · cases h; exact .erase
  · split at h
    · rename_i e he
      cases h; exact .abort he
    · rename_i db hc
      cases h; exact .commit hc
  · cases h

/-- The step functions do nothing but turns. -/
theorem procAct_turn {a : Action} (h : procAct H cut now w q a = some (w', q')) :
    Turn H cut now w q a w' q' := by
  cases a with
  | kill =>
    simp only [procAct] at h
    split at h
    · rename_i hk
      cases h; exact .die hk
    · rename_i k hk
      cases h; exact .rollback hk
  | start request =>
    simp only [procAct] at h
    split at h
    · rename_i hq
      exact procStart_turn hq h
    · cases h
  | next choice => exact procNext_turn h

/-- `finalize_cdc` publishes only what has the object's SHA-256. -/
theorem procAct_hashed {a : Action} {r u : Uuid} {oid : ObjectOid} {m : ObjectManifest}
    {hashed : Bytes} (h : procAct H cut now w (.verifying r oid u m [] hashed) a = some (w', q')) :
    w' = w ∨ a = .next .auto ∧ H.sha256 hashed = oid := by
  cases a with
  | kill =>
    simp only [procAct, Proc.held] at h
    cases h; exact .inl rfl
  | start request =>
    simp only [procAct, Proc.Free] at h
    cases h
  | next choice =>
    cases choice with
    | auto =>
      simp only [procAct, procNext] at h
      split at h
      · cases h; exact .inl rfl
      · rename_i hsha
        exact .inr ⟨rfl, by simpa using hsha⟩
    | tombstone => cases h
    | listing => cases h

theorem verifyChunk_ok {r : Uuid} {d : ChunkDescriptor} {b : Bytes} (h : verifyChunk H w r d = .ok b) :
    w.store r d.id = some b ∧ H.blake3 b = d.id ∧ b.length = d.length.toNat := by
  unfold verifyChunk at h
  split at h
  · cases h
  · cases h
  · rename_i bytes hg
    split at h
    · cases h
    · rename_i hlen
      cases h
      obtain ⟨hb, hid⟩ := getVerified_ok.1 hg
      exact ⟨hb, hid, by simpa using hlen⟩

theorem verifyChunk_stored {r : Uuid} {d : ChunkDescriptor} {b : Bytes}
    (h : w.store r d.id = some b) (hid : H.blake3 b = d.id) (hlen : b.length = d.length.toNat) :
    verifyChunk H w r d = .ok b := by
  simp [verifyChunk, getVerified_ok.2 ⟨h, hid⟩, hlen]

/-- The last step of `finalize_cdc`. -/
theorem procNext_verified {choice : Choice} {r u : Uuid} {oid : ObjectOid} {m : ObjectManifest}
    {hashed : Bytes}
    (h : procNext H w (.verifying r oid u m [] hashed) choice = some (w', q')) :
    (H.sha256 hashed ≠ oid ∧ w' = w ∧ q' = .done (.failed ⟨422, "object SHA-256 mismatch"⟩)) ∨
    H.sha256 hashed = oid ∧ ¬ PublishWaits w r u m ∧
      ((∃ e, publishManifest w.db w.clock r u m = .error e ∧ w' = w ∧ q' = .done (.failed e)) ∨
        ∃ b db, publishManifest w.db w.clock r u m = .ok (b, db) ∧
          w' = { w with
            db := db
            logicalUploaded := w.logicalUploaded + if b then m.objectSize.toNat else 0 } ∧
          q' = .done .noContent) := by
  cases choice with
  | tombstone => cases h
  | listing => cases h
  | auto =>
    simp only [procNext] at h
    split at h
    · rename_i hsha
      cases h
      exact .inl ⟨hsha, rfl, rfl⟩
    · rename_i hsha
      unfold procPublish at h
      split at h; · cases h
      rename_i hwait
      refine .inr ⟨by simpa using hsha, hwait, ?_⟩
      split at h
      · rename_i e he
        cases h
        exact .inl ⟨e, he, rfl, rfl⟩
      · rename_i b db hp
        cases h
        exact .inr ⟨b, db, hp, rfl, rfl⟩

/-! ## Which turns touch which table -/

/-- The repository and manifest of the session a request creates or resumes. -/
def Request.manifest? (H : Hashes) (cut : Cutter) : Request → Option (Uuid × ObjectManifest)
  | .beginCdc r _ _ m _ => some (r, m)
  | .uploadBasic r _ body _ =>
    match chunkObject H cut body with
    | .error _ => none
    | .ok (_, m) => some (r, m)
  | _ => none

/-- Sessions age, unless the turn begins an upload. -/
theorem Turn.sessions {a : Action} (h : Turn H cut now w q a w' q') :
    SessionsAge w.clock w.db.sessions w'.db.sessions ∨
    ∃ e r m newId u request, a = .start request ∧ request.manifest? H cut = some (r, m) ∧
      (m.validate = .ok () ∨ ∃ body chunks, chunkObject H cut body = .ok (chunks, m)) ∧
      resumeOrCreate e w.db w.clock r m newId = .ok (u, w'.db) := by
  cases h with
  | beginCdc _ _ hb =>
    obtain ⟨hv, -, hs⟩ := beginCdc_ok hb
    exact .inr ⟨_, _, _, _, _, _, rfl, rfl, .inl hv, hs⟩
  | beginBasic _ _ hc _ hs =>
    refine .inr ⟨_, _, _, _, _, _, rfl, ?_, .inr ⟨_, _, hc⟩, hs⟩
    simp only [Request.manifest?, hc]
  | snapshot _ _ hs =>
    obtain ⟨⟨E, R, rfl⟩, -⟩ := submitSnapshot_ok hs
    exact .inl (.refl _ _)
  | @reclaim _ r grace =>
    obtain ⟨S, L, Q, hS, hage, -⟩ := reclaimSessions_spec w.db w.clock r grace
    rw [hS]
    exact .inl hage
  | register _ hr =>
    obtain ⟨⟨C, L, rfl⟩, -⟩ := registerChunk_ok hr
    exact .inl (.refl _ _)
  | basicRegister _ hr =>
    obtain ⟨⟨C, L, rfl⟩, -⟩ := registerChunk_ok hr
    exact .inl (.refl _ _)
  | publish _ _ hp => exact .inl (publishManifest_frame hp).1
  | stage hs =>
    obtain ⟨⟨T, rfl⟩, -⟩ := stageTombstones_ok hs
    exact .inl (.refl _ _)
  | collect _ _ hc =>
    obtain ⟨⟨C, Q, rfl⟩, -⟩ := collectObject_ok hc
    exact .inl (.refl _ _)
  | commit hc =>
    obtain ⟨rfl, -⟩ := drainCommit_ok hc
    exact .inl (.refl _ _)
  | _ => exact .inl (.refl _ _)

theorem Turn.clock {a : Action} (h : Turn H cut now w q a w' q') : w'.clock = w.clock := by
  cases h <;> rfl

/-- A process that is about to publish the manifest in the session. -/
def Proc.Publishes (q : Proc) (r u : Uuid) (m : ObjectManifest) : Prop :=
  q = .basic r u m [] ∨ ∃ oid hashed, q = .verifying r oid u m [] hashed

/-- Objects change by a publication or under a due tombstone. -/
theorem Turn.objects {a : Action} (h : Turn H cut now w q a w' q') :
    w'.db.objects = w.db.objects ∨
    (∃ r u m b, q.Publishes r u m ∧ publishManifest w.db w.clock r u m = .ok (b, w'.db) ∧
      w'.store = w.store) ∨
    ∃ r oid, NextDue w.db w.clock r oid ∧
      w'.db.objects = w.db.objects.deleteWhere fun o => o.repositoryId = r ∧ o.oid = oid := by
  cases h with
  | beginCdc _ _ hb =>
    obtain ⟨⟨S, rfl⟩, -⟩ := resumeOrCreate_ok (beginCdc_ok hb).2.2
    exact .inl rfl
  | beginBasic _ _ _ _ hs =>
    obtain ⟨⟨S, rfl⟩, -⟩ := resumeOrCreate_ok hs
    exact .inl rfl
  | snapshot _ _ hs =>
    obtain ⟨⟨E, R, rfl⟩, -⟩ := submitSnapshot_ok hs
    exact .inl rfl
  | @reclaim _ r grace =>
    obtain ⟨S, L, Q, hS, -⟩ := reclaimSessions_spec w.db w.clock r grace
    rw [hS]
    exact .inl rfl
  | register _ hr =>
    obtain ⟨⟨C, L, rfl⟩, -⟩ := registerChunk_ok hr
    exact .inl rfl
  | basicRegister _ hr =>
    obtain ⟨⟨C, L, rfl⟩, -⟩ := registerChunk_ok hr
    exact .inl rfl
  | publish hq _ hp => exact .inr (.inl ⟨_, _, _, _, hq, hp, rfl⟩)
  | stage hs =>
    obtain ⟨⟨T, rfl⟩, -⟩ := stageTombstones_ok hs
    exact .inl rfl
  | collect hdue _ hc =>
    obtain ⟨⟨C, Q, rfl⟩, -⟩ := collectObject_ok hc
    exact .inr (.inr ⟨_, _, hdue, rfl⟩)
  | commit hc =>
    obtain ⟨rfl, -⟩ := drainCommit_ok hc
    exact .inl rfl
  | _ => exact .inl rfl

/-- Rows of `objects` go away by a `collect_due` transaction only. -/
theorem Turn.objects_kept {a : Action} (h : Turn H cut now w q a w' q') :
    (∀ o ∈ w.db.objects, o ∈ w'.db.objects) ∨
    ∃ r n oid, q = .collecting r n ∧ a = .next (.tombstone oid) ∧ NextDue w.db w.clock r oid ∧
      w'.db.objects = w.db.objects.deleteWhere fun o => o.repositoryId = r ∧ o.oid = oid := by
  cases h with
  | beginCdc _ _ hb =>
    obtain ⟨⟨S, rfl⟩, -⟩ := resumeOrCreate_ok (beginCdc_ok hb).2.2
    exact .inl fun o ho => ho
  | beginBasic _ _ _ _ hs =>
    obtain ⟨⟨S, rfl⟩, -⟩ := resumeOrCreate_ok hs
    exact .inl fun o ho => ho
  | snapshot _ _ hs =>
    obtain ⟨⟨E, R, rfl⟩, -⟩ := submitSnapshot_ok hs
    exact .inl fun o ho => ho
  | @reclaim _ r grace =>
    obtain ⟨S, L, Q, hS, -⟩ := reclaimSessions_spec w.db w.clock r grace
    rw [hS]
    exact .inl fun o ho => ho
  | register _ hr =>
    obtain ⟨⟨C, L, rfl⟩, -⟩ := registerChunk_ok hr
    exact .inl fun o ho => ho
  | basicRegister _ hr =>
    obtain ⟨⟨C, L, rfl⟩, -⟩ := registerChunk_ok hr
    exact .inl fun o ho => ho
  | publish _ _ hp => exact .inl (publishManifest_objects hp).1
  | stage hs =>
    obtain ⟨⟨T, rfl⟩, -⟩ := stageTombstones_ok hs
    exact .inl fun o ho => ho
  | collect hdue _ hc =>
    obtain ⟨⟨C, Q, rfl⟩, -⟩ := collectObject_ok hc
    exact .inr ⟨_, _, _, rfl, rfl, hdue, rfl⟩
  | commit hc =>
    obtain ⟨rfl, -⟩ := drainCommit_ok hc
    exact .inl fun o ho => ho
  | _ => exact .inl fun o ho => ho

/-! ## Steps of the system -/

variable {ι : Type} [DecidableEq ι] {s s' : State ι} {l : Label ι}

theorem step_act {p : ι} {a : Action} (h : step H cut s (.act p a) = some s') :
    ∃ w q, procAct H cut s.hist.now s.toShared (s.procs p) a = some (w, q) ∧ s' = s.move p w q := by
  simp only [step, Option.map_eq_some_iff] at h
  obtain ⟨⟨w, q⟩, hact, rfl⟩ := h
  exact ⟨w, q, hact, rfl⟩

theorem step_cases (h : step H cut s l = some s') :
    (∃ δ, l = .advance δ ∧
      s' = { s with clock := s.clock + δ, hist := s.hist.after 0 s.db s.db }) ∨
    ∃ p a w q, l = .act p a ∧ Turn H cut s.hist.now s.toShared (s.procs p) a w q ∧
      s' = s.move p w q := by
  cases l with
  | advance δ =>
    simp only [step, Option.some.injEq] at h
    exact .inl ⟨δ, rfl, h.symm⟩
  | act p a =>
    obtain ⟨w, q, hact, rfl⟩ := step_act h
    exact .inr ⟨p, a, w, q, rfl, procAct_turn hact, rfl⟩

theorem step_next {p : ι} {choice : Choice} {w : Shared} {q : Proc}
    (h : procNext H s.toShared (s.procs p) choice = some (w, q)) :
    step H cut s (.act p (.next choice)) = some (s.move p w q) := by
  simp [step, procAct, h]

theorem step_start {p : ι} {request : Request} {w : Shared} {q : Proc} (hf : (s.procs p).Free)
    (h : procStart H cut s.hist.now s.toShared request = some (w, q)) :
    step H cut s (.act p (.start request)) = some (s.move p w q) := by
  simp [step, procAct, hf, h]

@[simp] theorem move_toShared (s : State ι) (p : ι) (w : Shared) (q : Proc) :
    (s.move p w q).toShared = w := rfl

@[simp] theorem move_procs_self (s : State ι) (p : ι) (w : Shared) (q : Proc) :
    (s.move p w q).procs p = q := by
  simp [State.move]

theorem move_procs (s : State ι) (p p' : ι) (w : Shared) (q : Proc) :
    (s.move p w q).procs p' = if p' = p then q else s.procs p' := by
  simp [State.move, Function.update_apply]

/-- Bytes leave the store only when a drain deletes them. -/
theorem Turn.store {a : Action} (h : Turn H cut now w q a w' q') :
    (∀ r c b, w.store r c = some b → w'.store r c = some b) ∨
    ∃ r c todo n, q = .deleting r c todo n ∧ a = .next .auto ∧
      w' = { w with store := deleteChunk w.store r c } := by
  cases h with
  | put hs =>
    obtain ⟨-, rfl⟩ := putVerified_ok.1 hs
    exact .inl fun r c b hb => create_of_some hb
  | basicPut hs =>
    obtain ⟨-, rfl⟩ := putVerified_ok.1 hs
    exact .inl fun r c b hb => create_of_some hb
  | erase => exact .inr ⟨_, _, _, _, rfl, rfl, rfl⟩
  | _ => exact .inl fun _ _ _ hb => hb

/-! ## Locks -/

/-- Open drain transactions hold their locks, each its own. -/
structure Owned (s : State ι) : Prop where
  holds : ∀ p k, (s.procs p).held = some k → k ∈ s.locks
  once : ∀ p p' k, (s.procs p).held = some k → (s.procs p').held = some k → p = p'

/-- How a turn moves the lock it holds. -/
theorem Turn.held {a : Action} (h : Turn H cut now w q a w' q') :
    (q'.held = q.held ∧ w'.locks = w.locks) ∨
    (∃ k, q.held = none ∧ q'.held = some k ∧ k ∉ w.locks ∧ w'.locks = k :: w.locks) ∨
    ∃ k, q.held = some k ∧ q'.held = none ∧ w'.locks = w.locks.filter (· ≠ k) := by
  cases h with
  | reply hq => exact .inl ⟨hq.symm, rfl⟩
  | refuse _ hq => exact .inl ⟨hq.symm, rfl⟩
  | die hq => exact .inl ⟨hq.symm, rfl⟩
  | rollback hq => exact .inr (.inr ⟨_, hq, rfl, rfl⟩)
  | beginCdc hq => exact .inl ⟨hq.held.symm, rfl⟩
  | acceptChunk hq => exact .inl ⟨hq.held.symm, rfl⟩
  | beginBasic hq => exact .inl ⟨hq.held.symm, rfl⟩
  | beginFinalize hq => exact .inl ⟨hq.held.symm, rfl⟩
  | snapshot hq => exact .inl ⟨hq.held.symm, rfl⟩
  | dryRun hq => exact .inl ⟨hq.held.symm, rfl⟩
  | beginCollect hq => exact .inl ⟨hq.held.symm, rfl⟩
  | reclaim hq => exact .inl ⟨hq.held.symm, rfl⟩
  | publish hq => rcases hq with rfl | ⟨_, _, rfl⟩ <;> exact .inl ⟨rfl, rfl⟩
  | lock hl => exact .inr (.inl ⟨_, rfl, rfl, hl, rfl⟩)
  | commit => exact .inr (.inr ⟨_, rfl, rfl, rfl⟩)
  | abort => exact .inr (.inr ⟨_, rfl, rfl, rfl⟩)
  | _ => exact .inl ⟨rfl, rfl⟩

theorem Owned.step (ho : Owned s) (h : step H cut s l = some s') : Owned s' := by
  rcases step_cases h with ⟨δ, -, rfl⟩ | ⟨p, a, w, q, -, ht, rfl⟩
  · exact ⟨ho.holds, ho.once⟩
  rcases ht.held with ⟨hq, hl⟩ | ⟨k, hq, hq', hk, hl⟩ | ⟨k, hq, hq', hl⟩
  · -- the lock held by `p`, if any, does not change
    have hsame : ∀ p', ((s.move p w q).procs p').held = (s.procs p').held := by
      intro p'; rw [move_procs]; split
      · rename_i e; rw [e, hq]
      · rfl
    refine ⟨fun p' k' hk' => ?_, fun p₁ p₂ k' h₁ h₂ => ?_⟩
    · rw [hsame] at hk'
      change k' ∈ w.locks
      rw [hl]; exact ho.holds p' k' hk'
    · rw [hsame] at h₁ h₂; exact ho.once p₁ p₂ k' h₁ h₂
  · refine ⟨fun p' k' hk' => ?_, fun p₁ p₂ k' h₁ h₂ => ?_⟩
    · change k' ∈ w.locks
      rw [hl]
      rw [move_procs] at hk'; split at hk'
      · rw [hq'] at hk'; cases hk'; exact List.mem_cons_self
      · exact List.mem_cons_of_mem _ (ho.holds p' k' hk')
    · rw [move_procs] at h₁ h₂
      split at h₁ <;> split at h₂
      · rename_i e₁ e₂; rw [e₁, e₂]
      · rw [hq'] at h₁; cases h₁; exact absurd (ho.holds p₂ k h₂) hk
      · rw [hq'] at h₂; cases h₂; exact absurd (ho.holds p₁ k h₁) hk
      · exact ho.once p₁ p₂ k' h₁ h₂
  · have hnew : ∀ p' k', ((s.move p w q).procs p').held = some k' →
        p' ≠ p ∧ (s.procs p').held = some k' := by
      intro p' k' hk'
      rw [move_procs] at hk'; split at hk'
      · rw [hq'] at hk'; cases hk'
      · exact ⟨‹_›, hk'⟩
    refine ⟨fun p' k' hk' => ?_, fun p₁ p₂ k' h₁ h₂ => ?_⟩
    · obtain ⟨hne, hk'⟩ := hnew p' k' hk'
      change k' ∈ w.locks
      rw [hl, List.mem_filter]
      refine ⟨ho.holds p' k' hk', ?_⟩
      -- `p` was the only holder of `k`
      simp only [ne_eq, decide_eq_true_eq]
      rintro rfl
      exact hne (ho.once p' p k' hk' hq)
    · exact ho.once p₁ p₂ k' (hnew p₁ k' h₁).2 (hnew p₂ k' h₂).2

/-- No lock outlives its transaction. -/
theorem locks_held (H : Hashes) (cut : Cutter) :
    (server H cut : LTS (State ι) (Label ι)).Inductive fun s =>
      Owned s ∧ ∀ k ∈ s.locks, ∃ p, (s.procs p).held = some k where
  init s hs := by
    obtain ⟨t, rfl⟩ := hs
    exact ⟨⟨fun _ _ h => (nomatch h), fun _ _ _ h => (nomatch h)⟩, fun k hk => (nomatch hk)⟩
  step s l s' hi h := by
    refine ⟨hi.1.step h, ?_⟩
    rcases step_cases h with ⟨δ, -, rfl⟩ | ⟨p, a, w, q, -, ht, rfl⟩
    · exact hi.2
    intro k hk
    change k ∈ w.locks at hk
    -- another holder of the lock still holds it
    have other : ∀ p', p' ≠ p → (s.procs p').held = some k →
        ∃ p', ((s.move p w q).procs p').held = some k := by
      intro p' hne hp'
      exact ⟨p', by rw [move_procs, if_neg hne]; exact hp'⟩
    rcases ht.held with ⟨hq, hl⟩ | ⟨k', hnone, hq', -, hl⟩ | ⟨k', hq, -, hl⟩
    · rw [hl] at hk
      obtain ⟨p', hp'⟩ := hi.2 k hk
      by_cases hpp : p' = p
      · exact ⟨p, by rw [move_procs_self, hq, ← hpp]; exact hp'⟩
      · exact other p' hpp hp'
    · rw [hl] at hk
      rcases List.mem_cons.1 hk with rfl | hk
      · exact ⟨p, by rw [move_procs_self]; exact hq'⟩
      · obtain ⟨p', hp'⟩ := hi.2 k hk
        by_cases hpp : p' = p
        · rw [hpp, hnone] at hp'
          cases hp'
        · exact other p' hpp hp'
    · rw [hl, List.mem_filter] at hk
      obtain ⟨p', hp'⟩ := hi.2 k hk.1
      refine other p' ?_ hp'
      rintro rfl
      rw [hq, Option.some.injEq] at hp'
      simp [hp'] at hk

end GitLfsDelta
