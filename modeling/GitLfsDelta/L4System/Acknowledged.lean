import GitLfsDelta.L4System.Retention
import GitLfsDelta.L4System.Sessions

/-!
# What an answer to an upload says

`begin_cdc` answers with the id of a session, which other clients share and may finalize first;
`finalize_cdc` answers 204 when it has published the object and when it finds that somebody else
has, or had. What its caller can conclude is about the time since the session was handed out:

* `SessionOf`: the session is the object's, and if it is finalized then the object was there at
  some moment of the run after its first `since` entries. Every step keeps it.
* `Proc.Begins.step`, `Proc.Finalizes.step`: so do the two handlers, down to their answers.
-/
namespace GitLfsDelta

variable {ι : Type} {j : Journal ι} {since : Nat} {r u : Uuid} {oid : ObjectOid}

/-- The object was there when the journal had `since` entries, or later. -/
def WasPresent (j : Journal ι) (since : Nat) (r : Uuid) (oid : ObjectOid) : Prop :=
  ∃ a b, j = a ++ b ∧ since ≤ a.length ∧ PresentIn a r oid

theorem WasPresent.append (h : WasPresent j since r oid) (b : Journal ι) :
    WasPresent (j ++ b) since r oid := by
  obtain ⟨a, c, rfl, hlen, hp⟩ := h
  exact ⟨a, c ++ b, List.append_assoc a c b, hlen, hp⟩

theorem PresentIn.wasPresent (h : PresentIn j r oid) (hlen : since ≤ j.length) :
    WasPresent j since r oid := ⟨j, [], (List.append_nil j).symm, hlen, h⟩

/-- What was there and has not been deleted since is there. -/
theorem presentIn_append {a b : Journal ι} (h : PresentIn a r oid) (hb : Undeleted b r oid) :
    PresentIn (a ++ b) r oid := by
  obtain ⟨c, d, rfl, hd⟩ := h
  refine ⟨c, d ++ b, by simp, fun time ht => ?_⟩
  rcases List.mem_append.1 ht with ht | ht
  · exact hd time ht
  · exact hb time ht

/-! ## Sessions -/

section Turns

variable {H : Hashes} {cut : Cutter} {now : Nat} {w w' : Shared} {q q' : Proc} {m : ObjectManifest}
  {db db' : Db} {b : Bool}

/-- A publication that succeeds leaves its object there, unless the session was finalized before. -/
theorem publishManifest_present (h : publishManifest db now r u m = .ok (b, db')) :
    ∃ x ∈ db.sessions, (x.id = u ∧ x.repositoryId = r ∧ x.objectOid = m.objectOid) ∧
      (x.state = .finalized ∧ db' = db ∨ db'.objects.HasKey (r, m.objectOid)) := by
  obtain ⟨hkeep, -⟩ := publishManifest_objects h
  obtain ⟨-, x, hx, hkey, hcase⟩ := publishManifest_ok h
  refine ⟨x, hx, hkey, ?_⟩
  rcases hcase with ⟨hfin, -, rfl⟩ | ⟨-, db₁, h₁, ⟨-, ⟨o, ho, hokey⟩, -⟩ | ⟨-, -, db₃, h₃, rfl⟩⟩
  · exact .inl ⟨hfin, rfl⟩
  · exact .inr ⟨o, hkeep o ho, hokey⟩
  · right
    obtain ⟨⟨C', O, rfl⟩, -⟩ := referenceChunks_ok h₃
    exact Table.hasKey_insert.2 (.inr rfl)

/-- A publication leaves all sessions but its own as they are. -/
theorem publishManifest_others (h : publishManifest db now r u m = .ok (b, db')) {x' : SessionRow}
    (hx' : x' ∈ db'.sessions) (hid : x'.id ≠ u) : x' ∈ db.sessions := by
  obtain ⟨-, x, hx, -, hcase⟩ := publishManifest_ok h
  have hrow : ∀ {d : Db}, d.sessions = db.sessions → x' ∈ (finalizeSession d u).sessions →
      x' ∈ db.sessions := by
    intro d hd hmem
    rcases (Table.mem_updateWhere (by intro; rfl)).1 hmem with ⟨hold, -⟩ | ⟨y, -, hy, rfl⟩
    · exact hd ▸ hold
    · exact absurd (by simpa using hy) hid
  rcases hcase with ⟨-, -, rfl⟩ | ⟨-, db₁, h₁, hcase⟩
  · exact hx'
  obtain ⟨⟨C, rfl⟩, -⟩ := insertChunks_ok h₁
  rcases hcase with ⟨-, -, rfl⟩ | ⟨-, -, db₃, h₃, rfl⟩
  · exact hrow rfl hx'
  · obtain ⟨⟨C', O, rfl⟩, -⟩ := referenceChunks_ok h₃
    exact hrow rfl hx'

/-- A session is finalized by the publication of its object. -/
theorem publishManifest_finalizes (h : publishManifest db now r u m = .ok (b, db'))
    {x' : SessionRow} (hx' : x' ∈ db'.sessions) :
    x' ∈ db.sessions ∨ db'.objects.HasKey (x'.repositoryId, x'.objectOid) := by
  obtain ⟨x, hx, ⟨rfl, rfl, hoid⟩, ⟨-, rfl⟩ | hkey⟩ := publishManifest_present h
  · exact .inl hx'
  by_cases hid : x'.id = x.id
  · obtain ⟨y, hy, hf⟩ := publishManifest_follows h x' hx'
    obtain rfl := Table.eq_of_key hy hx (hf.id.symm.trans hid)
    right
    rwa [hf.repositoryId, hf.objectOid, hoid]
  · exact .inl (publishManifest_others h hx' hid)

theorem reclaimSessions_unfinalized {seconds : Nat} {x' : SessionRow}
    (hx' : x' ∈ (reclaimSessions db now r seconds).sessions) (hfin : x'.state = .finalized) :
    x' ∈ db.sessions := by
  unfold reclaimSessions at hx'
  obtain ⟨Q, hQ⟩ := enqueueAll_frame now ((db.expireOpen now fun s => s.repositoryId = r).chunks.rows.filter
    fun k => ReclaimsChunk (db.expireOpen now fun s => s.repositoryId = r) now r seconds k)
    (db.expireOpen now fun s => s.repositoryId = r)
  simp only [hQ] at hx'
  obtain ⟨x, hx, -, hsame⟩ := expireOpen_follows (Table.mem_deleteWhere.1 hx').1
  rw [hsame (by simp [hfin])]
  exact hx

/-- A session that is finalized now was so before, or its object is there now. -/
theorem Turn.finalizes {a : Action} (h : Turn H cut now w q a w' q') {x' : SessionRow}
    (hx' : x' ∈ w'.db.sessions) (hfin : x'.state = .finalized) :
    x' ∈ w.db.sessions ∨ w'.db.objects.HasKey (x'.repositoryId, x'.objectOid) := by
  cases h with
  | beginCdc _ _ hb => exact .inl (resumeOrCreate_unfinalized (beginCdc_ok hb).2.2 x' hx' hfin)
  | beginBasic _ _ _ _ hs => exact .inl (resumeOrCreate_unfinalized hs x' hx' hfin)
  | publish _ _ hp => exact publishManifest_finalizes hp hx'
  | snapshot _ _ hs =>
    obtain ⟨⟨E, R, rfl⟩, -⟩ := submitSnapshot_ok hs
    exact .inl hx'
  | reclaim => exact .inl (reclaimSessions_unfinalized hx' hfin)
  | register _ hr =>
    obtain ⟨⟨C, L, rfl⟩, -⟩ := registerChunk_ok hr
    exact .inl hx'
  | basicRegister _ hr =>
    obtain ⟨⟨C, L, rfl⟩, -⟩ := registerChunk_ok hr
    exact .inl hx'
  | stage hs =>
    obtain ⟨⟨T, rfl⟩, -⟩ := stageTombstones_ok hs
    exact .inl hx'
  | collect _ _ hc =>
    obtain ⟨⟨C, Q, rfl⟩, -⟩ := collectObject_ok hc
    exact .inl hx'
  | commit hc =>
    obtain ⟨rfl, -⟩ := drainCommit_ok hc
    exact .inl hx'
  | _ => exact .inl hx'

end Turns

section Steps

variable [DecidableEq ι] {H : Hashes} {cut : Cutter} {s s' : State ι} {l : Label ι} {j' b : Journal ι}

/-- The session, if it is still there, is the object's, and if it is finalized the object was
there. -/
structure SessionOf (s : State ι) (j : Journal ι) (since : Nat) (r : Uuid) (oid : ObjectOid) (u : Uuid) :
    Prop where
  issued : u ∈ s.issued
  row : ∀ x ∈ s.db.sessions, x.id = u → (x.repositoryId = r ∧ x.objectOid = oid) ∧
    (x.state = .finalized → WasPresent j since r oid)

/-- **Every step keeps it**, whichever client's. -/
theorem SessionOf.step (h : SessionOf s j since r oid u) (hsince : since ≤ j.length) (ho : Owned s)
    (hc : Chronicle s' (j ++ b)) (hst : step H cut s l = some s') :
    SessionOf s' (j ++ b) since r oid u where
  issued := (step_effect ho hst).issued_mono h.issued
  row x' hx' hid := by
    rcases step_row hst x' hx' with ⟨x, hx, hf⟩ | ⟨hnew, -⟩
    · obtain ⟨hkey, hfin⟩ := h.row x hx (hf.id.symm.trans hid)
      refine ⟨by rw [hf.repositoryId, hf.objectOid]; exact hkey, fun hfin' => ?_⟩
      rcases step_cases hst with ⟨δ, -, rfl⟩ | ⟨p, a, w, q, -, ht, rfl⟩
      · obtain rfl := Table.eq_of_key hx hx' hf.id.symm
        exact (hfin hfin').append b
      · rcases ht.finalizes hx' hfin' with hold | hthere
        · obtain rfl := Table.eq_of_key hx hold hf.id.symm
          exact (hfin hfin').append b
        · rw [hf.repositoryId, hf.objectOid, hkey.1, hkey.2] at hthere
          exact ((hc.objects r oid).1 hthere).wasPresent (by simp; omega)
    · exact absurd (hid ▸ h.issued) hnew

omit [DecidableEq ι] in
/-- A session that has just been handed out for the object. -/
theorem SessionOf.begun {e : ApiError} {newId : Uuid} {m : ObjectManifest} {now : Nat} {db : Db}
    (hi : SharedInv H s.toShared) (hb : resumeOrCreate e db now r m newId = .ok (u, s.db))
    (hoid : m.objectOid = oid) : SessionOf s j since r oid u := by
  obtain ⟨-, -, -, x, hx, rfl, hxr, hxo, -, hopen, -⟩ := resumeOrCreate_ok hb
  refine ⟨hi.issued x hx, fun y hy hid => ?_⟩
  obtain rfl := Table.eq_of_key hy hx hid
  refine ⟨⟨hxr, hxo.trans hoid⟩, fun hfin => ?_⟩
  rw [hopen] at hfin
  cases hfin

/-! ## Handlers -/

/-- A `begin_cdc` at work, or its answer; `P` holds of the session it hands out. -/
def Proc.Begins (P : Uuid → Prop) : Proc → Prop
  | .probing u .. | .done (.plan u _) => P u
  | .done (.failed _) | .stopped => True
  | _ => False

/-- A `finalize_cdc` of the session, or its answer; `P` holds if that is 204. -/
def Proc.Finalizes (r u : Uuid) (P : Prop) : Proc → Prop
  | .verifying r' _ u' .. => r' = r ∧ u' = u
  | .done .noContent => P
  | .done (.failed e) => 400 ≤ e.status
  | .stopped => True
  | _ => False

/-- A process that no step restarts waits, is cut off, or takes its next step. -/
theorem step_awaited (h : step H cut s l = some s') {p : ι} (hl : ¬ l.Starts p) :
    s'.procs p = s.procs p ∨ s'.procs p = .stopped ∨
      ∃ choice, procNext H s.toShared (s.procs p) choice = some (s'.toShared, s'.procs p) := by
  cases l with
  | advance δ =>
    cases h
    exact .inl rfl
  | act p' a =>
    simp only [step, Option.map_eq_some_iff] at h
    obtain ⟨⟨w, q⟩, hact, rfl⟩ := h
    rw [move_procs]
    by_cases hp : p = p'
    · subst hp
      rw [if_pos rfl]
      cases a with
      | kill =>
        simp only [procAct] at hact
        split at hact <;> cases hact <;> exact .inr (.inl rfl)
      | start request => exact absurd rfl hl
      | next choice => exact .inr (.inr ⟨choice, hact⟩)
    · rw [if_neg hp]
      exact .inl rfl

theorem Proc.Begins.mono {P P' : Uuid → Prop} {q : Proc} (h : q.Begins P) (hP : ∀ u, P u → P' u) :
    q.Begins P' := by
  unfold Proc.Begins at h ⊢
  split at h
  · exact hP _ h
  · exact hP _ h
  · trivial
  · trivial
  · exact h.elim

theorem Proc.Begins.step {P P' : Uuid → Prop} {p : ι} (h : (s.procs p).Begins P)
    (hP : ∀ u, P u → P' u) (hst : step H cut s l = some s') (hl : ¬ l.Starts p) :
    (s'.procs p).Begins P' := by
  apply Proc.Begins.mono (P := P) _ hP
  rcases step_awaited hst hl with hsame | hstop | ⟨choice, hnext⟩
  · rwa [hsame]
  · rw [hstop]
    trivial
  · generalize s'.procs p = q' at hnext
    generalize s'.toShared = w' at hnext
    generalize s.procs p = q at h hnext
    unfold Proc.Begins at h
    split at h
    · rename_i u r todo i missing
      cases todo <;> cases choice <;> cases hnext <;> exact h
    · cases hnext
    · cases hnext
    · cases hnext
    · exact h.elim

/-- Errors of `finalize_cdc` are errors. -/
theorem publishManifest_failure {db : Db} {now : Nat} {m : ObjectManifest} {e : ApiError}
    (h : publishManifest db now r u m = .error e) : 400 ≤ e.status := by
  rcases publishManifest_error h with rfl | rfl | h404
  · decide
  · decide
  · omega

theorem verifyChunk_failure {w : Shared} {d : ChunkDescriptor} {e : ApiError}
    (h : verifyChunk H w r d = .error e) : 400 ≤ e.status := by
  unfold verifyChunk at h
  split at h
  · cases h
    decide
  · rename_i x _ _
    cases h
    cases x <;> simp [ApiError.storage]
  · split at h <;> cases h
    decide

omit [DecidableEq ι] in
theorem Proc.Finalizes.append {q : Proc} (h : q.Finalizes r u (WasPresent j since r oid))
    (b : Journal ι) : q.Finalizes r u (WasPresent (j ++ b) since r oid) := by
  unfold Proc.Finalizes at h ⊢
  split at h <;> first | exact h | exact WasPresent.append h b

/-- **A `finalize_cdc` answers 204 only if its object was there.** -/
theorem Proc.Finalizes.step {p : ι} (h : (s.procs p).Finalizes r u (WasPresent j since r oid))
    (hu : SessionOf s j since r oid u) (hsince : since ≤ j.length) (hc : Chronicle s' (j ++ b))
    (hst : step H cut s l = some s') (hl : ¬ l.Starts p) :
    (s'.procs p).Finalizes r u (WasPresent (j ++ b) since r oid) := by
  rcases step_awaited hst hl with hsame | hstop | ⟨choice, hnext⟩
  · rw [hsame]
    exact h.append b
  · rw [hstop]
    trivial
  generalize s'.procs p = q' at hnext
  generalize hw' : s'.toShared = w' at hnext
  generalize s.procs p = q at h hnext
  unfold Proc.Finalizes at h
  split at h
  · rename_i r' oid' u' m todo hashed
    obtain ⟨rfl, rfl⟩ := h
    cases todo with
    | cons d todo =>
      cases choice <;> simp only [procNext, reduceCtorEq] at hnext
      split at hnext
      · rename_i e he
        cases hnext
        exact verifyChunk_failure he
      · cases hnext
        exact ⟨rfl, rfl⟩
    | nil =>
      rcases procNext_verified hnext with ⟨-, -, rfl⟩ | ⟨-, -, ⟨e, he, -, rfl⟩ | ⟨d, db, hp, hw, rfl⟩⟩
      · exact Nat.le_of_ble_eq_true rfl
      · exact publishManifest_failure he
      · -- the session tells which object it was
        obtain ⟨x, hx, ⟨hid, hxr, hxo⟩, hcase⟩ := publishManifest_present hp
        obtain ⟨⟨-, hoid⟩, hfin⟩ := hu.row x hx hid
        rcases hcase with ⟨hstate, -⟩ | hthere
        · exact (hfin hstate).append b
        · rw [← hxo, hoid] at hthere
          have hdb : s'.db = db := congrArg Shared.db (hw'.trans hw)
          exact ((hc.objects r' oid).1 (hdb ▸ hthere)).wasPresent (by simp; omega)
  · cases hnext
  · cases hnext
  · cases hnext
  · exact h.elim

/-- `begin_cdc` starts with a session of its object. -/
theorem start_begins {p : ι} {v : Nat} {m : ObjectManifest} {newId : Uuid}
    (hi : SharedInv H s'.toShared)
    (h : step H cut s (.act p (.start (.beginCdc r oid v m newId))) = some s') :
    (s'.procs p).Begins (SessionOf s' j since r oid) := by
  simp only [step, Option.map_eq_some_iff, procAct] at h
  obtain ⟨⟨w, q⟩, hact, rfl⟩ := h
  rw [move_procs_self]
  split at hact
  · simp only [procStart, startBegin] at hact
    split at hact
    · cases hact
    split at hact
    · cases hact
      trivial
    · rename_i u db hb
      cases hact
      obtain ⟨-, hoid, hs⟩ := beginCdc_ok hb
      exact SessionOf.begun hi hs hoid
  · cases hact

/-- `finalize_cdc` answers at once where the session is finalized. -/
theorem start_finalizes {p : ι} (hu : SessionOf s j since r oid u)
    (h : step H cut s (.act p (.start (.finalizeCdc r oid u))) = some s') :
    (s'.procs p).Finalizes r u (WasPresent j since r oid) := by
  simp only [step, Option.map_eq_some_iff, procAct] at h
  obtain ⟨⟨w, q⟩, hact, rfl⟩ := h
  rw [move_procs_self]
  split at hact
  · simp only [procStart] at hact
    split at hact
    · rename_i e he
      cases hact
      unfold loadFinalizableUpload at he
      split at he <;> cases he
      exact Nat.le_of_ble_eq_true rfl
    · rename_i m hm
      cases hact
      obtain ⟨x, hx, ⟨hid, -, -⟩, -, -, hdone⟩ := loadFinalizableUpload_ok hm
      exact (hu.row x hx hid).2 (by simpa using hdone)
    · cases hact
      exact ⟨rfl, rfl⟩
  · cases hact

end Steps
end GitLfsDelta
