import GitLfsDelta.L4System.Turns

/-!
# The invariant of the shared state

`Effect` is what is left of a turn when one looks at the shared state only; a drain step
becomes an effect on a locked row (`Turn.effect`, by `Owned`).

`SharedInv` holds in every reachable state (`server_inv`): the database invariant, the
store invariant, that session ids have been issued, and that a locked chunk row stays
unreferenced and linked by no open session until it is released. The last one is why
`drain_chunk_queue` may delete the bytes between its check and its commit: nothing that
would change the answer gets past the row lock.
-/
namespace GitLfsDelta

/-- A turn, or the passing of time, seen from the shared state. -/
inductive Effect (H : Hashes) : Shared → Shared → Prop
  | quiet {w} : Effect H w w
  | advance {w δ} : Effect H w { w with clock := w.clock + δ }
  | issue {w newId} : newId ∉ w.issued → Effect H w { w with issued := newId :: w.issued }
  | session {w e r m newId u db} : newId ∉ w.issued →
      resumeOrCreate e w.db w.clock r m newId = .ok (u, db) →
      Effect H w { w with issued := newId :: w.issued, db := db }
  | register {w r u d db} : (r, d.id) ∉ w.locks → registerChunk w.db r u d = .ok db →
      Effect H w { w with db := db }
  | put {w r c bytes store} : putVerified H w.store r c bytes = .ok store →
      Effect H w { w with store := store }
  | publish {w r u m b db n} : ¬ PublishWaits w r u m →
      publishManifest w.db w.clock r u m = .ok (b, db) →
      Effect H w { w with db := db, logicalUploaded := n }
  | snapshot {w r fp oids newId db} : newId ∉ w.issued →
      submitSnapshot w.db w.clock r fp oids newId = .ok db →
      Effect H w { w with issued := newId :: w.issued, db := db }
  | stage {w r seconds cs db} : stageTombstones w.clock r seconds cs w.db = .ok db →
      Effect H w { w with db := db }
  | collect {w r oid db} : (∀ o ∈ w.db.chunksOf r oid, (r, o.chunkId) ∉ w.locks) →
      collectObject w.db w.clock r oid = .ok db → Effect H w { w with db := db }
  | reclaim {w r grace} : Effect H w { w with db := reclaimSessions w.db w.clock r grace }
  | dequeue {w r c} : (r, c) ∉ w.locks → Effect H w { w with db := w.db.dequeue r c }
  | lock {w r c} : drainDecision w.db r c = .delete →
      Effect H w { w with locks := (r, c) :: w.locks }
  | erase {w r c} : (r, c) ∈ w.locks → Effect H w { w with store := deleteChunk w.store r c }
  | commit {w r c db} : (r, c) ∈ w.locks → drainCommit w.db r c = .ok db →
      Effect H w { w.unlock (r, c) with db := db }
  | unlock {w k} : Effect H w (w.unlock k)

variable {H : Hashes} {cut : Cutter} {now : Nat} {w w' : Shared} {q q' : Proc}

theorem Turn.effect {a : Action} (h : Turn H cut now w q a w' q')
    (hold : ∀ k, q.held = some k → k ∈ w.locks) : Effect H w w' := by
  cases h with
  | refuse hid _ => exact .issue hid
  | rollback _ => exact .unlock
  | beginCdc _ hid hb => exact .session hid (beginCdc_ok hb).2.2
  | beginBasic _ hid _ _ hs => exact .session hid hs
  | snapshot _ hid hs => exact .snapshot hid hs
  | reclaim => exact .reclaim
  | register hl hr => exact .register hl hr
  | put hs => exact .put hs
  | basicRegister hl hr => exact .register hl hr
  | basicPut hs => exact .put hs
  | publish _ hw hp => exact .publish hw hp
  | stage hs => exact .stage hs
  | collect _ hl hc => exact .collect hl hc
  | dequeue hl _ => exact .dequeue hl
  | lock _ hd => exact .lock hd
  | erase => exact .erase (hold _ rfl)
  | commit hc => exact .commit (hold _ rfl) hc
  | abort => exact .unlock
  | _ => exact .quiet

theorem step_effect {ι : Type} [DecidableEq ι] {s s' : State ι} {l : Label ι} (ho : Owned s)
    (h : step H cut s l = some s') : Effect H s.toShared s'.toShared := by
  rcases step_cases h with ⟨δ, -, rfl⟩ | ⟨p, a, w, q, -, ht, rfl⟩
  · exact .advance
  · exact ht.effect (ho.holds p)

/-! ## Sessions and links over an effect -/

theorem Effect.clock_le (h : Effect H w w') : w.clock ≤ w'.clock := by
  cases h <;> first | exact le_refl _ | exact Nat.le_add_right _ _

/-- Sessions age; a new one has an id issued by this very step. -/
theorem Effect.sessions (h : Effect H w w') : ∀ x' ∈ w'.db.sessions,
    (∃ x ∈ w.db.sessions, x.Ages w.clock x') ∨ x'.id ∉ w.issued ∧ x'.id ∈ w'.issued := by
  intro x' hx'
  cases h with
  | session hid hs =>
    obtain ⟨-, hold, -⟩ := resumeOrCreate_ok hs
    rcases hold x' hx' with ha | ⟨rfl, -⟩
    · exact .inl ha
    · exact .inr ⟨hid, List.mem_cons_self⟩
  | register _ hr =>
    obtain ⟨⟨C, L, rfl⟩, -⟩ := registerChunk_ok hr
    exact .inl ⟨x', hx', .same⟩
  | publish _ hp => exact .inl ((publishManifest_frame hp).1 x' hx')
  | snapshot _ hs =>
    obtain ⟨⟨E, R, rfl⟩, -⟩ := submitSnapshot_ok hs
    exact .inl ⟨x', hx', .same⟩
  | stage hs =>
    obtain ⟨⟨T, rfl⟩, -⟩ := stageTombstones_ok hs
    exact .inl ⟨x', hx', .same⟩
  | collect _ hc =>
    obtain ⟨⟨C, Q, rfl⟩, -⟩ := collectObject_ok hc
    exact .inl ⟨x', hx', .same⟩
  | @reclaim r grace =>
    obtain ⟨S, L, Q, hS, hage, -⟩ := reclaimSessions_spec w.db w.clock r grace
    simp only [hS] at hx'
    exact .inl (hage x' hx')
  | commit _ hc =>
    obtain ⟨rfl, -⟩ := drainCommit_ok hc
    exact .inl ⟨x', hx', .same⟩
  | _ => exact .inl ⟨x', hx', .same⟩

theorem Effect.isOpen (h : Effect H w w') {u : Uuid} (ho : w'.db.Open u) :
    w.db.Open u ∨ u ∉ w.issued := by
  obtain ⟨x', hx', rfl, ho⟩ := ho
  rcases h.sessions x' hx' with ⟨x, hx, ha⟩ | ⟨hn, -⟩
  · exact .inl ⟨x, hx, ha.id_eq.symm, ha.opened ho⟩
  · exact .inr hn

theorem Effect.live (h : Effect H w w') {u : Uuid} (hl : w'.db.Live w'.clock u) :
    w.db.Live w.clock u ∨ u ∉ w.issued := by
  obtain ⟨x', hx', rfl, ho, hu⟩ := hl
  rcases h.sessions x' hx' with ⟨x, hx, ha⟩ | ⟨hn, -⟩
  · exact .inl ⟨x, hx, ha.id_eq.symm, ha.live ho (lt_of_le_of_lt h.clock_le hu)⟩
  · exact .inr hn

theorem Effect.issued_mono (h : Effect H w w') {u : Uuid} (hu : u ∈ w.issued) : u ∈ w'.issued := by
  cases h <;> first | exact hu | exact List.mem_cons_of_mem _ hu

/-- A new link names a chunk that is not locked, and a session that exists. -/
theorem Effect.links (h : Effect H w w') : ∀ l ∈ w'.db.sessionChunks,
    l ∈ w.db.sessionChunks ∨ (l.repositoryId, l.chunkId) ∉ w.locks := by
  intro l hl
  cases h with
  | session _ hs =>
    obtain ⟨⟨S, rfl⟩, -⟩ := resumeOrCreate_ok hs
    exact .inl hl
  | register hlock hr =>
    obtain ⟨-, -, -, -, hnew, -⟩ := registerChunk_ok hr
    rcases hnew l hl with hl | ⟨rfl, -⟩
    · exact .inl hl
    · exact .inr hlock
  | publish _ hp =>
    obtain ⟨-, O, C, R, S, rfl⟩ := publishManifest_frame hp
    exact .inl hl
  | snapshot _ hs =>
    obtain ⟨⟨E, R, rfl⟩, -⟩ := submitSnapshot_ok hs
    exact .inl hl
  | stage hs =>
    obtain ⟨⟨T, rfl⟩, -⟩ := stageTombstones_ok hs
    exact .inl hl
  | collect _ hc =>
    obtain ⟨⟨C, Q, rfl⟩, -⟩ := collectObject_ok hc
    exact .inl hl
  | @reclaim r grace =>
    obtain ⟨S, L, Q, hS, -, hlinks, -⟩ := reclaimSessions_spec w.db w.clock r grace
    simp only [hS] at hl
    exact .inl (hlinks l hl).1
  | commit _ hc =>
    obtain ⟨rfl, -⟩ := drainCommit_ok hc
    exact .inl hl
  | _ => exact .inl hl

/-- A link of a session that is still there is still there. -/
theorem Effect.links_kept (h : Effect H w w') : ∀ l ∈ w.db.sessionChunks,
    (∃ x ∈ w'.db.sessions, x.id = l.sessionId) → l ∈ w'.db.sessionChunks := by
  intro l hl hx
  cases h with
  | session _ hs =>
    obtain ⟨⟨S, rfl⟩, -⟩ := resumeOrCreate_ok hs
    exact hl
  | register hlock hr =>
    obtain ⟨-, -, -, hkeep, -⟩ := registerChunk_ok hr
    exact hkeep l hl
  | publish _ hp =>
    obtain ⟨-, O, C, R, S, rfl⟩ := publishManifest_frame hp
    exact hl
  | snapshot _ hs =>
    obtain ⟨⟨E, R, rfl⟩, -⟩ := submitSnapshot_ok hs
    exact hl
  | stage hs =>
    obtain ⟨⟨T, rfl⟩, -⟩ := stageTombstones_ok hs
    exact hl
  | collect _ hc =>
    obtain ⟨⟨C, Q, rfl⟩, -⟩ := collectObject_ok hc
    exact hl
  | @reclaim r grace =>
    obtain ⟨S, L, Q, hS, -, -, hkeep⟩ := reclaimSessions_spec w.db w.clock r grace
    simp only [hS] at hx ⊢
    exact hkeep l hl hx
  | commit _ hc =>
    obtain ⟨rfl, -⟩ := drainCommit_ok hc
    exact hl
  | _ => exact hl

/-! ## Chunk rows over an effect -/

/-- A locked chunk row is untouched by everything but the commit of its drain. -/
theorem Effect.locked_row (h : Effect H w w') {k : ChunkRow} (hk : k ∈ w.db.chunks)
    (hl : k.key ∈ w.locks) (hl' : k.key ∈ w'.locks) : k ∈ w'.db.chunks := by
  cases h with
  | session _ hs =>
    obtain ⟨⟨S, rfl⟩, -⟩ := resumeOrCreate_ok hs
    exact hk
  | register _ hr =>
    obtain ⟨-, hg, -⟩ := registerChunk_ok hr
    exact hg.keep k hk
  | publish hwait hp =>
    obtain ⟨-, x, hx, ⟨hid, -, -⟩, hcase⟩ := publishManifest_ok hp
    rcases hcase with ⟨-, -, rfl⟩ | ⟨⟨ho, -⟩, db₁, h₁, hcase⟩
    · exact hk
    obtain ⟨⟨C, rfl⟩, hg, -⟩ := insertChunks_ok h₁
    rcases hcase with ⟨-, -, rfl⟩ | ⟨-, hnone, db₃, h₃, rfl⟩
    · exact hg.keep k hk
    · -- the insertion of a new object would have waited for the lock
      obtain ⟨-, -, -, hsame⟩ := referenceChunks_ok h₃
      refine hsame k (hg.keep k hk) fun d hd e => hwait ⟨⟨x, hx, hid, ho⟩, hnone, d, hd, ?_⟩
      rwa [← e]
  | snapshot _ hs =>
    obtain ⟨⟨E, R, rfl⟩, -⟩ := submitSnapshot_ok hs
    exact hk
  | stage hs =>
    obtain ⟨⟨T, rfl⟩, -⟩ := stageTombstones_ok hs
    exact hk
  | collect hfree hc =>
    obtain ⟨-, -, hsame⟩ := collectObject_ok hc
    exact hsame k hk fun o ho e => hfree o ho (e ▸ hl)
  | @reclaim r grace =>
    obtain ⟨S, L, Q, hS, -⟩ := reclaimSessions_spec w.db w.clock r grace
    simp only [hS]
    exact hk
  | @commit r c _ _ hc =>
    obtain ⟨rfl, -⟩ := drainCommit_ok hc
    refine Table.mem_deleteWhere.2 ⟨hk, ?_⟩
    have hne : k.key ≠ (r, c) := by simpa [Shared.unlock] using (List.mem_filter.1 hl').2
    by_contra hp
    simp only [Bool.not_eq_false, decide_eq_true_eq] at hp
    exact hne (Prod.ext hp.1 hp.2.1)
  | _ => exact hk

/-! ## The invariant -/

structure SharedInv (H : Hashes) (w : Shared) : Prop where
  db : w.db.Inv
  store : StoreOk H w.store
  issued : ∀ x ∈ w.db.sessions, x.id ∈ w.issued
  /-- A locked row is unreferenced and linked by no open session. -/
  locked : ∀ r c, (r, c) ∈ w.locks → w.db.Unreferenced r c ∧ ¬ w.db.ActivelyLinked r c

theorem sharedInv_initial (H : Hashes) (t : Nat) : SharedInv H (.initial t) where
  db := Db.inv_empty
  store := storeOk_empty H
  issued x hx := absurd hx (Table.not_mem_empty x)
  locked _ _ h := absurd h List.not_mem_nil

theorem Effect.db_inv (h : Effect H w w') (hi : w.db.Inv) : w'.db.Inv := by
  cases h with
  | session _ hs => exact hi.resume hs
  | register _ hr => exact hi.register hr
  | publish _ hp => exact hi.publish hp
  | snapshot _ hs =>
    obtain ⟨⟨E, R, rfl⟩, -⟩ := submitSnapshot_ok hs
    exact ⟨hi.rows, hi.counts, hi.rowChunk, hi.linkChunk, hi.linkSession⟩
  | stage hs =>
    obtain ⟨⟨T, rfl⟩, -⟩ := stageTombstones_ok hs
    exact ⟨hi.rows, hi.counts, hi.rowChunk, hi.linkChunk, hi.linkSession⟩
  | collect _ hc => exact hi.collect hc
  | reclaim => exact hi.reclaim _ _ _
  | dequeue => exact ⟨hi.rows, hi.counts, hi.rowChunk, hi.linkChunk, hi.linkSession⟩
  | commit _ hc => exact hi.drain hc
  | _ => exact hi

theorem Effect.store_ok (h : Effect H w w') (hs : StoreOk H w.store) : StoreOk H w'.store := by
  cases h with
  | put hp => exact storeOk_put hs hp
  | erase => exact storeOk_delete hs _ _
  | _ => exact hs

/-- No effect makes an open session link a locked chunk. -/
theorem Effect.locked_unlinked (h : Effect H w w') (hi : SharedInv H w) {r : Uuid} {c : ChunkId}
    (hl : (r, c) ∈ w.locks) (hal : w'.db.ActivelyLinked r c) : w.db.ActivelyLinked r c := by
  obtain ⟨l, hlm, ⟨rfl, rfl⟩, x', hx', hid, ho⟩ := hal
  have hold : l ∈ w.db.sessionChunks := by
    rcases h.links l hlm with hold | hfree
    · exact hold
    · exact absurd hl hfree
  refine ⟨l, hold, ⟨rfl, rfl⟩, ?_⟩
  rcases h.sessions x' hx' with ⟨x, hx, ha⟩ | ⟨hn, -⟩
  · exact ⟨x, hx, ha.id_eq.symm.trans hid, ha.opened ho⟩
  · -- a link never points at a session that has not been created yet
    obtain ⟨y, hy, hyid, -⟩ := hi.db.linkSession l hold
    have := hi.issued y hy
    rw [hyid, ← hid] at this
    exact absurd this hn

theorem Effect.sharedInv (h : Effect H w w') (hi : SharedInv H w) : SharedInv H w' where
  db := h.db_inv hi.db
  store := h.store_ok hi.store
  issued x' hx' := by
    rcases h.sessions x' hx' with ⟨x, hx, ha⟩ | ⟨-, hnew⟩
    · rw [ha.id_eq]; exact h.issued_mono (hi.issued x hx)
    · exact hnew
  locked r c hl' := by
    by_cases hl : (r, c) ∈ w.locks
    · obtain ⟨⟨k, hk, hkey, h0⟩, hal⟩ := hi.locked r c hl
      refine ⟨⟨k, h.locked_row hk (hkey ▸ hl) (hkey ▸ hl'), hkey, h0⟩, ?_⟩
      exact fun hal' => hal (h.locked_unlinked hi hl hal')
    · -- only the drain's own lock adds one
      cases h with
      | lock hd =>
        rcases List.mem_cons.1 hl' with e | hl'
        · cases e; exact drainDecision_delete.1 hd
        · exact absurd hl' hl
      | commit => exact absurd (List.mem_filter.1 hl').1 hl
      | unlock => exact absurd (List.mem_filter.1 hl').1 hl
      | _ => exact absurd hl' hl

/-- **The shared invariant holds along every run.** -/
theorem server_inv {ι : Type} [DecidableEq ι] (H : Hashes) (cut : Cutter) :
    (server H cut : LTS (State ι) (Label ι)).Inductive
      fun s => Owned s ∧ SharedInv H s.toShared where
  init s hs := by
    obtain ⟨t, rfl⟩ := hs
    exact ⟨⟨fun _ _ h => (nomatch h), fun _ _ _ h => (nomatch h)⟩, sharedInv_initial H t⟩
  step _ _ _ hs hst := ⟨hs.1.step hst, (step_effect hs.1 hst).sharedInv hs.2⟩

/-! ## Reference counts -/

/-- **Reference counts are exact.** In every reachable state: a chunk's count (zero if it
has no row) is the number of `object_chunks` rows naming it, which is its number of
occurrences in the manifests of the repository's objects; an object's rows in ordinal
order are its manifest's descriptors; and `collect_due` can take any object without
failing `CHECK (reference_count >= 0)`. -/
theorem reference_counts_exact {ι : Type} [DecidableEq ι] (H : Hashes) (cut : Cutter) (s : State ι)
    (hr : (server H cut).Reachable s) (r : Uuid) :
    (∀ c, (s.db.chunks.get? (r, c)).elim 0 (·.referenceCount) = (s.db.referencesTo r c).length ∧
      (s.db.referencesTo r c).length = ((s.db.objects.rows.filter fun o => o.repositoryId = r).map
        fun o => (o.manifest.chunks.map (·.id)).count c).sum) ∧
    (∀ o ∈ s.db.objects, o.repositoryId = r →
      ((s.db.chunksOf r o.oid).insertionSort fun a b => a.ordinal ≤ b.ordinal).map
        (fun x => (x.chunkId, x.byteOffset, x.byteLength)) =
      o.manifest.chunks.map fun d => (d.id, d.offset.toNat, d.length.toNat)) ∧
    ∀ now oid, ∃ db', collectObject s.db now r oid = .ok db' := by
  have hi := ((server_inv H cut).reachable hr).2.db
  refine ⟨fun c => ⟨?_, ?_⟩, fun o ho hor => ?_, fun now oid => ?_⟩
  · rw [length_referencesTo]
    cases hg : s.db.chunks.get? (r, c) with
    | none =>
      -- a row naming the chunk would need a chunk row
      refine (references_eq_zero.2 fun x hx e => ?_).symm
      obtain ⟨k, hk, hkey⟩ := hi.rowChunk x hx
      exact Table.get?_none.1 hg k hk (hkey.trans e)
    | some k =>
      obtain ⟨hk, hkey⟩ := Table.get?_some.1 hg
      obtain ⟨rfl, rfl⟩ := Prod.mk.inj hkey
      exact hi.counts k hk
  · rw [length_referencesTo, references_eq_sum hi]
  · subst hor
    rw [chunksOf_sorted hi ho, ObjectRow.chunkRows, List.map_map]
    conv_rhs => rw [← List.zipIdx_map_fst 0 o.manifest.chunks, List.map_map]
    rfl
  · obtain ⟨db', h, -⟩ := collectObject_total hi now r oid
    exact ⟨db', h⟩

open Sample in
/-- Two repositories publish the same byte; in one of them its chunk counts one. -/
theorem reference_counts_exact_published :
    ∃ s : State (Fin 1), (server hashes Sample.cut).Reachable s ∧
      (s.db.referencesTo 1 (hashes.blake3 [0x61])).length = 1 ∧
      (s.db.chunks.get? (1, hashes.blake3 [0x61])).elim 0 (·.referenceCount) = 1 := by
  obtain ⟨s, hs, h⟩ : ∃ s : State (Fin 1), (server hashes Sample.cut).Reachable s ∧
      (s.db.referencesTo 1 (hashes.blake3 [0x61])).length = 1 :=
    LTS.exists_reachable_of_exec (uploads 0 1 7 [0x61] ++ uploads 0 2 8 [0x61]) ⟨0, rfl⟩
      (by decide +kernel)
  refine ⟨s, hs, h, ?_⟩
  rw [((reference_counts_exact hashes Sample.cut s hs 1).1 _).1, h]

end GitLfsDelta
