import GitLfsDelta.L4System.Invariant

/-!
# Chunks an active upload relies on

A session names its chunks in its manifest, and the client of a session does not upload
the ones `begin_cdc` found stored. `drain_chunk_queue` spares a chunk that an object
references or that an open session has *uploaded* (`upload_session_chunks`); a chunk a
session only names is not spared, and there is no lock against a session that begins while
the chunk is being deleted.

`drain_spares_relied`: in every run where neither happens (`Covered`), no drain deletes a
chunk that an open, unexpired session names. `drain_deletes_relied` is a run where a
second session relies on the upload of one that expires.
-/
namespace GitLfsDelta

/-- An open, unexpired session of the repository names the chunk. -/
def Db.Relied (db : Db) (now : Nat) (r : Uuid) (c : ChunkId) : Prop :=
  ∃ x ∈ db.sessions, x.repositoryId = r ∧ (x.state = .opened ∧ now < x.expiresAt) ∧
    ∃ d ∈ x.manifest.chunks, d.id = c

instance (db : Db) (now : Nat) (r : Uuid) (c : ChunkId) : Decidable (db.Relied now r c) := by
  unfold Db.Relied; infer_instance

variable {ι : Type} [DecidableEq ι] {H : Hashes} {cut : Cutter}

/-- What the collector and the sessions have to agree on: when a drain takes up a chunk
that a live session names, the chunk is referenced or an open session has uploaded it; and
no session begins on a chunk that a drain is deleting. -/
def Covered (H : Hashes) (cut : Cutter) (s : State ι) : Label ι → Prop
  | .act p (.next .auto) =>
    match s.procs p with
    | .draining r (c :: _) _ =>
      s.db.Relied s.clock r c → ¬ s.db.Unreferenced r c ∨ s.db.ActivelyLinked r c
    | _ => True
  | .act _ (.start request) =>
    ∀ k ∈ request.manifest? H cut, ∀ d ∈ k.2.chunks, (k.1, d.id) ∉ s.locks
  | _ => True

instance (s : State ι) (l : Label ι) : Decidable (Covered H cut s l) :=
  decidable_of_iff
    ((match l with
      | .act p (.next .auto) =>
        match s.procs p with
        | .draining r (c :: _) _ =>
          s.db.Relied s.clock r c → ¬ s.db.Unreferenced r c ∨ s.db.ActivelyLinked r c
        | _ => true
      | .act _ (.start request) => (request.manifest? H cut).all fun k =>
          k.2.chunks.all fun d => !s.locks.contains (k.1, d.id)
      | _ => true) = true)
    (by
      unfold Covered
      split
      · split
        · exact decide_eq_true_iff
        · simp
      · simp [Option.all_eq_true]
      · simp)

variable {now : Nat} {w w' : Shared} {q q' : Proc} {r : Uuid} {c : ChunkId}

theorem Db.Relied.of_ages {db db' : Db} {t t' : Nat} (ht : t ≤ t')
    (h : SessionsAge t db.sessions db'.sessions) (hr : db'.Relied t' r c) : db.Relied t r c := by
  obtain ⟨x', hx', rfl, ⟨ho, hu⟩, d, hd, rfl⟩ := hr
  obtain ⟨x, hx, ha⟩ := h x' hx'
  exact ⟨x, hx, ha.repositoryId_eq.symm, ha.live ho (lt_of_le_of_lt ht hu), d,
    ha.manifest_eq ▸ hd, rfl⟩

/-- A chunk becomes relied on only by a request whose session names it. -/
theorem Turn.relied {a : Action} (h : Turn H cut now w q a w' q') (hr : w'.db.Relied w'.clock r c) :
    w.db.Relied w.clock r c ∨ ∃ request m, a = .start request ∧
      request.manifest? H cut = some (r, m) ∧ ∃ d ∈ m.chunks, d.id = c := by
  rw [h.clock] at hr
  rcases h.sessions with hage | ⟨e, r₀, m, newId, u, request, rfl, hm, -, hs⟩
  · exact .inl (.of_ages (le_refl _) hage hr)
  obtain ⟨x', hx', rfl, ⟨ho, hu⟩, d, hd, rfl⟩ := hr
  rcases (resumeOrCreate_ok hs).2.1 x' hx' with ⟨x, hx, ha⟩ | ⟨rfl, -⟩
  · exact .inl ⟨x, hx, ha.repositoryId_eq.symm, ha.live ho hu, d, ha.manifest_eq ▸ hd, rfl⟩
  · exact .inr ⟨request, m, rfl, hm, d, hd, rfl⟩

theorem Turn.start_locks {request : Request} (h : Turn H cut now w q (.start request) w' q') :
    w'.locks = w.locks := by
  cases h <;> rfl

/-- No locked chunk is relied on. -/
def LocksSpared (s : State ι) : Prop := ∀ r c, (r, c) ∈ s.locks → ¬ s.db.Relied s.clock r c

theorem locksSpared_step {s s' : State ι} {l : Label ι} (hi : LocksSpared s) (hg : Covered H cut s l)
    (h : step H cut s l = some s') : LocksSpared s' := by
  rcases step_cases h with ⟨δ, -, rfl⟩ | ⟨p, a, w, q, rfl, ht, rfl⟩
  · intro r c hl hr
    exact hi r c hl (.of_ages (Nat.le_add_right _ _) (fun x hx => ⟨x, hx, .same⟩) hr)
  · intro r c hl hr
    rcases ht.relied hr with hr | ⟨request, m, rfl, hm, d, hd, rfl⟩
    · by_cases hold : (r, c) ∈ s.locks
      · exact hi r c hold hr
      · -- the lock has just been taken, on a chunk the guard calls covered
        generalize hq : s.procs p = q₀ at ht
        cases ht with
        | lock _ hdec =>
          rcases List.mem_cons.1 hl with e | hl
          · cases e
            obtain ⟨hun, hal⟩ := drainDecision_delete.1 hdec
            simp only [Covered, hq] at hg
            rcases hg hr with h' | h'
            · exact h' hun
            · exact hal h'
          · exact hold hl
        | rollback => exact hold (List.mem_filter.1 hl).1
        | commit => exact hold (List.mem_filter.1 hl).1
        | abort => exact hold (List.mem_filter.1 hl).1
        | _ => exact hold hl
    · exact hg _ hm d hd (ht.start_locks ▸ hl)

/-- **Reclamation spares what active uploads rely on, where it can see it.** In every run
whose steps are covered, a step that removes the bytes of a chunk from the store removes
one that no open and unexpired session of the repository names. -/
theorem drain_spares_relied (H : Hashes) (cut : Cutter) (s s' : State ι) (l : Label ι) (r : Uuid)
    (c : ChunkId) (hr : ((server H cut).guard (Covered H cut)).Reachable s)
    (hst : ((server H cut).guard (Covered H cut)).step s l s')
    (hdel : s.store r c ≠ none ∧ s'.store r c = none) : ¬ s.db.Relied s.clock r c := by
  have hinv : ((server H cut).guard (Covered H cut)).Inductive
      fun s : State ι => (Owned s ∧ SharedInv H s.toShared) ∧ LocksSpared s := by
    refine ((server_inv H cut).guard _).of_known ?_ fun s l s' _ hi hst => ?_
    · rintro s ⟨t, rfl⟩ r c hl
      exact absurd hl List.not_mem_nil
    · exact locksSpared_step hi hst.1 hst.2
  obtain ⟨⟨ho, -⟩, hspared⟩ := hinv.reachable hr
  obtain ⟨b, hb⟩ := Option.ne_none_iff_exists'.1 hdel.1
  rcases step_cases hst.2 with ⟨δ, -, rfl⟩ | ⟨p, a, w, q, -, ht, rfl⟩
  · exact absurd hdel.2 hdel.1
  rcases ht.store with hmono | ⟨r₁, c₁, todo, n, hp, -, rfl⟩
  · rw [move_toShared, hmono r c b hb] at hdel
    cases hdel.2
  · -- only the bytes under the locked key are gone
    have hsame : r = r₁ ∧ c = c₁ := by
      by_contra hne
      have := erase_some.2 ⟨hb, hne⟩
      rw [show (s.store.erase r₁ c₁) r c = none from hdel.2] at this
      cases this
    obtain ⟨rfl, rfl⟩ := hsame
    exact hspared r c (ho.holds p (r, c) (by rw [hp]; rfl))

namespace Sample

/-- Process 0 uploads byte `a` in session 7 and stops; the session runs out. Process 1
begins session 9 on an object that is the same byte, and is told to upload nothing. -/
def reliesOnExpired : List (Label (Fin 2)) :=
  begins first 1 7 [0x61] ++ puts first 1 7 [0x61] ++ [.advance sessionLifetime] ++
    begins second 1 9 [0x61]

/-- Reclaiming lists and locks the chunk. -/
def reclaims (queuedAt : Nat) : List (Label (Fin 2)) :=
  [.act first (.start (.reclaimExpiredUploads 1 0)),
    .act first (.next (.listing [⟨1, hashes.blake3 [0x61], queuedAt⟩])), .act first (.next .auto)]

end Sample

/-- Whether the next step of process 0 removes the chunk of byte `a` from the store. -/
def Sample.removesChunk (s : State (Fin 2)) : Bool :=
  (step hashes Sample.cut s (.act first (.next .auto))).any fun s' =>
    s.store 1 (hashes.blake3 [0x61]) ≠ none ∧ s'.store 1 (hashes.blake3 [0x61]) = none

open Sample in
/-- The drain deletes the chunk while the live session 9 names it; `begin_cdc` had reported
nothing missing. -/
theorem drain_deletes_relied :
    ∃ s s' : State (Fin 2), (server hashes Sample.cut).Reachable s ∧
      (server hashes Sample.cut).step s (.act 0 (.next .auto)) s' ∧
      (s.store 1 (hashes.blake3 [0x61]) ≠ none ∧ s'.store 1 (hashes.blake3 [0x61]) = none) ∧
      s.db.Relied s.clock 1 (hashes.blake3 [0x61]) ∧ s.procs 1 = .done (.plan 9 []) := by
  obtain ⟨s, hs, hrem, hrest⟩ : ∃ s : State (Fin 2), (server hashes Sample.cut).Reachable s ∧
      removesChunk s = true ∧
      s.db.Relied s.clock 1 (hashes.blake3 [0x61]) ∧ s.procs 1 = .done (.plan 9 []) :=
    LTS.exists_reachable_of_exec (reliesOnExpired ++ reclaims sessionLifetime) ⟨0, rfl⟩
      (by decide +kernel)
  obtain ⟨s', hs', hdel⟩ := (Option.any_eq_true _ _).1 hrem
  exact ⟨s, s', hs, hs', by simpa using hdel, hrest⟩

open Sample in
/-- With no second session the drain deletes the chunk of the expired one. -/
theorem drain_spares_relied_expired :
    ∃ s s' : State (Fin 2),
      ((server hashes Sample.cut).guard (Covered hashes Sample.cut)).step s (.act 0 (.next .auto)) s' ∧
      (s.store 1 (hashes.blake3 [0x61]) ≠ none ∧ s'.store 1 (hashes.blake3 [0x61]) = none) ∧
      ¬ s.db.Relied s.clock 1 (hashes.blake3 [0x61]) := by
  obtain ⟨s, hs, hrem, hg⟩ : ∃ s : State (Fin 2),
      ((server hashes Sample.cut).guard (Covered hashes Sample.cut)).Reachable s ∧
      removesChunk s = true ∧ Covered hashes Sample.cut s (.act 0 (.next .auto)) :=
    LTS.exists_reachable_of_execGuard
      (begins 0 1 7 [0x61] ++ puts 0 1 7 [0x61] ++ [.advance sessionLifetime] ++
        reclaims sessionLifetime) ⟨0, rfl⟩ (by decide +kernel)
  obtain ⟨s', hs', hdel⟩ := (Option.any_eq_true _ _).1 hrem
  have hdel : s.store 1 (hashes.blake3 [0x61]) ≠ none ∧ s'.store 1 (hashes.blake3 [0x61]) = none := by
    simpa using hdel
  exact ⟨s, s', ⟨hg, hs'⟩, hdel, drain_spares_relied hashes Sample.cut s s' _ 1 _ hs ⟨hg, hs'⟩ hdel⟩

end GitLfsDelta
