import GitLfsDelta.L4System.Invariant

/-!
# Draining the chunk queue

`drain_chunk_queue` deletes the bytes of a queued chunk and then its row. The row is
guarded by the foreign key of `upload_session_chunks`, whose rows outlive the upload: a
finalized or expired session keeps its links. The check before the deletion only asks for
links of *open* sessions, so a link of another session makes the `DELETE` fail after the
bytes are gone, and the loop ends there on every retry.

* `drainChunkQueue_ok`, `drainChunkQueue_error`: what the loop leaves, and when it fails.
* `drain_completes_iff`: in every reachable state the drain completes as intended exactly
  if no chunk it would delete has a link at all. `drain_blocked_by_finalized` is the state
  after an ordinary upload whose object is then collected.
* `drain_run`: with no other transaction open, the steps of a draining process are the
  loop.
-/
namespace GitLfsDelta

variable {r : Uuid} {c c' : ChunkId} {db db' : Db} {store : Store}

/-- The loop's view of a chunk depends on its own row and on links and sessions only. -/
theorem drainDecision_congr (hrow : ∀ k, k.key = (r, c) → (k ∈ db'.chunks ↔ k ∈ db.chunks))
    (hlinks : db'.sessionChunks = db.sessionChunks) (hsess : db'.sessions = db.sessions) :
    drainDecision db' r c = drainDecision db r c := by
  have hal : db'.ActivelyLinked r c ↔ db.ActivelyLinked r c := by
    simp only [Db.ActivelyLinked, hlinks, hsess]
  unfold drainDecision
  rw [Table.get?_congr hrow]
  simp only [hal]

/-- The drain's commit, for a chunk it decided to delete. -/
theorem drainCommit_delete (h : db.Inv) (hd : drainDecision db r c = .delete) :
    drainCommit db r c = if db.Linked r c then .error .foreignKey else
      .ok (db.dropChunk r c) := by
  obtain ⟨⟨k, hk, hkey, h0⟩, -⟩ := drainDecision_delete.1 hd
  have hrefs : db.referencesTo r c = [] := by
    obtain ⟨rfl, rfl⟩ := Prod.mk.inj hkey
    rw [← List.length_eq_zero_iff, length_referencesTo, ← h.counts k hk, h0]
  unfold drainCommit Db.deleteChunkRow
  rw [Table.get?_some.2 ⟨hk, hkey⟩, hrefs]
  simp only [Option.any_some, h0, decide_true, ne_eq, not_true_eq_false, false_or, true_and]
  by_cases hl : db.Linked r c
  · simp [hl]
  · simp only [hl, if_false]
    rfl

/-- What a completed loop over `cs` leaves. -/
structure Drained (r : Uuid) (cs : List ChunkId) (db : Db) (store : Store) (db' : Db)
    (store' : Store) : Prop where
  frame : ∃ C Q, db' = { db with chunks := C, queue := Q }
  chunks : ∀ k, k ∈ db'.chunks ↔
    k ∈ db.chunks ∧ ¬ (k.repositoryId = r ∧ k.chunkId ∈ cs ∧ drainDecision db r k.chunkId = .delete)
  queue : ∀ e, e ∈ db'.queue ↔
    e ∈ db.queue ∧ ¬ (e.repositoryId = r ∧ e.chunkId ∈ cs ∧ drainDecision db r e.chunkId ≠ .keep)
  bytes : ∀ r' c', store' r' c' =
    if r' = r ∧ c' ∈ cs ∧ drainDecision db r c' = .delete then none else store r' c'

theorem Drained.nil : Drained r [] db store db store where
  frame := ⟨_, _, rfl⟩
  chunks k := by simp
  queue e := by simp
  bytes r' c' := by simp

/-- The rows an iteration for `c` leaves alone decide about the other chunks as before. -/
theorem Drained.cons {cs : List ChunkId} {db₁ db₂ : Db} {store₁ store₂ : Store}
    (hnot : c ∉ cs) (hframe : ∃ C Q, db₁ = { db with chunks := C, queue := Q })
    (hchunks : ∀ k, k ∈ db₁.chunks ↔
      k ∈ db.chunks ∧ ¬ (k.key = (r, c) ∧ drainDecision db r c = .delete))
    (hqueue : ∀ e, e ∈ db₁.queue ↔
      e ∈ db.queue ∧ ¬ (e.key = (r, c) ∧ drainDecision db r c ≠ .keep))
    (hbytes : ∀ r' c', store₁ r' c' =
      if (r' = r ∧ c' = c) ∧ drainDecision db r c = .delete then none else store r' c')
    (h : Drained r cs db₁ store₁ db₂ store₂) : Drained r (c :: cs) db store db₂ store₂ := by
  obtain ⟨C, Q, rfl⟩ := hframe
  have hdec : ∀ x ∈ cs, drainDecision { db with chunks := C, queue := Q } r x =
      drainDecision db r x := by
    intro x hx
    refine drainDecision_congr (fun k hk => ?_) rfl rfl
    rw [hchunks k, hk]
    have : x ≠ c := fun e => hnot (e ▸ hx)
    simp [this]
  obtain ⟨C', Q', rfl⟩ := h.frame
  refine ⟨⟨C', Q', rfl⟩, fun k => ?_, fun e => ?_, fun r' c' => ?_⟩
  · rw [h.chunks k, hchunks k]
    grind [ChunkRow.key]
  · rw [h.queue e, hqueue e]
    grind [QueueRow.key]
  · rw [h.bytes r' c', hbytes r' c']
    grind

theorem mem_dequeue {e : QueueRow} : e ∈ (db.dequeue r c).queue ↔ e ∈ db.queue ∧ ¬ e.key = (r, c) := by
  simp [Db.dequeue, QueueRow.key]

theorem mem_dropChunk (h : db.Unreferenced r c) {k : ChunkRow} :
    k ∈ (db.dropChunk r c).chunks ↔ k ∈ db.chunks ∧ ¬ k.key = (r, c) := by
  obtain ⟨k₀, hk₀, hkey, h0⟩ := h
  unfold Db.dropChunk
  rw [Table.mem_deleteWhere, decide_eq_false_iff_not]
  refine and_congr_right fun hk => ⟨fun hn e => hn ?_, fun hn e => hn (Prod.ext e.1 e.2.1)⟩
  obtain rfl := Table.eq_of_key hk hk₀ (e.trans hkey.symm)
  exact ⟨(Prod.mk.inj e).1, (Prod.mk.inj e).2, h0⟩

theorem drainDecision_dequeue (x : ChunkId) :
    drainDecision (db.dequeue r c) r x = drainDecision db r x :=
  drainDecision_congr (fun _ _ => Iff.rfl) rfl rfl

theorem drainDecision_dropChunk (h : db.Unreferenced r c) {x : ChunkId} (hne : x ≠ c) :
    drainDecision (db.dropChunk r c) r x = drainDecision db r x := by
  refine drainDecision_congr (fun k hk => ?_) rfl rfl
  rw [mem_dropChunk h, hk]
  simp [hne]

theorem Db.Inv.dequeue (h : db.Inv) : (db.dequeue r c).Inv :=
  ⟨h.rows, h.counts, h.rowChunk, h.linkChunk, h.linkSession⟩

theorem drainChunkQueue_ok : ∀ {cs : List ChunkId} {db : Db} (store : Store), cs.Nodup → db.Inv →
    (∀ c ∈ cs, drainDecision db r c = .delete → ¬ db.Linked r c) →
    ∃ db' store', drainChunkQueue r cs db store = (.ok (), db', store') ∧
      Drained r cs db store db' store'
  | [], db, store, _, _, _ => ⟨db, store, rfl, .nil⟩
  | c :: cs, db, store, hnd, hinv, hfree => by
    obtain ⟨hnot, hnd⟩ := List.nodup_cons.1 hnd
    have hfree' : ∀ x ∈ cs, drainDecision db r x = .delete → ¬ db.Linked r x :=
      fun x hx => hfree x (List.mem_cons_of_mem _ hx)
    unfold drainChunkQueue
    cases hd : drainDecision db r c with
    | keep =>
      obtain ⟨db', store', heq, hdr⟩ := drainChunkQueue_ok store hnd hinv hfree'
      refine ⟨db', store', heq, .cons hnot ⟨_, _, rfl⟩ ?_ ?_ ?_ hdr⟩ <;> simp [hd]
    | dequeue =>
      obtain ⟨db', store', heq, hdr⟩ := drainChunkQueue_ok store hnd (hinv.dequeue (r := r) (c := c))
        fun x hx hdx => hfree' x hx ((drainDecision_dequeue x).symm.trans hdx)
      refine ⟨db', store', heq, .cons hnot ⟨_, _, rfl⟩ ?_ (fun e => ?_) ?_ hdr⟩
      · simp [hd]
      · rw [hd]; exact mem_dequeue.trans (by simp)
      · simp [hd]
    | delete =>
      have hun := (drainDecision_delete.1 hd).1
      have hcommit := drainCommit_delete hinv hd
      rw [if_neg (hfree c List.mem_cons_self hd)] at hcommit
      rw [hcommit]
      obtain ⟨db', store', heq, hdr⟩ := drainChunkQueue_ok (deleteChunk store r c) hnd
        (hinv.drain hcommit) fun x hx hdx => hfree' x hx
          ((drainDecision_dropChunk hun fun e => hnot (e ▸ hx)).symm.trans hdx)
      refine ⟨db', store', heq, .cons hnot ⟨_, _, rfl⟩ (fun k => ?_) (fun e => ?_) ?_ hdr⟩
      · rw [hd]; exact (mem_dropChunk hun).trans (by simp)
      · rw [hd]; exact mem_dequeue.trans (by simp)
      · intro r' c'; simp [hd, deleteChunk, Store.erase]

/-- A chunk the loop would delete and a session still links stops it. -/
theorem drainChunkQueue_error : ∀ {cs : List ChunkId} {db : Db} (store : Store), cs.Nodup → db.Inv →
    (∃ c ∈ cs, drainDecision db r c = .delete ∧ db.Linked r c) →
    ∃ e, (drainChunkQueue r cs db store).1 = .error e
  | [], _, _, _, _, h => by obtain ⟨c, hc, -⟩ := h; cases hc
  | c :: cs, db, store, hnd, hinv, hbad => by
    obtain ⟨hnot, hnd⟩ := List.nodup_cons.1 hnd
    obtain ⟨x, hx, hdx, hlx⟩ := hbad
    unfold drainChunkQueue
    by_cases hxc : x = c
    · subst hxc
      rw [hdx]
      simp only [drainCommit_delete hinv hdx, if_pos hlx]
      exact ⟨_, rfl⟩
    have hxs : x ∈ cs := (List.mem_cons.1 hx).resolve_left hxc
    cases hd : drainDecision db r c with
    | keep => exact drainChunkQueue_error _ hnd hinv ⟨x, hxs, hdx, hlx⟩
    | dequeue =>
      exact drainChunkQueue_error _ hnd hinv.dequeue ⟨x, hxs, (drainDecision_dequeue x).trans hdx, hlx⟩
    | delete =>
      cases hcommit : drainCommit db r c with
      | error e => exact ⟨_, rfl⟩
      | ok db₁ =>
        have hinv' := hinv.drain hcommit
        obtain ⟨rfl, -⟩ := drainCommit_ok hcommit
        have hun := (drainDecision_delete.1 hd).1
        exact drainChunkQueue_error _ hnd hinv'
          ⟨x, hxs, (drainDecision_dropChunk hun hxc).trans hdx, hlx⟩

/-! ## Completion -/

theorem listing_nodup {entries : List QueueRow} (h : QueueListing db r entries) :
    (entries.map (·.chunkId)).Nodup := by
  refine List.Nodup.map_on ?_ (h.1.nodup_iff.2 (db.queue.rows_nodup.filter _))
  intro a ha b hb hab
  obtain ⟨ha, har⟩ := List.mem_filter.1 (h.1.mem_iff.1 ha)
  obtain ⟨hb, hbr⟩ := List.mem_filter.1 (h.1.mem_iff.1 hb)
  simp only [decide_eq_true_eq] at har hbr
  exact Table.eq_of_key ha hb (Prod.ext (har.trans hbr.symm) hab)

theorem mem_listing {entries : List QueueRow} (h : QueueListing db r entries) {c : ChunkId} :
    c ∈ entries.map (·.chunkId) ↔ ∃ e ∈ db.queue, e.key = (r, c) := by
  simp only [List.mem_map, h.1.mem_iff, List.mem_filter, Table.mem_rows, decide_eq_true_eq,
    QueueRow.key, Prod.mk.injEq]
  constructor
  · intro hs
    obtain ⟨e, ⟨he, hr⟩, hc⟩ := hs
    exact ⟨e, he, hr, hc⟩
  · intro hs
    obtain ⟨e, he, hr, hc⟩ := hs
    exact ⟨e, ⟨he, hr⟩, hc⟩

/-- What the drain of a repository is for: every queued chunk that is unreferenced and not
linked by an open session is gone, and exactly the unreferenced chunks that an open session
links stay queued. -/
structure Cleaned (r : Uuid) (db : Db) (db' : Db) (store' : Store) : Prop where
  gone : ∀ e ∈ db.queue, e.repositoryId = r → db.Unreferenced r e.chunkId →
    ¬ db.ActivelyLinked r e.chunkId →
    (∀ k ∈ db'.chunks, k.key ≠ (r, e.chunkId)) ∧ store' r e.chunkId = none ∧ e ∉ db'.queue
  kept : ∀ e, e.repositoryId = r → (e ∈ db'.queue ↔
    e ∈ db.queue ∧ db.Unreferenced r e.chunkId ∧ db.ActivelyLinked r e.chunkId)

theorem Drained.cleaned {entries : List QueueRow} (hl : QueueListing db r entries) {store' : Store}
    (h : Drained r (entries.map (·.chunkId)) db store db' store') : Cleaned r db db' store' := by
  have hlisted : ∀ e ∈ db.queue, e.repositoryId = r → e.chunkId ∈ entries.map (·.chunkId) :=
    fun e he hr => (mem_listing hl).2 ⟨e, he, Prod.ext hr rfl⟩
  refine ⟨fun e he hr hun hal => ?_, fun e hr => ?_⟩
  · have hd := drainDecision_delete.2 ⟨hun, hal⟩
    have hin := hlisted e he hr
    refine ⟨fun k hk hkey => ?_, ?_, fun hq => ?_⟩
    · obtain ⟨hkr, hkc⟩ := Prod.mk.inj hkey
      exact ((h.chunks k).1 hk).2 ⟨hkr, hkc ▸ hin, hkc ▸ hd⟩
    · rw [h.bytes, if_pos ⟨rfl, hin, hd⟩]
    · exact ((h.queue e).1 hq).2 ⟨hr, hin, by rw [hd]; simp⟩
  · rw [h.queue e]
    apply and_congr_right
    intro he
    rw [← drainDecision_keep]
    simp [hr, hlisted e he hr]

/-- **When chunk cleanup completes.** In every reachable state, and for every order in which
the queue is listed, the drain returns `Ok` and has cleaned up exactly if no chunk it would
delete (queued, unreferenced, not linked by an open session) is linked by a session at
all. -/
theorem drain_completes_iff {ι : Type} [DecidableEq ι] (H : Hashes) (cut : Cutter) (s : State ι)
    (r : Uuid) (entries : List QueueRow) (hr : (server H cut).Reachable s)
    (hl : QueueListing s.db r entries) :
    ((drainChunkQueue r (entries.map (·.chunkId)) s.db s.store).1 = .ok () ∧
      Cleaned r s.db (drainChunkQueue r (entries.map (·.chunkId)) s.db s.store).2.1
        (drainChunkQueue r (entries.map (·.chunkId)) s.db s.store).2.2) ↔
    ∀ e ∈ s.db.queue, e.repositoryId = r → s.db.Unreferenced r e.chunkId →
      ¬ s.db.ActivelyLinked r e.chunkId → ¬ s.db.Linked r e.chunkId := by
  have hinv := ((server_inv H cut).reachable hr).2.db
  have hnd := listing_nodup hl
  constructor
  · rintro ⟨hok, -⟩ e he her hun hal hlink
    have hin := (mem_listing hl).2 ⟨e, he, Prod.ext her rfl⟩
    obtain ⟨err, herr⟩ := drainChunkQueue_error s.store hnd hinv
      ⟨e.chunkId, hin, drainDecision_delete.2 ⟨hun, hal⟩, hlink⟩
    rw [hok] at herr
    cases herr
  · intro hfree
    obtain ⟨db', store', heq, hdr⟩ := drainChunkQueue_ok s.store hnd hinv fun c hc hd => by
      obtain ⟨e, he, hkey⟩ := (mem_listing hl).1 hc
      obtain ⟨her, rfl⟩ := Prod.mk.inj hkey
      obtain ⟨hun, hal⟩ := drainDecision_delete.1 hd
      exact hfree e he her hun hal
    rw [heq]
    exact ⟨rfl, hdr.cleaned hl⟩

open Sample in
/-- Byte `a` is uploaded, omitted by two snapshots, staged and collected. Its chunk is
queued with count 0 and linked by the finalized session: the drain deletes the bytes, then
fails on the foreign key. -/
theorem drain_blocked_by_finalized :
    ∃ s : State (Fin 1), (server hashes Sample.cut).Reachable s ∧
      QueueListing s.db 1 [⟨1, hashes.blake3 [0x61], 1⟩] ∧
      s.db.Unreferenced 1 (hashes.blake3 [0x61]) ∧
      ¬ s.db.ActivelyLinked 1 (hashes.blake3 [0x61]) ∧
      (drainChunkQueue 1 [hashes.blake3 [0x61]] s.db s.store).1 = .error (.database .foreignKey) ∧
      s.store 1 (hashes.blake3 [0x61]) = some [0x61] ∧
      (drainChunkQueue 1 [hashes.blake3 [0x61]] s.db s.store).2.2 1 (hashes.blake3 [0x61]) = none :=
  LTS.exists_reachable_of_exec (uploads 0 1 7 [0x61] ++
    [.act 0 (.start (.submitSnapshot 1 "" [] 8)), .act 0 (.start (.submitSnapshot 1 "" [] 9)),
     .act 0 (.start (.stage 1 0)), .act 0 (.next .auto), .advance 1,
     .act 0 (.start (.collectDue 1)), .act 0 (.next (.tombstone (hashes.sha256 [0x61])))])
    ⟨0, rfl⟩ (by decide +kernel)

open Sample in
/-- An upload that is never finalized expires and is reclaimed: its links go with the
session, and the drain completes. -/
theorem drain_completes_after_expiry :
    ∃ s : State (Fin 1), (server hashes Sample.cut).Reachable s ∧
      s.store 1 (hashes.blake3 [0x61]) = some [0x61] ∧
      (drainChunkQueue 1 [hashes.blake3 [0x61]] s.db s.store).1 = .ok () := by
  obtain ⟨s, hs, hstore, hl, hfree⟩ : ∃ s : State (Fin 1), (server hashes Sample.cut).Reachable s ∧
      s.store 1 (hashes.blake3 [0x61]) = some [0x61] ∧
      QueueListing s.db 1 [⟨1, hashes.blake3 [0x61], sessionLifetime⟩] ∧
      ∀ e ∈ s.db.queue, e.repositoryId = 1 → s.db.Unreferenced 1 e.chunkId →
        ¬ s.db.ActivelyLinked 1 e.chunkId → ¬ s.db.Linked 1 e.chunkId :=
    LTS.exists_reachable_of_exec (begins 0 1 7 [0x61] ++ puts 0 1 7 [0x61] ++
      [.advance sessionLifetime, .act 0 (.start (.reclaimExpiredUploads 1 0))])
      ⟨0, rfl⟩ (by decide +kernel)
  exact ⟨s, hs, hstore, ((drain_completes_iff hashes Sample.cut s 1 _ hs hl).2 hfree).1⟩

/-! ## The loop as steps -/

section Run

variable {ι : Type} [DecidableEq ι] {H : Hashes} {cut : Cutter}

/-- With none of its chunks locked, a draining process that runs alone computes the loop. -/
theorem drain_run : ∀ (cs : List ChunkId) (s : State ι) (p : ι) (n : Nat),
    s.procs p = .draining r cs n → (∀ c ∈ cs, (r, c) ∉ s.locks) →
    ∃ k s', LTS.exec (step H cut) s (List.replicate k (.act p (.next .auto))) = some s' ∧
      (s'.db, s'.store) = (drainChunkQueue r cs s.db s.store).2 ∧
      s'.procs p = .done (match (drainChunkQueue r cs s.db s.store).1 with
        | .ok () => .admin n
        | .error e => .adminFailed e)
  | [], s, p, n, hp, _ => by
    have hst : step H cut s (.act p (.next .auto)) = some (s.move p s.toShared (.done (.admin n))) :=
      step_next (by rw [hp]; rfl)
    refine ⟨1, s.move p s.toShared (.done (.admin n)), by simp [LTS.exec, hst], rfl, ?_⟩
    rw [move_procs_self]; rfl
  | c :: cs, s, p, n, hp, hl => by
    have hlc := hl c List.mem_cons_self
    have hlcs : ∀ x ∈ cs, (r, x) ∉ s.locks := fun x hx => hl x (List.mem_cons_of_mem _ hx)
    cases hd : drainDecision s.db r c with
    | keep =>
      have hst : step H cut s (.act p (.next .auto)) =
          some (s.move p s.toShared (.draining r cs n)) :=
        step_next (by rw [hp]; simp [procNext, hlc, hd])
      obtain ⟨k, s', hrun, hw, hq⟩ := drain_run cs (s.move p s.toShared (.draining r cs n)) p n
        (move_procs_self ..) hlcs
      refine ⟨k + 1, s', by simp [List.replicate_succ, LTS.exec, hst, hrun], ?_, ?_⟩
      · rw [hw, drainChunkQueue, hd]; rfl
      · rw [hq, drainChunkQueue, hd]; rfl
    | dequeue =>
      have hst : step H cut s (.act p (.next .auto)) =
          some (s.move p { s.toShared with db := s.db.dequeue r c } (.draining r cs n)) :=
        step_next (by rw [hp]; simp [procNext, hlc, hd])
      obtain ⟨k, s', hrun, hw, hq⟩ := drain_run cs
        (s.move p { s.toShared with db := s.db.dequeue r c } (.draining r cs n)) p n
        (move_procs_self ..) hlcs
      refine ⟨k + 1, s', by simp [List.replicate_succ, LTS.exec, hst, hrun], ?_, ?_⟩
      · rw [hw, drainChunkQueue, hd]; rfl
      · rw [hq, drainChunkQueue, hd]; rfl
    | delete =>
      -- lock the row, delete the bytes, commit or roll back
      let s₁ := s.move p { s.toShared with locks := (r, c) :: s.locks } (.deleting r c cs n)
      let s₂ := s₁.move p { s₁.toShared with store := deleteChunk s.store r c } (.deleted r c cs n)
      have h₁ : step H cut s (.act p (.next .auto)) = some s₁ :=
        step_next (by rw [hp]; simp [procNext, hlc, hd])
      have h₂ : step H cut s₁ (.act p (.next .auto)) = some s₂ :=
        step_next (by rw [move_procs_self]; rfl)
      have hlocks : (s₂.toShared.unlock (r, c)).locks = s.locks.filter (· ≠ (r, c)) := by
        simp [s₂, s₁, Shared.unlock]
      cases hc : drainCommit s.db r c with
      | error e =>
        have h₃ : step H cut s₂ (.act p (.next .auto)) =
            some (s₂.move p (s₂.toShared.unlock (r, c)) (.done (.adminFailed (.database e)))) := by
          apply step_next
          rw [move_procs_self]
          simp only [procNext]
          rw [show s₂.toShared.db = s.db from rfl, hc]
        refine ⟨3, _, by simp [List.replicate_succ, LTS.exec, h₁, h₂, h₃]; rfl, ?_, ?_⟩
        · rw [drainChunkQueue, hd]; simp only [hc]; rfl
        · rw [move_procs_self, drainChunkQueue, hd]; simp only [hc]
      | ok db₁ =>
        have h₃ : step H cut s₂ (.act p (.next .auto)) =
            some (s₂.move p { s₂.toShared.unlock (r, c) with db := db₁ } (.draining r cs n)) := by
          apply step_next
          rw [move_procs_self]
          simp only [procNext]
          rw [show s₂.toShared.db = s.db from rfl, hc]
        obtain ⟨k, s', hrun, hw, hq⟩ := drain_run cs
          (s₂.move p { s₂.toShared.unlock (r, c) with db := db₁ } (.draining r cs n)) p n
          (move_procs_self ..) fun x hx hin =>
            hlcs x hx (List.mem_filter.1 (hlocks ▸ hin : (r, x) ∈ s.locks.filter (· ≠ (r, c)))).1
        refine ⟨k + 3, s', by simp [List.replicate_succ, LTS.exec, h₁, h₂, h₃, hrun], ?_, ?_⟩
        · rw [hw, drainChunkQueue, hd]; simp only [hc]; rfl
        · rw [hq, drainChunkQueue, hd]; simp only [hc]; rfl

end Run

end GitLfsDelta
