import GitLfsDelta.L5Client.UploadMoves

/-!
# The upload worker pool

A chunk the plan lists goes from the producer to the queue, from the queue to one worker, and
stays with it (`Fate`). A worker gives up only with an error, which it reports before it stops; the
others stop when the queue is closed and empty. So when all have stopped and there is no error,
every chunk was taken by one worker and answered with success, whatever the order of the steps.

`Pool` is that invariant, with a lemma for each move; `Pool.delivered` is what it gives at the end.
-/
namespace GitLfsDelta

variable {n : Nat} {H : Hashes} {cut : Cutter} {source : Bytes} {request : UploadRequest}
  {raws : List RawChunk} {s s' : UploadState n} {log : UploadLog n}

/-! ## What a log says -/

/-- The bytes of chunk `i`. -/
def chunkBytes (raws : List RawChunk) (i : Nat) : Option Bytes := raws[i]?.map (·.data)

/-- A chunk is given up: its last answer is a failure, or it cannot be sent. -/
def UploadEvent.Fails : UploadEvent n → Prop
  | .put _ _ _ _ (.done (.error _)) | .unsendable _ _ _ => True
  | _ => False

/-- Some chunk has failed permanently. -/
def PutFailed (log : UploadLog n) : Prop := ∃ x ∈ log, x.Fails

/-- An event of a worker. -/
def UploadEvent.OfWorker : UploadEvent n → Prop
  | .put _ _ _ _ _ | .unsendable _ _ _ => True
  | _ => False

/-- The chunks of the plan, and no others, were sent: each by one worker, with its bytes, and
answered with success. -/
structure Delivered (raws : List RawChunk) (missing : List Nat) (puts : UploadLog n) : Prop where
  each : ∀ i ∈ missing, ∃ w bytes, chunkBytes raws i = some bytes ∧
    (∃ status body, status.isSuccess = true ∧
      .put w i bytes (.response status body) (.done (.ok ())) ∈ puts) ∧
    ∀ v b reply next, .put v i b reply next ∈ puts → v = w ∧ b = bytes
  only : ∀ w i bytes reply next, .put w i bytes reply next ∈ puts → i ∈ missing
  clean : ¬ PutFailed puts
  ofWorker : ∀ x ∈ puts, x.OfWorker

/-- `finalize_upload` was called after the chunks were delivered; `last` is what was seen of it
after its retries. -/
def Finalized (raws : List RawChunk) (missing : List Nat) (log last : UploadLog n) : Prop :=
  ∃ puts retries, log = puts ++ .finalize :: (retries ++ last) ∧ Delivered raws missing puts ∧
    ∀ x ∈ retries, ∃ reply, x = .finalized reply .again

theorem PutFailed.append (h : PutFailed log) (more : UploadLog n) : PutFailed (log ++ more) := by
  obtain ⟨x, hx, hfails⟩ := h
  exact ⟨x, List.mem_append_left _ hx, hfails⟩

theorem putFailed_snoc {x : UploadEvent n} (hx : x.Fails) : PutFailed (log ++ [x]) :=
  ⟨x, List.mem_append_right _ (List.mem_singleton.2 rfl), hx⟩

/-- An event that is no failure adds none. -/
theorem PutFailed.of_snoc {x : UploadEvent n} (h : PutFailed (log ++ [x])) (hx : ¬ x.Fails) :
    PutFailed log := by
  obtain ⟨y, hy, hfails⟩ := h
  rcases List.mem_append.1 hy with hy | hy
  · exact ⟨y, hy, hfails⟩
  · rw [List.mem_singleton.1 hy] at hfails
    exact absurd hfails hx

theorem finalize_notMem (h : ∀ x ∈ log, x.OfWorker) : .finalize ∉ log :=
  fun hmem => (h _ hmem).elim

theorem Finalized.not_failed {missing : List Nat} {last : UploadLog n}
    (h : Finalized raws missing log last) (hlast : ∀ x ∈ last, ∃ reply next, x = .finalized reply next) :
    ¬ PutFailed log := by
  obtain ⟨puts, retries, rfl, hdelivered, hretries⟩ := h
  intro hfailed
  obtain ⟨x, hx, hfails⟩ := hfailed
  rcases List.mem_append.1 hx with hx | hx
  · exact hdelivered.clean ⟨x, hx, hfails⟩
  rcases List.mem_cons.1 hx with rfl | hx
  · exact hfails
  rcases List.mem_append.1 hx with hx | hx
  · obtain ⟨reply, rfl⟩ := hretries x hx
    exact hfails
  · obtain ⟨reply, next, rfl⟩ := hlast x hx
    exact hfails

/-! ## Requests that succeed -/

theorem receivePost_ok {α β : Type} {doing : String} {decode : Except String α → Except BackendError β}
    {attempt : Nat} {reply : Reply α} {b : β} (h : receivePost doing decode attempt reply = .done (.ok b)) :
    ∃ status body, reply = .response status body ∧ status.isSuccess = true := by
  unfold receivePost at h
  split at h
  · split at h <;> cases h
  · rename_i status body
    split at h
    · rename_i hsuccess
      exact ⟨status, body, rfl, hsuccess⟩
    · split at h <;> cases h

theorem uploadChunk_ok {attempt : Nat} {reply : Reply Unit}
    (h : uploadChunk attempt reply = .done (.ok ())) :
    ∃ status body, reply = .response status body ∧ status.isSuccess = true := by
  have hnext : ∀ e, nextPut attempt e ≠ .done (.ok ()) := by
    intro e he
    unfold nextPut at he
    split at he <;> cases he
  unfold uploadChunk at h
  split at h
  · exact absurd h (hnext _)
  · rename_i status body
    split at h
    · rename_i hsuccess
      exact ⟨status, body, rfl, hsuccess⟩
    split at h
    · exact absurd h (hnext _)
    · cases h

/-! ## The two passes -/

/-- The second pass is where the first was: before chunk `i`, and then behind it. -/
theorem next_drop {stream stream' : ChunkStream} {chunk : Chunk} {i : Nat}
    (h : stream.next H = (some (.ok chunk), stream')) (hinner : stream.inner = raws.drop i) :
    stream'.inner = raws.drop (i + 1) ∧ chunkBytes raws i = some chunk.data := by
  obtain ⟨raw, hcons, hdata⟩ := next_ok h
  rw [hinner] at hcons
  refine ⟨?_, ?_⟩
  · rw [← List.drop_drop, hcons, List.drop_one, List.tail_cons]
  · have hget : raws[i]? = some raw := by
      rw [← List.head?_drop, hcons, List.head?_cons]
    rw [chunkBytes, hget, Option.map_some, hdata]

/-- The two checks of the plan, before and after the source is opened again. -/
theorem acceptPlan_distinct {m : ObjectManifest} {plan : BeginUploadResponse}
    (h : acceptPlan m plan = .ok ()) (hdistinct : plan.missing.dedup.length = plan.missing.length) :
    PlanAccepted m plan.missing := by
  unfold acceptPlan at h
  split at h
  · cases h
  split at h
  · cases h
  rename_i hrange
  refine ⟨fun i hi => ?_, ?_⟩
  · by_contra hge
    exact hrange (List.any_eq_true.2 ⟨i, hi, decide_eq_true (Nat.not_lt.1 hge)⟩)
  · have hsub := List.dedup_sublist plan.missing
    rw [← hsub.eq_of_length hdistinct]
    exact List.nodup_dedup _

/-! ## Where a chunk is -/

inductive Fate (n : Nat)
  | unsent
  | queued
  /-- By the worker that sends it, or has. -/
  | taken (w : Fin n)

/-- The pool when the producer has passed `k` chunks. -/
structure Pool (raws : List RawChunk) (s : UploadState n) (log : UploadLog n) (k : Nat)
    (fate : Nat → Fate n) : Prop where
  jobs : ∀ x ∈ s.jobs, fate x.1 = .queued ∧ chunkBytes raws x.1 = some x.2
  distinct : (s.jobs.map Prod.fst).Nodup
  queued : ∀ i, fate i = .queued → ∃ bytes, (i, bytes) ∈ s.jobs
  putting : ∀ w i bytes attempt, s.workers w = .putting i bytes attempt →
    fate i = .taken w ∧ chunkBytes raws i = some bytes
  taken : ∀ i w, fate i = .taken w → (∃ bytes attempt, s.workers w = .putting i bytes attempt) ∨
    (∃ bytes status body, status.isSuccess = true ∧
      .put w i bytes (.response status body) (.done (.ok ())) ∈ log) ∨ PutFailed log
  handed : ∀ i, fate i ≠ .unsent ↔ i ∈ s.missing ∧ i < k
  puts : ∀ w i bytes reply next, .put w i bytes reply next ∈ log →
    fate i = .taken w ∧ chunkBytes raws i = some bytes
  /-- An error is in the hands of the producer, or on its way. -/
  told : PutFailed log → s.producerError ≠ none ∨ s.errors ≠ [] ∨ ∃ w e, s.workers w = .failing e
  blamed : ∀ w, (∃ e, s.workers w = .failing e) ∨ s.workers w = .leaving → PutFailed log
  stopped : ∀ w, s.workers w = .stopped → PutFailed log ∨ s.jobsOpen = false ∧ s.jobs = []
  ofWorker : ∀ x ∈ log, x.OfWorker

variable {k : Nat} {fate : Nat → Fate n} {w : Fin n}

/-- The pool as it is spawned. -/
theorem pool_spawned (hjobs : s.jobs = []) (hworkers : ∀ w, s.workers w = .waiting) :
    Pool raws s [] 0 fun _ => .unsent where
  jobs x hx := by
    rw [hjobs] at hx
    cases hx
  distinct := by
    rw [hjobs]
    exact List.nodup_nil
  queued _ h := nomatch h
  putting w _ _ _ hw := by
    rw [hworkers w] at hw
    cases hw
  taken _ _ h := nomatch h
  handed i := ⟨fun h => absurd rfl h, fun h => absurd h.2 (Nat.not_lt_zero i)⟩
  puts _ _ _ _ _ h := nomatch h
  told h := by
    obtain ⟨x, hx, -⟩ := h
    cases hx
  blamed w h := by
    rw [hworkers w] at h
    rcases h with ⟨e, he⟩ | he
    · cases he
    · cases he
  stopped w hw := by
    rw [hworkers w] at hw
    cases hw
  ofWorker _ h := nomatch h

/-! ### Moves of a worker -/

/-- A worker goes on to `q` with the chunk it has, or without one. -/
theorem Pool.worker (h : Pool raws s log k fate) (q : Putter) (errors : List BackendError)
    (event : Option (UploadEvent n))
    (hputting : ∀ i bytes attempt, q = .putting i bytes attempt →
      fate i = .taken w ∧ chunkBytes raws i = some bytes)
    (htaken : ∀ i bytes attempt, s.workers w = .putting i bytes attempt →
      (∃ bytes attempt, q = .putting i bytes attempt) ∨
      (∃ bytes status body, status.isSuccess = true ∧
        .put w i bytes (.response status body) (.done (.ok ())) ∈ log ++ event.toList) ∨
      PutFailed (log ++ event.toList))
    (hevent : ∀ x, event = some x → x.OfWorker ∧ ∀ v i bytes reply next,
      x = .put v i bytes reply next → fate i = .taken v ∧ chunkBytes raws i = some bytes)
    (hfailed : PutFailed (log ++ event.toList) → PutFailed log ∨ ∃ e, q = .failing e)
    (herrors : s.errors ≠ [] ∨ (∃ e, s.workers w = .failing e) → errors ≠ [])
    (hblamed : (∃ e, q = .failing e) ∨ q = .leaving → PutFailed (log ++ event.toList))
    (hstopped : q = .stopped → PutFailed log ∨ s.jobsOpen = false ∧ s.jobs = []) :
    Pool raws { s with errors := errors, workers := Function.update s.workers w q }
      (log ++ event.toList) k fate where
  jobs := h.jobs
  distinct := h.distinct
  queued := h.queued
  handed := h.handed
  putting v i bytes attempt hv := by
    by_cases e : v = w
    · subst e
      exact hputting i bytes attempt (by simpa using hv)
    · exact h.putting v i bytes attempt (by simpa [Function.update_of_ne e] using hv)
  taken i v hv := by
    rcases h.taken i v hv with ⟨bytes, attempt, hputs⟩ | ⟨bytes, status, body, hsuccess, hmem⟩ | hfail
    · by_cases e : v = w
      · subst e
        simpa using htaken i bytes attempt hputs
      · exact .inl ⟨bytes, attempt, by simpa [Function.update_of_ne e] using hputs⟩
    · exact .inr (.inl ⟨bytes, status, body, hsuccess, List.mem_append_left _ hmem⟩)
    · exact .inr (.inr (hfail.append _))
  puts v i bytes reply next hmem := by
    rcases List.mem_append.1 hmem with hmem | hmem
    · exact h.puts v i bytes reply next hmem
    · exact (hevent _ (Option.mem_toList.1 hmem)).2 v i bytes reply next rfl
  told hfail := by
    rcases hfailed hfail with hold | ⟨e, rfl⟩
    · rcases h.told hold with herror | hne | ⟨v, e, hv⟩
      · exact .inl herror
      · exact .inr (.inl (herrors (.inl hne)))
      · by_cases hvw : v = w
        · subst hvw
          exact .inr (.inl (herrors (.inr ⟨e, hv⟩)))
        · exact .inr (.inr ⟨v, e, by simpa [Function.update_of_ne hvw] using hv⟩)
    · exact .inr (.inr ⟨w, e, Function.update_self _ _ _⟩)
  blamed v hv := by
    by_cases e : v = w
    · subst e
      exact hblamed (by simpa using hv)
    · exact (h.blamed v (by simpa [Function.update_of_ne e] using hv)).append _
  stopped v hv := by
    have hmore : PutFailed log ∨ s.jobsOpen = false ∧ s.jobs = [] := by
      by_cases e : v = w
      · subst e
        exact hstopped (by simpa using hv)
      · exact h.stopped v (by simpa [Function.update_of_ne e] using hv)
    exact hmore.imp_left fun hfail => hfail.append _
  ofWorker x hx := by
    rcases List.mem_append.1 hx with hx | hx
    · exact h.ofWorker x hx
    · exact (hevent x (Option.mem_toList.1 hx)).1

/-- A worker has an answer. -/
theorem Pool.put (h : Pool raws s log k fate) {i attempt : Nat} {bytes : Bytes} (reply : Reply Unit)
    (hw : s.workers w = .putting i bytes attempt) :
    Pool raws
      { s with workers := Function.update s.workers w ((uploadChunk attempt reply).putter i bytes attempt) }
      (log ++ [.put w i bytes reply (uploadChunk attempt reply)]) k fate := by
  have hmine := h.putting w i bytes attempt hw
  have hone : ∀ j b a, s.workers w = .putting j b a → j = i := by
    intro j b a hj
    rw [hw] at hj
    exact (Putter.putting.inj hj).1.symm
  have hquiet : s.errors ≠ [] ∨ (∃ e, s.workers w = .failing e) → s.errors ≠ [] := by
    intro hcase
    rcases hcase with hne | ⟨e, he⟩
    · exact hne
    · rw [hw] at he
      cases he
  have hevent : ∀ x, some (UploadEvent.put w i bytes reply (uploadChunk attempt reply)) = some x →
      x.OfWorker ∧ ∀ v j b r next, x = .put v j b r next →
        fate j = .taken v ∧ chunkBytes raws j = some b := by
    intro x hx
    cases hx
    refine ⟨trivial, fun v j b r next heq => ?_⟩
    cases heq
    exact hmine
  have hsent : ∀ {x : UploadEvent n}, x ∈ log ++ (some x).toList :=
    List.mem_append_right _ (List.mem_singleton.2 rfl)
  cases hnext : uploadChunk attempt reply with
  | again =>
    rw [hnext] at hevent
    refine h.worker _ _ (some _) ?_ ?_ hevent ?_ hquiet nofun nofun
    · intro j b a hq
      cases hq
      exact hmine
    · intro j b a hj
      rw [hone j b a hj]
      exact .inl ⟨bytes, attempt + 1, rfl⟩
    · intro hfail
      exact .inl (hfail.of_snoc id)
  | done result =>
    cases result with
    | ok u =>
      obtain ⟨status, body, rfl, hsuccess⟩ := uploadChunk_ok hnext
      rw [hnext] at hevent
      refine h.worker _ _ (some _) nofun ?_ hevent ?_ hquiet nofun nofun
      · intro j b a hj
        rw [hone j b a hj]
        exact .inr (.inl ⟨bytes, status, body, hsuccess, hsent⟩)
      · intro hfail
        exact .inl (hfail.of_snoc id)
    | error e =>
      rw [hnext] at hevent
      refine h.worker _ _ (some _) nofun ?_ hevent ?_ hquiet ?_ nofun
      · intro j b a hj
        exact .inr (.inr (putFailed_snoc trivial))
      · intro _
        exact .inr ⟨e, rfl⟩
      · intro _
        exact putFailed_snoc trivial

/-- A worker has no URL for its chunk. -/
theorem Pool.unsendable (h : Pool raws s log k fate) {i attempt : Nat} {bytes : Bytes} (e : BackendError)
    (hw : s.workers w = .putting i bytes attempt) :
    Pool raws { s with workers := Function.update s.workers w (.failing e) }
      (log ++ [.unsendable w i e]) k fate := by
  refine h.worker _ _ (some _) nofun ?_ ?_ ?_ ?_ ?_ nofun
  · intro j b a hj
    exact .inr (.inr (putFailed_snoc trivial))
  · intro x hx
    cases hx
    exact ⟨trivial, nofun⟩
  · intro _
    exact .inr ⟨e, rfl⟩
  · intro hcase
    rcases hcase with hne | ⟨e', he⟩
    · exact hne
    · rw [hw] at he
      cases he
  · intro _
    exact putFailed_snoc trivial

/-- A worker without a chunk goes on: it reports its error, leaves, or finds the queue closed. -/
theorem Pool.depart (h : Pool raws s log k fate) {q : Putter} {errors : List BackendError}
    (hw : ∀ i bytes attempt, s.workers w ≠ .putting i bytes attempt)
    (hq : q = .leaving ∧ PutFailed log ∨
      q = .stopped ∧ (PutFailed log ∨ s.jobsOpen = false ∧ s.jobs = []))
    (herrors : s.errors ≠ [] ∨ (∃ e, s.workers w = .failing e) → errors ≠ []) :
    Pool raws { s with errors := errors, workers := Function.update s.workers w q } log k fate := by
  have hpool := h.worker (w := w) q errors none ?_ ?_ nofun ?_ herrors ?_ ?_
  · rw [Option.toList_none, List.append_nil] at hpool
    exact hpool
  · intro i bytes attempt heq
    rcases hq with ⟨rfl, -⟩ | ⟨rfl, -⟩ <;> cases heq
  · intro i bytes attempt heq
    exact absurd heq (hw i bytes attempt)
  · intro hfail
    rw [Option.toList_none, List.append_nil] at hfail
    exact .inl hfail
  · intro hcase
    rw [Option.toList_none, List.append_nil]
    rcases hq with ⟨-, hfail⟩ | ⟨rfl, -⟩
    · exact hfail
    · rcases hcase with ⟨e, he⟩ | he
      · cases he
      · cases he
  · intro hstopped
    rcases hq with ⟨rfl, -⟩ | ⟨-, hdone⟩
    · cases hstopped
    · exact hdone

/-- A worker takes the first chunk of the queue. -/
theorem Pool.take (h : Pool raws s log k fate) {i : Nat} {bytes : Bytes} {rest : List (Nat × Bytes)}
    (hw : s.workers w = .waiting) (hjobs : s.jobs = (i, bytes) :: rest) :
    Pool raws { s with jobs := rest, workers := Function.update s.workers w (.putting i bytes 0) } log k
      (Function.update fate i (.taken w)) := by
  have hfirst := h.jobs (i, bytes) (by rw [hjobs]; exact List.mem_cons_self)
  have hdistinct := h.distinct
  rw [hjobs, List.map_cons, List.nodup_cons] at hdistinct
  -- what was queued or taken before, except this chunk, still is
  have hother : ∀ {j v}, fate j = .taken v → j ≠ i := by
    intro j v hj e
    rw [e, hfirst.1] at hj
    cases hj
  have hneq : ∀ {v q}, s.workers v = q → q ≠ .waiting → v ≠ w := by
    intro v q hv hq e
    rw [e, hw] at hv
    exact hq hv.symm
  refine ⟨?_, hdistinct.2, ?_, ?_, ?_, ?_, ?_, ?_, ?_, ?_, h.ofWorker⟩
  · intro x hx
    have hne : x.1 ≠ i := by
      intro e
      have hmem : x.1 ∈ rest.map Prod.fst := List.mem_map_of_mem hx
      rw [e] at hmem
      exact hdistinct.1 hmem
    rw [Function.update_of_ne hne]
    exact h.jobs x (by rw [hjobs]; exact List.mem_cons_of_mem _ hx)
  · intro j hj
    by_cases e : j = i
    · subst e
      rw [Function.update_self] at hj
      cases hj
    · rw [Function.update_of_ne e] at hj
      obtain ⟨b, hb⟩ := h.queued j hj
      rw [hjobs] at hb
      rcases List.mem_cons.1 hb with heq | hb
      · exact absurd (Prod.mk.inj heq).1 e
      · exact ⟨b, hb⟩
  · intro v j b attempt hv
    by_cases e : v = w
    · subst e
      simp only [Function.update_self, Putter.putting.injEq] at hv
      obtain ⟨rfl, rfl, -⟩ := hv
      exact ⟨Function.update_self _ _ _, hfirst.2⟩
    · simp only [Function.update_of_ne e] at hv
      obtain ⟨hfate, hbytes⟩ := h.putting v j b attempt hv
      rw [Function.update_of_ne (hother hfate)]
      exact ⟨hfate, hbytes⟩
  · intro j v hj
    by_cases e : j = i
    · subst e
      simp only [Function.update_self, Fate.taken.injEq] at hj
      subst hj
      exact .inl ⟨bytes, 0, Function.update_self _ _ _⟩
    · rw [Function.update_of_ne e] at hj
      rcases h.taken j v hj with ⟨b, attempt, hv⟩ | hmore
      · refine .inl ⟨b, attempt, ?_⟩
        simp only [Function.update_of_ne (hneq hv nofun), hv]
      · exact .inr hmore
  · intro j
    by_cases e : j = i
    · subst e
      rw [Function.update_self]
      refine ⟨fun _ => (h.handed j).1 ?_, fun _ => nofun⟩
      rw [hfirst.1]
      nofun
    · rw [Function.update_of_ne e]
      exact h.handed j
  · intro v j b reply next hmem
    obtain ⟨hfate, hbytes⟩ := h.puts v j b reply next hmem
    rw [Function.update_of_ne (hother hfate)]
    exact ⟨hfate, hbytes⟩
  · intro hfail
    rcases h.told hfail with herror | herrors | ⟨v, e, hv⟩
    · exact .inl herror
    · exact .inr (.inl herrors)
    · refine .inr (.inr ⟨v, e, ?_⟩)
      simp only [Function.update_of_ne (hneq hv nofun), hv]
  · intro v hv
    by_cases e : v = w
    · subst e
      simp at hv
    · exact h.blamed v (by simpa [Function.update_of_ne e] using hv)
  · intro v hv
    by_cases e : v = w
    · subst e
      simp at hv
    · rcases h.stopped v (by simpa [Function.update_of_ne e] using hv) with hfail | ⟨-, hnil⟩
      · exact .inl hfail
      · rw [hjobs] at hnil
        cases hnil

/-! ### Moves of the producer -/

/-- The producer puts chunk `k` into the queue. -/
theorem Pool.hand (h : Pool raws s log k fate) {bytes : Bytes} {producer : Producer}
    (hmissing : k ∈ s.missing) (hbytes : chunkBytes raws k = some bytes) (hopen : s.jobsOpen = true) :
    Pool raws { s with jobs := s.jobs ++ [(k, bytes)], producer := producer } log (k + 1)
      (Function.update fate k .queued) := by
  have hunsent : fate k = .unsent := by
    by_contra hne
    exact absurd ((h.handed k).1 hne).2 (Nat.lt_irrefl k)
  have hother : ∀ {j}, fate j ≠ .unsent → j ≠ k := fun hj e => hj (e ▸ hunsent)
  have htaken : ∀ {j v}, fate j = .taken v → Function.update fate k .queued j = .taken v := by
    intro j v hj
    rw [Function.update_of_ne (hother (by rw [hj]; nofun)), hj]
  refine ⟨?_, ?_, ?_, ?_, ?_, ?_, ?_, h.told, h.blamed, ?_, h.ofWorker⟩
  · intro x hx
    rcases List.mem_append.1 hx with hx | hx
    · obtain ⟨hfate, hb⟩ := h.jobs x hx
      rw [Function.update_of_ne (hother (by rw [hfate]; nofun))]
      exact ⟨hfate, hb⟩
    · rw [List.mem_singleton.1 hx]
      exact ⟨Function.update_self _ _ _, hbytes⟩
  · rw [List.map_append, List.nodup_append]
    refine ⟨h.distinct, List.nodup_singleton _, ?_⟩
    intro a ha b hb e
    obtain ⟨x, hx, rfl⟩ := List.mem_map.1 ha
    rw [List.map_singleton, List.mem_singleton] at hb
    refine hother (j := x.1) ?_ (e.trans hb)
    rw [(h.jobs x hx).1]
    nofun
  · intro j hj
    by_cases e : j = k
    · subst e
      exact ⟨bytes, List.mem_append_right _ (List.mem_singleton.2 rfl)⟩
    · rw [Function.update_of_ne e] at hj
      obtain ⟨b, hb⟩ := h.queued j hj
      exact ⟨b, List.mem_append_left _ hb⟩
  · intro v j b attempt hv
    obtain ⟨hfate, hb⟩ := h.putting v j b attempt hv
    exact ⟨htaken hfate, hb⟩
  · intro j v hj
    by_cases e : j = k
    · subst e
      rw [Function.update_self] at hj
      cases hj
    · rw [Function.update_of_ne e] at hj
      exact h.taken j v hj
  · intro j
    by_cases e : j = k
    · subst e
      rw [Function.update_self]
      exact ⟨fun _ => ⟨hmissing, Nat.lt_succ_self j⟩, fun _ => nofun⟩
    · rw [Function.update_of_ne e, h.handed j]
      refine and_congr_right fun _ => ?_
      omega
  · intro v j b reply next hmem
    obtain ⟨hfate, hb⟩ := h.puts v j b reply next hmem
    exact ⟨htaken hfate, hb⟩
  · intro v hv
    rcases h.stopped v hv with hfail | ⟨hclosed, -⟩
    · exact .inl hfail
    · rw [show s.jobsOpen = true from hopen] at hclosed
      cases hclosed

/-- The pool does not depend on where the producer is. -/
theorem Pool.moved (h : Pool raws s log k fate) {producer : Producer} :
    Pool raws { s with producer := producer } log k fate :=
  ⟨h.jobs, h.distinct, h.queued, h.putting, h.taken, h.handed, h.puts, h.told, h.blamed, h.stopped,
    h.ofWorker⟩

/-- The producer passes chunk `k`, which the plan does not list. -/
theorem Pool.skip (h : Pool raws s log k fate) (hmissing : k ∉ s.missing) :
    Pool raws s log (k + 1) fate := by
  refine { h with handed := fun i => ?_ }
  rw [h.handed i]
  refine and_congr_right fun hi => ?_
  have hne : i ≠ k := fun e => hmissing (e ▸ hi)
  omega

/-- The producer leaves its loop; without an error it has looked at none. -/
theorem Pool.close (h : Pool raws s log k fate) (errors : List BackendError) {error : Option BackendError}
    (htold : error ≠ none ∨ errors = s.errors ∧ s.producerError = none) :
    Pool raws ({ s with errors := errors }.close error) log k fate := by
  refine ⟨h.jobs, h.distinct, h.queued, h.putting, h.taken, h.handed, h.puts, ?_, h.blamed, ?_, h.ofWorker⟩
  · intro hfail
    rcases htold with herror | ⟨rfl, hnone⟩
    · exact .inl herror
    · rcases h.told hfail with herror | hmore
      · exact absurd hnone herror
      · exact .inr hmore
  · intro v hv
    exact (h.stopped v hv).imp_right fun hclosed => ⟨rfl, hclosed.2⟩

/-- **The pool lost nothing** when all workers have stopped and no error is to be found. -/
theorem Pool.delivered (h : Pool raws s log k fate) (hn : 0 < n) (hall : ∀ w, s.workers w = .stopped)
    (herror : s.producerError = none) (herrors : s.errors = []) (hk : ∀ i ∈ s.missing, i < k) :
    Delivered raws s.missing log := by
  have hclean : ¬ PutFailed log := by
    intro hfail
    rcases h.told hfail with hne | hne | ⟨w, e, hw⟩
    · exact hne herror
    · exact hne herrors
    · rw [hall w] at hw
      cases hw
  have hnil : s.jobs = [] := by
    rcases h.stopped ⟨0, hn⟩ (hall _) with hfail | ⟨-, hnil⟩
    · exact absurd hfail hclean
    · exact hnil
  refine ⟨fun i hi => ?_, fun w i bytes reply next hmem => ?_, hclean, h.ofWorker⟩
  · cases hfate : fate i with
    | unsent => exact absurd hfate ((h.handed i).2 ⟨hi, hk i hi⟩)
    | queued =>
      obtain ⟨bytes, hmem⟩ := h.queued i hfate
      rw [hnil] at hmem
      cases hmem
    | taken w =>
      rcases h.taken i w hfate with ⟨bytes, attempt, hw⟩ | ⟨bytes, status, body, hsuccess, hmem⟩ | hfail
      · rw [hall w] at hw
        cases hw
      · have hbytes := (h.puts w i bytes _ _ hmem).2
        refine ⟨w, bytes, hbytes, ⟨status, body, hsuccess, hmem⟩, ?_⟩
        intro v b reply next hput
        obtain ⟨hv, hb⟩ := h.puts v i b reply next hput
        rw [hfate] at hv
        rw [hbytes] at hb
        exact ⟨(Fate.taken.inj hv).symm, (Option.some.inj hb).symm⟩
      · exact absurd hfail hclean
  · refine ((h.handed i).1 ?_).1
    rw [(h.puts w i bytes reply next hmem).1]
    nofun

end GitLfsDelta
