import GitLfsDelta.L5Client.Download

/-!
# What a step of a download can do

`Move` lists every move of a call of `download` with its condition; `downloadStep_move` says the
step function does nothing else. Invariants of the pipeline are proved over moves and never
unfold a step function.
-/
namespace GitLfsDelta

variable {n : Nat} {H : Hashes} {urlError : Option String} {request : DownloadRequest}

/-- The locals of the loops, in the loops. -/
def Coordinator.progress? : Coordinator → Option Progress
  | .priming p | .receiving p | .draining p | .scheduling p => some p
  | _ => none

/-- Not inside `thread::scope`. -/
def Coordinator.Outside : Coordinator → Prop
  | .starting | .creating _ | .finishing _ | .returned _ => True
  | _ => False

/-- Where a worker is after a step of `read_or_fetch_chunk`. -/
def FetchNext.worker (i : Nat) (d : ChunkDescriptor) : FetchNext → Worker
  | .go f => .fetching i d f
  | .done result => .sending i result

/-- Every move of a call, as `state ⟶ state`. -/
inductive Move (H : Hashes) (urlError : Option String) (request : DownloadRequest) :
    Pipeline n → DownloadEvent n → Pipeline n → Prop
  | disk {s cache} : Move H urlError request s (.disk cache) { s with cache := cache }
  -- before and after the scope
  | refuse {s event e} : s.coordinator.Outside →
      (∀ r, s.coordinator ≠ .returned r) → Move H urlError request s (.coordinator event) (s.fail e)
  | accept {s reply m} : s.coordinator = .starting →
      acceptManifest request reply = .ok m →
      Move H urlError request s (.coordinator (.manifest reply))
        { s with coordinator := .creating m, served := some m }
  | create {s m directory file path} : s.coordinator = .creating m →
      Move H urlError request s (.coordinator (.create directory file)) { s with
        coordinator := .priming ⟨m, 0, 0, fun _ => none⟩
        temporary := some ⟨path, []⟩
        hashed := []
        jobs := []
        jobsOpen := true
        completed := []
        workers := fun _ => .waiting }
  | keep {s m result file} : s.coordinator = .finishing m → H.sha256 s.hashed = request.oid →
      s.temporary = some file →
      Move H urlError request s (.coordinator (.keep result))
        { s with coordinator := .returned (.ok ⟨file.path, request.size⟩) }
  -- the loops
  | schedule {s p d} {next : Progress → Coordinator} :
      (s.coordinator = .priming p ∧ next = .priming ∧ p.nextScheduled < n ∨
        s.coordinator = .scheduling p ∧ next = .draining) →
      p.manifest.chunks[p.nextScheduled]? = some d → s.allStopped = false →
      Move H urlError request s (.coordinator .go) { s with
        jobs := s.jobs ++ [(p.nextScheduled, d)]
        coordinator := next { p with nextScheduled := p.nextScheduled + 1 } }
  | abandon {s p} : s.coordinator.progress? = some p → s.allStopped = true →
      Move H urlError request s (.coordinator .go)
        (s.leave p.manifest (.error (failure "chunk download worker stopped")))
  | primed {s p} : s.coordinator = .priming p →
      ¬ (p.nextScheduled < p.manifest.chunks.length ∧ p.nextScheduled < n) →
      Move H urlError request s (.coordinator .go) { s with coordinator := .receiving p }
  | receiveError {s p i e rest} : s.coordinator = .receiving p →
      p.nextWrite < p.manifest.chunks.length → s.completed = (i, .error e) :: rest →
      Move H urlError request s (.coordinator .go)
        ({ s with completed := rest }.leave p.manifest (.error e))
  | receive {s p i bytes rest} : s.coordinator = .receiving p →
      p.nextWrite < p.manifest.chunks.length → s.completed = (i, .ok bytes) :: rest →
      Move H urlError request s (.coordinator .go) { s with
        completed := rest
        coordinator := .draining { p with pending := Function.update p.pending i (some bytes) } }
  | finish {s p} : s.coordinator = .receiving p → ¬ p.nextWrite < p.manifest.chunks.length →
      Move H urlError request s (.coordinator .go) (s.leave p.manifest (.ok ()))
  | writeError {s p bytes e} : s.coordinator = .draining p → p.pending p.nextWrite = some bytes →
      Move H urlError request s (.coordinator (.write (.error e)))
        (s.leave p.manifest (.error (failure ("could not reconstruct download: " ++ e))))
  | write {s p bytes file} {next : Progress → Coordinator} : s.coordinator = .draining p →
      p.pending p.nextWrite = some bytes → s.temporary = some file →
      (p.nextScheduled < p.manifest.chunks.length ∧ next = .scheduling ∨
        ¬ p.nextScheduled < p.manifest.chunks.length ∧ next = .draining) →
      Move H urlError request s (.coordinator (.write (.ok ()))) { s with
        hashed := s.hashed ++ bytes
        temporary := some { file with content := file.content ++ bytes }
        coordinator := next { p with
          nextWrite := p.nextWrite + 1
          pending := Function.update p.pending p.nextWrite none } }
  | drained {s p} : s.coordinator = .draining p → p.pending p.nextWrite = none →
      Move H urlError request s (.coordinator .go) { s with coordinator := .receiving p }
  | joinError {s m e} : s.coordinator = .joining m (.error e) → s.allStopped = true →
      Move H urlError request s (.coordinator .go) (s.fail e)
  | join {s m} : s.coordinator = .joining m (.ok ()) → s.allStopped = true →
      Move H urlError request s (.coordinator .go) { s with coordinator := .finishing m }
  -- the workers
  | take {s w i d rest} : s.workers w = .waiting → s.jobs = (i, d) :: rest →
      Move H urlError request s (.worker w .go) { s with
        jobs := rest
        workers := Function.update s.workers w (.fetching i d .reading) }
  | stop {s w} : s.workers w = .waiting → s.jobs = [] → s.jobsOpen = false →
      Move H urlError request s (.worker w .go)
        { s with workers := Function.update s.workers w .stopped }
  | fetch {s w i d f event cache published next} : s.workers w = .fetching i d f →
      fetchStep H urlError s.cache d f event = some (cache, published, next) →
      Move H urlError request s (.worker w (.fetch event)) { s with
        cache := cache
        published := published.toList ++ s.published
        workers := Function.update s.workers w (next.worker i d) }
  | send {s w i result} : s.workers w = .sending i result → s.completed.length < n →
      Move H urlError request s (.worker w .go) { s with
        completed := s.completed ++ [(i, result)]
        workers := Function.update s.workers w .waiting }

variable {s s' : Pipeline n}

theorem schedule_move {p : Progress} {next : Progress → Coordinator}
    (hc : s.coordinator = .priming p ∧ next = .priming ∧ p.nextScheduled < n ∨
      s.coordinator = .scheduling p ∧ next = .draining)
    (h : s.schedule p next = some s') : Move H urlError request s (.coordinator .go) s' := by
  have hp : s.coordinator.progress? = some p := by
    rcases hc with ⟨hc, -⟩ | ⟨hc, -⟩
    · rw [hc]; rfl
    · rw [hc]; rfl
  unfold Pipeline.schedule at h
  split at h; · cases h
  rename_i d hd
  split at h
  · rename_i hall
    cases h; exact .abandon hp hall
  rename_i hall
  split at h
  · cases h; exact .schedule hc hd (by simpa using hall)
  · cases h

theorem coordinatorStep_move {event : CoordinatorEvent}
    (h : coordinatorStep H request s s.coordinator event = some s') :
    Move H urlError request s (.coordinator event) s' := by
  generalize hc : s.coordinator = c at h
  unfold coordinatorStep at h
  split at h
  · split at h
    · cases h; exact .refuse (by rw [hc]; trivial) (by rw [hc]; exact nofun)
    · cases h
  · split at h; · cases h
    split at h
    · cases h; exact .refuse (by rw [hc]; trivial) (by rw [hc]; exact nofun)
    · rename_i m hm
      cases h; exact .accept hc hm
  · split at h
    · cases h; exact .refuse (by rw [hc]; trivial) (by rw [hc]; exact nofun)
    · cases h; exact .refuse (by rw [hc]; trivial) (by rw [hc]; exact nofun)
    · cases h; exact .create hc
  · split at h
    · rename_i hlt
      exact schedule_move (.inl ⟨hc, rfl, hlt.2⟩) h
    · rename_i hlt
      cases h; exact .primed hc hlt
  · split at h
    · rename_i p hlt
      split at h
      · split at h
        · rename_i hall
          cases h; exact .abandon (by rw [hc]; rfl) hall
        · cases h
      · rename_i hq
        cases h; exact .receiveError hc hlt hq
      · rename_i hq
        cases h; exact .receive hc hlt hq
    · rename_i hlt
      cases h; exact .finish hc hlt
  · split at h
    · rename_i hb hfile
      split at h
      · cases h; exact .writeError hc hb
      · cases h
        split
        · rename_i hlt
          exact .write hc hb hfile (.inl ⟨hlt, rfl⟩)
        · rename_i hlt
          exact .write hc hb hfile (.inr ⟨hlt, rfl⟩)
    · cases h
  · split at h
    · rename_i hnone
      cases h; exact .drained hc (by simpa using hnone)
    · cases h
  · exact schedule_move (.inr ⟨hc, rfl⟩) h
  · split at h
    · rename_i hall
      split at h
      · cases h; exact .joinError hc hall
      · cases h; exact .join hc hall
    · cases h
  · split at h
    · cases h; exact .refuse (by rw [hc]; trivial) (by rw [hc]; exact nofun)
    rename_i hsha
    split at h
    · cases h; exact .refuse (by rw [hc]; trivial) (by rw [hc]; exact nofun)
    · rename_i hfile
      cases h; exact .keep hc (by simpa using hsha) hfile
    · cases h
  · cases h

theorem workerStep_move {w : Fin n} {event : WorkerEvent}
    (h : workerStep H urlError s w (s.workers w) event = some s') :
    Move H urlError request s (.worker w event) s' := by
  generalize hq : s.workers w = q at h
  unfold workerStep at h
  split at h
  · split at h
    · rename_i hjobs
      cases h; exact .take hq hjobs
    · rename_i hjobs
      split at h
      · cases h
      · rename_i hopen
        cases h; exact .stop hq hjobs (by simpa using hopen)
  · split at h; · cases h
    rename_i cache published next hfetch
    cases h
    have hm : Move H urlError request s _ _ := .fetch hq hfetch
    cases next <;> exact hm
  · split at h
    · rename_i hlen
      cases h; exact .send hq hlen
    · cases h
  · cases h

/-- The step function makes no other moves. -/
theorem downloadStep_move {childUrl : String → Option String} {l : DownloadEvent n}
    (h : downloadStep H childUrl request s l = some s') :
    Move H (request.action.bind fun a => childUrl a.href) request s l s' := by
  cases l with
  | disk cache =>
    cases h; exact .disk
  | coordinator event => exact coordinatorStep_move h
  | worker w event => exact workerStep_move h

/-- A step of the call itself. -/
def DownloadEvent.own : DownloadEvent n → Bool
  | .disk _ => false
  | _ => true

/-- Outside the scope the coordinator is on its own. -/
theorem Move.outside {l : DownloadEvent n} (hm : Move H urlError request s l s') (hown : l.own = true)
    (hout : s.coordinator.Outside) (hstop : ∀ w, s.workers w = .stopped) :
    (∀ r, s.coordinator ≠ .returned r) ∧
      ((∃ e, s' = s.fail e) ∨
        (∃ reply m, l = .coordinator (.manifest reply) ∧ s.coordinator = .starting ∧
          acceptManifest request reply = .ok m ∧
          s' = { s with coordinator := .creating m, served := some m }) ∨
        (∃ m path, s.coordinator = .creating m ∧ s' = { s with
          coordinator := .priming ⟨m, 0, 0, fun _ => none⟩
          temporary := some ⟨path, []⟩
          hashed := []
          jobs := []
          jobsOpen := true
          completed := []
          workers := fun _ => .waiting }) ∨
        ∃ m file, s.coordinator = .finishing m ∧ H.sha256 s.hashed = request.oid ∧
          s.temporary = some file ∧
          s' = { s with coordinator := .returned (.ok ⟨file.path, request.size⟩) }) := by
  cases hm with
  | disk => cases hown
  | refuse _ hne => exact ⟨hne, .inl ⟨_, rfl⟩⟩
  | accept hc hacc => exact ⟨by rw [hc]; exact nofun, .inr (.inl ⟨_, _, rfl, hc, hacc, rfl⟩)⟩
  | create hc => exact ⟨by rw [hc]; exact nofun, .inr (.inr (.inl ⟨_, _, hc, rfl⟩))⟩
  | keep hc hsha hfile =>
    exact ⟨by rw [hc]; exact nofun, .inr (.inr (.inr ⟨_, _, hc, hsha, hfile, rfl⟩))⟩
  | schedule hcase => rcases hcase with ⟨hc, -⟩ | ⟨hc, -⟩ <;> (rw [hc] at hout; exact hout.elim)
  | @abandon p hp => cases hc : s.coordinator <;> simp_all [Coordinator.Outside, Coordinator.progress?]
  -- inside the scope, or with a worker that is not there
  | _ => simp_all [Coordinator.Outside]

end GitLfsDelta
