import GitLfsDelta.L5Client.Download

/-!
# Download integrity

The invariant of a call of `download`: what has been written is the concatenation of the
first `next_write` chunks, each checked against its descriptor, and everything on its way
to the file (in a worker, in a channel, in `pending`) is a checked chunk of its index.
`coordinator_inv` and `worker_inv` are the step lemmas.
-/
namespace GitLfsDelta

variable {n : Nat} {H : Hashes} {request : DownloadRequest}

/-- The manifest is the one the server sent, passed `validate` and is of the object asked
for. -/
structure Accepted (request : DownloadRequest) (served : Option ObjectManifest)
    (m : ObjectManifest) : Prop where
  served : served = some m
  valid : m.validate = .ok ()
  oid : m.objectOid = request.oid
  size : m.objectSize = request.size

/-- `b` is chunk `i` of the manifest. -/
def Matches (H : Hashes) (m : ObjectManifest) (i : Nat) (b : Bytes) : Prop :=
  ∃ d, m.chunks[i]? = some d ∧ validChunk H b d = true

/-- `content` is the concatenation of checked chunks, one for each of the descriptors. -/
def Assembled (H : Hashes) (ds : List ChunkDescriptor) (content : Bytes) : Prop :=
  ∃ parts : List Bytes, List.Forall₂ (fun d b => validChunk H b d = true) ds parts ∧
    content = parts.flatten

theorem Assembled.snoc {ds : List ChunkDescriptor} {content b : Bytes} {d : ChunkDescriptor}
    (h : Assembled H ds content) (hb : validChunk H b d = true) :
    Assembled H (ds ++ [d]) (content ++ b) := by
  obtain ⟨parts, hall, rfl⟩ := h
  exact ⟨parts ++ [b], List.rel_append hall (.cons hb .nil), by simp⟩

/-- Checked chunks have the lengths their descriptors add up to. -/
theorem Assembled.length {ds : List ChunkDescriptor} {content : Bytes} (h : Assembled H ds content) :
    content.length = coverage ds := by
  obtain ⟨parts, hall, rfl⟩ := h
  induction hall with
  | nil => rfl
  | cons hb _ ih =>
    rw [List.flatten_cons, List.length_append, coverage_cons, ih, (validChunk_iff.1 hb).1]

/-! ## The invariant -/

/-- The first `k` chunks are written and hashed. -/
structure Written (H : Hashes) (request : DownloadRequest) (served : Option ObjectManifest)
    (m : ObjectManifest) (k : Nat) (temporary : Option TempFile) (hashed : Bytes) : Prop where
  accepted : Accepted request served m
  file : ∃ file, temporary = some file ∧ file.content = hashed
  assembled : Assembled H (m.chunks.take k) hashed

/-- The locals of the loops. -/
structure Progress.Ok (H : Hashes) (request : DownloadRequest) (served : Option ObjectManifest)
    (temporary : Option TempFile) (hashed : Bytes) (p : Progress) : Prop where
  written : Written H request served p.manifest p.nextWrite temporary hashed
  pending : ∀ i b, p.pending i = some b → Matches H p.manifest i b

def Coordinator.Ok (H : Hashes) (request : DownloadRequest) (served : Option ObjectManifest)
    (temporary : Option TempFile) (hashed : Bytes) : Coordinator → Prop
  | .starting => True
  | .creating m => Accepted request served m
  | .priming p | .receiving p | .draining p | .scheduling p => p.Ok H request served temporary hashed
  | .joining m (.ok ()) => Written H request served m m.chunks.length temporary hashed
  | .joining _ (.error _) => True
  | .finishing m => Written H request served m m.chunks.length temporary hashed
  | .returned (.ok r) => ∃ m, Written H request served m m.chunks.length temporary hashed ∧
      H.sha256 hashed = request.oid ∧ temporary.map (·.path) = some r.path
  | .returned (.error _) => temporary = none

/-- The manifest of the loops. -/
def Coordinator.manifest? : Coordinator → Option ObjectManifest
  | .priming p | .receiving p | .draining p | .scheduling p => some p.manifest
  | _ => none

/-- A worker has a job of the manifest, and what it sends as a chunk is one. -/
def Worker.Ok (H : Hashes) (m? : Option ObjectManifest) : Worker → Prop
  | .fetching i d f => f.Ok H d ∧ ∀ m ∈ m?, m.chunks[i]? = some d
  | .sending i (.ok b) => ∀ m ∈ m?, Matches H m i b
  | _ => True

structure DownloadInv (H : Hashes) (request : DownloadRequest) (s : Pipeline n) : Prop where
  published : ∀ p ∈ s.published, H.blake3 p.2 = p.1
  workers : ∀ i, (s.workers i).Ok H s.coordinator.manifest?
  jobs : ∀ m ∈ s.coordinator.manifest?, ∀ job ∈ s.jobs, m.chunks[job.1]? = some job.2
  completed : ∀ m ∈ s.coordinator.manifest?, ∀ i b, (i, Except.ok b) ∈ s.completed → Matches H m i b
  coordinator : s.coordinator.Ok H request s.served s.temporary s.hashed

variable {s s' : Pipeline n}

theorem downloadInv_initial (cache : Cache) : DownloadInv H request (.initial n cache) where
  published _ h := nomatch h
  workers _ := trivial
  jobs _ h := nomatch h
  completed _ h := nomatch h
  coordinator := trivial

/-! ## The coordinator's steps -/

theorem Worker.Ok.none {q : Worker} {m? : Option ObjectManifest} (h : q.Ok H m?) : q.Ok H none := by
  cases q with
  | fetching i d f => exact ⟨h.1, nofun⟩
  | sending i result =>
    cases result with
    | error e => trivial
    | ok b => exact nofun
  | _ => trivial

/-- Leaving the loops asks nothing of the workers. -/
theorem DownloadInv.leave_loops (h : DownloadInv H request s) {c : Coordinator} {t : Option TempFile}
    {o : Bool} {q : List (Nat × Except BackendError Bytes)} {m? : Option ObjectManifest}
    (hm : c.manifest? = none) (hc : c.Ok H request m? t s.hashed) :
    DownloadInv H request { s with
      coordinator := c
      temporary := t
      jobsOpen := o
      completed := q
      served := m? } where
  published := h.published
  workers i := by rw [hm]; exact (h.workers i).none
  jobs := by rw [hm]; exact nofun
  completed := by rw [hm]; exact nofun
  coordinator := hc

theorem acceptManifest_ok {reply : Reply ObjectManifest} {m : ObjectManifest}
    (h : acceptManifest request reply = .ok m) : Accepted request (some m) m := by
  unfold acceptManifest at h
  split at h; · cases h
  split at h; · cases h
  split at h; · cases h
  split at h; · cases h
  rename_i hv
  split at h; · cases h
  rename_i heq
  cases h
  rw [not_or, not_not, not_not] at heq
  exact ⟨rfl, hv, heq.1, heq.2⟩

/-- Staying in the loops with the same manifest, after a chunk was received or written. -/
theorem DownloadInv.stay (h : DownloadInv H request s) {p : Progress} {c : Coordinator}
    {t : Option TempFile} {b : Bytes} {q : List (Nat × Except BackendError Bytes)}
    (hs : s.coordinator.manifest? = some p.manifest) (hm : c.manifest? = some p.manifest)
    (hq : ∀ x ∈ q, x ∈ s.completed) (hc : c.Ok H request s.served t b) :
    DownloadInv H request { s with coordinator := c, temporary := t, hashed := b, completed := q } where
  published := h.published
  workers i := by rw [hm, ← hs]; exact h.workers i
  jobs := by rw [hm, ← hs]; exact h.jobs
  completed := by
    rw [hm, ← hs]
    exact fun m hm i b hb => h.completed m hm i b (hq _ hb)
  coordinator := hc

theorem schedule_inv (h : DownloadInv H request s) {p : Progress} {next : Progress → Coordinator}
    (hs : s.coordinator.manifest? = some p.manifest) (hp : p.Ok H request s.served s.temporary s.hashed)
    (hnext : ∀ p, (next p).manifest? = some p.manifest ∧
      ((next p).Ok H request s.served s.temporary s.hashed ↔ p.Ok H request s.served s.temporary s.hashed))
    (hst : s.schedule p next = some s') : DownloadInv H request s' := by
  unfold Pipeline.schedule at hst
  split at hst; · cases hst
  rename_i d hd
  split at hst
  · cases hst; exact h.leave_loops rfl trivial
  split at hst
  · cases hst
    obtain ⟨hm, hok⟩ := hnext { p with nextScheduled := p.nextScheduled + 1 }
    have hstay := h.stay hs hm (fun _ hx => hx) (hok.2 ⟨hp.written, hp.pending⟩)
    refine ⟨hstay.published, hstay.workers, fun m hm' job hjob => ?_, hstay.completed,
      hstay.coordinator⟩
    rcases List.mem_append.1 hjob with hjob | hjob
    · exact hstay.jobs m hm' job hjob
    · rw [List.mem_singleton] at hjob
      rw [hm, Option.mem_def, Option.some.injEq] at hm'
      rw [hjob, ← hm']
      exact hd
  · cases hst

theorem fail_inv (h : DownloadInv H request s) (e : BackendError) :
    DownloadInv H request (s.fail e) := h.leave_loops rfl rfl

theorem leave_error_inv (h : DownloadInv H request s) (m : ObjectManifest) (e : BackendError) :
    DownloadInv H request (s.leave m (.error e)) := h.leave_loops rfl trivial

/-- A chunk that comes out of the channel joins those that came early. -/
theorem receive_inv {p : Progress} (h : DownloadInv H request s) (hc : s.coordinator = .receiving p)
    (hst : coordinatorStep H request s (.receiving p) .go = some s') : DownloadInv H request s' := by
  have hp : p.Ok H request s.served s.temporary s.hashed := by
    have := h.coordinator
    rwa [hc] at this
  have hm : s.coordinator.manifest? = some p.manifest := by rw [hc]; rfl
  simp only [coordinatorStep] at hst
  split at hst
  · split at hst
    · split at hst
      · cases hst; exact leave_error_inv h _ _
      · cases hst
    · cases hst; exact h.leave_loops rfl trivial
    · rename_i index bytes rest hq
      cases hst
      have hmatch := h.completed p.manifest hm index bytes (by rw [hq]; exact List.mem_cons_self)
      refine h.stay hm rfl (fun x hx => by rw [hq]; exact List.mem_cons_of_mem _ hx)
        ⟨hp.written, fun i b hb => ?_⟩
      by_cases hi : i = index
      · subst hi
        simp only [Function.update_self, Option.some.injEq] at hb
        exact hb ▸ hmatch
      · simp only [Function.update_of_ne hi] at hb
        exact hp.pending i b hb
  · -- every chunk is written
    rename_i hdone
    cases hst
    refine h.leave_loops rfl ⟨hp.written.accepted, hp.written.file, ?_⟩
    have := hp.written.assembled
    rw [List.take_of_length_le (Nat.not_lt.1 hdone)] at this
    rwa [List.take_length]

/-- The next chunk in order is written and hashed. -/
theorem write_inv {p : Progress} {result : Except String Unit} (h : DownloadInv H request s)
    (hc : s.coordinator = .draining p)
    (hst : coordinatorStep H request s (.draining p) (.write result) = some s') :
    DownloadInv H request s' := by
  have hp : p.Ok H request s.served s.temporary s.hashed := by
    have := h.coordinator
    rwa [hc] at this
  have hm : s.coordinator.manifest? = some p.manifest := by rw [hc]; rfl
  simp only [coordinatorStep] at hst
  split at hst
  · rename_i bytes file hb hfile
    split at hst
    · cases hst; exact leave_error_inv h _ _
    · cases hst
      obtain ⟨d, hd, hv⟩ := hp.pending _ _ hb
      have hp' : Progress.Ok H request s.served (some { file with content := file.content ++ bytes })
          (s.hashed ++ bytes) { p with
            nextWrite := p.nextWrite + 1
            pending := Function.update p.pending p.nextWrite none } := by
        refine ⟨⟨hp.written.accepted, ⟨_, rfl, ?_⟩, ?_⟩, fun i b hb => ?_⟩
        · obtain ⟨file', hfile', hcontent⟩ := hp.written.file
          rw [hfile, Option.some.injEq] at hfile'
          rw [← hfile'] at hcontent
          rw [← hcontent]
        · rw [List.take_add_one, hd]
          exact hp.written.assembled.snoc hv
        · by_cases hi : i = p.nextWrite
          · subst hi
            simp at hb
          · simp only [Function.update_of_ne hi] at hb
            exact hp.pending i b hb
      split
      · exact h.stay hm rfl (fun _ hx => hx) hp'
      · exact h.stay hm rfl (fun _ hx => hx) hp'
  · cases hst

/-- **The coordinator keeps the invariant.** -/
theorem coordinator_inv {event : CoordinatorEvent} (h : DownloadInv H request s)
    (hst : coordinatorStep H request s s.coordinator event = some s') : DownloadInv H request s' := by
  have hok := h.coordinator
  generalize hc : s.coordinator = c at hst hok
  unfold coordinatorStep at hst
  split at hst
  · split at hst
    · cases hst; exact fail_inv h _
    · cases hst
  · split at hst; · cases hst
    split at hst
    · cases hst; exact fail_inv h _
    · rename_i m hm
      cases hst
      exact h.leave_loops rfl (acceptManifest_ok hm)
  · -- the channels, the hasher and the file are new
    split at hst
    · cases hst; exact fail_inv h _
    · cases hst; exact fail_inv h _
    · cases hst
      refine ⟨h.published, fun _ => trivial, fun _ _ _ hj => (nomatch hj), fun _ _ _ _ hq => (nomatch hq),
        ⟨hok, ⟨_, rfl, rfl⟩, ⟨[], .nil, rfl⟩⟩, nofun⟩
  · rename_i p
    have hm : s.coordinator.manifest? = some p.manifest := by rw [hc]; rfl
    split at hst
    · exact schedule_inv h hm hok (fun _ => ⟨rfl, Iff.rfl⟩) hst
    · cases hst; exact h.stay hm rfl (fun _ hx => hx) hok
  · exact receive_inv h hc hst
  · exact write_inv h hc hst
  · rename_i p
    have hm : s.coordinator.manifest? = some p.manifest := by rw [hc]; rfl
    split at hst
    · cases hst; exact h.stay hm rfl (fun _ hx => hx) hok
    · cases hst
  · rename_i p
    have hm : s.coordinator.manifest? = some p.manifest := by rw [hc]; rfl
    exact schedule_inv h hm hok (fun _ => ⟨rfl, Iff.rfl⟩) hst
  · split at hst
    · split at hst
      · cases hst; exact fail_inv h _
      · cases hst; exact h.leave_loops rfl hok
    · cases hst
  · -- the file is kept only if its hash is the object's
    split at hst
    · cases hst; exact fail_inv h _
    rename_i hsha
    split at hst
    · cases hst; exact fail_inv h _
    · rename_i m _ _ file hfile
      cases hst
      exact h.leave_loops rfl ⟨_, hok, by simpa using hsha, by rw [hfile]; rfl⟩
    · cases hst
  · cases hst

/-! ## The workers' steps -/

theorem set_worker_ok {m? : Option ObjectManifest} (h : ∀ i, (s.workers i).Ok H m?) {i : Fin n}
    {q : Worker} (hq : q.Ok H m?) (j : Fin n) : (Function.update s.workers i q j).Ok H m? := by
  by_cases e : j = i
  · subst e; rw [Function.update_self]; exact hq
  · rw [Function.update_of_ne e]; exact h j

/-- **A worker keeps the invariant.** -/
theorem worker_inv {urlError : Option String} {i : Fin n} {event : WorkerEvent}
    (h : DownloadInv H request s) (hst : workerStep H urlError s i (s.workers i) event = some s') :
    DownloadInv H request s' := by
  have hok := h.workers i
  generalize s.workers i = q at hst hok
  unfold workerStep at hst
  split at hst
  · split at hst
    · rename_i index d rest hjobs
      cases hst
      refine ⟨h.published, set_worker_ok h.workers ⟨trivial, fun m hm => ?_⟩, fun m hm job hjob => ?_,
        h.completed, h.coordinator⟩
      · exact h.jobs m hm (index, d) (by rw [hjobs]; exact List.mem_cons_self)
      · exact h.jobs m hm job (by rw [hjobs]; exact List.mem_cons_of_mem _ hjob)
    · split at hst
      · cases hst
      · cases hst
        exact ⟨h.published, set_worker_ok h.workers trivial, h.jobs, h.completed, h.coordinator⟩
  · split at hst; · cases hst
    rename_i cache published next hfetch
    cases hst
    obtain ⟨hnext, hpub⟩ := fetchStep_spec hok.1 hfetch
    refine ⟨fun p hp => ?_, set_worker_ok h.workers ?_, h.jobs, h.completed, h.coordinator⟩
    · rcases List.mem_append.1 hp with hp | hp
      · exact hpub p (by simpa using hp)
      · exact h.published p hp
    · cases next with
      | go f => exact ⟨hnext, hok.2⟩
      | done result =>
        cases result with
        | error e => trivial
        | ok b => exact fun m hm => ⟨_, hok.2 m hm, hnext⟩
  · rename_i index result
    split at hst
    · cases hst
      refine ⟨h.published, set_worker_ok h.workers trivial, h.jobs, fun m hm j b hb => ?_,
        h.coordinator⟩
      rcases List.mem_append.1 hb with hb | hb
      · exact h.completed m hm j b hb
      · rw [List.mem_singleton, Prod.mk.injEq] at hb
        obtain ⟨rfl, rfl⟩ := hb
        exact hok m hm
    · cases hst
  · cases hst

/-! ## Integrity -/

theorem download_inv (H : Hashes) (childUrl : String → Option String) (request : DownloadRequest)
    (n : Nat) : (download H childUrl request n).Inductive (DownloadInv H request) where
  init s hs := by
    obtain ⟨cache, rfl⟩ := hs
    exact downloadInv_initial cache
  step s l s' hs hst := by
    cases l with
    | disk cache =>
      cases hst
      exact ⟨hs.published, hs.workers, hs.jobs, hs.completed, hs.coordinator⟩
    | coordinator event => exact coordinator_inv hs hst
    | worker i event => exact worker_inv hs hst

/-- **Download integrity.** For every request, number of workers, initial cache, behaviour
of the server, of the file system and of other users of the cache, and every order in
which the workers finish:

* if the call has returned `Ok`, the file at the returned path has the requested length and
  SHA-256, and is the concatenation, in the order of the manifest the server sent, which
  `validate` accepts, of chunks that each have their descriptor's length and identity;
* if it has returned `Err`, there is no file;
* every cache entry it published has the identity it is named after. -/
theorem download_integrity (H : Hashes) (childUrl : String → Option String)
    (request : DownloadRequest) (n : Nat) (s : Pipeline n)
    (hr : (download H childUrl request n).Reachable s) :
    (∀ r, s.coordinator = .returned (.ok r) → ∃ content, s.temporary = some ⟨r.path, content⟩ ∧
      content.length = request.size.toNat ∧ H.sha256 content = request.oid ∧
      ∃ m, s.served = some m ∧ m.validate = .ok () ∧ ∃ chunks : List Bytes,
        List.Forall₂ (fun d b => b.length = d.length.toNat ∧ H.blake3 b = d.id) m.chunks chunks ∧
        content = chunks.flatten) ∧
    (∀ e, s.coordinator = .returned (.error e) → s.temporary = none) ∧
    ∀ p ∈ s.published, H.blake3 p.2 = p.1 := by
  have hi := (download_inv H childUrl request n).reachable hr
  refine ⟨fun r hret => ?_, fun e hret => ?_, hi.published⟩
  · have hok := hi.coordinator
    rw [hret] at hok
    obtain ⟨m, ⟨hacc, ⟨file, hfile, hcontent⟩, hasm⟩, hsha, hpath⟩ := hok
    rw [List.take_length] at hasm
    rw [hfile, Option.map_some, Option.some.injEq] at hpath
    rw [← hcontent] at hasm hsha
    refine ⟨file.content, by rw [hfile, ← hpath], ?_, hsha, m, hacc.served, hacc.valid, ?_⟩
    · rw [hasm.length, (validate_ok hacc.valid).1, hacc.size]
    · obtain ⟨parts, hall, hflat⟩ := hasm
      exact ⟨parts, hall.imp fun _ _ hv => validChunk_iff.1 hv, hflat⟩
  · have hok := hi.coordinator
    rw [hret] at hok
    exact hok

namespace Sample

/-- A download of byte `a`. -/
def wanted : DownloadRequest := ⟨hashes.sha256 [0x61], 1, some ⟨"https://host/objects", []⟩⟩

def downloadPath : Bytes := [0x74, 0x6d, 0x70]

/-- Two workers; the cache has byte `b` under the identity of `a`, and the server fails
once. -/
def corruptThenFetched : List (DownloadEvent 2) :=
  [.coordinator (.manifest (.response ⟨200, "200 OK"⟩ (.ok (manifest [0x61])))),
   .coordinator (.create (.ok ()) (.ok downloadPath)), .coordinator .go, .coordinator .go,
   .worker first .go, .worker first (.fetch (.read true)), .worker first (.fetch (.remove (.ok ()))),
   .worker first (.fetch (.reply (.response ⟨503, "503 Service Unavailable"⟩ (.ok [])))),
   .worker first (.fetch (.reply (.response ⟨200, "200 OK"⟩ (.ok [0x61])))),
   .worker first (.fetch (.persist .published)), .worker first .go,
   .coordinator .go, .coordinator (.write (.ok ())), .coordinator .go, .coordinator .go,
   .worker second .go, .worker first .go, .coordinator .go, .coordinator (.keep (.ok ()))]

/-- The path a call has returned. -/
def returnedPath : Coordinator → Option Bytes
  | .returned (.ok r) => some r.path
  | _ => none

end Sample

open Sample in
/-- The call returns `Ok` and has replaced the cache entry. -/
theorem download_integrity_fetched :
    ∃ s : Pipeline 2, (download hashes (fun _ => none) wanted 2).Reachable s ∧
      s.published = [(hashes.blake3 [0x61], [0x61])] ∧
      ∃ content, s.temporary = some ⟨downloadPath, content⟩ ∧
        hashes.sha256 content = hashes.sha256 [0x61] := by
  obtain ⟨s, hs, hpub, hpath⟩ : ∃ s : Pipeline 2,
      (download hashes (fun _ => none) wanted 2).Reachable s ∧
      s.published = [(hashes.blake3 [0x61], [0x61])] ∧
      returnedPath s.coordinator = some downloadPath :=
    LTS.exists_reachable_of_exec corruptThenFetched
      ⟨fun c => if c = hashes.blake3 [0x61] then some [0x62] else none, rfl⟩ (by decide +kernel)
  obtain ⟨r, hret, hr⟩ : ∃ r, s.coordinator = .returned (.ok r) ∧ r.path = downloadPath := by
    unfold returnedPath at hpath
    split at hpath
    · rename_i r hret
      exact ⟨r, hret, by simpa using hpath⟩
    · cases hpath
  obtain ⟨content, hfile, -, hsha, -⟩ :=
    (download_integrity hashes (fun _ => none) wanted 2 s hs).1 r hret
  exact ⟨s, hs, hpub, content, hr ▸ hfile, hsha⟩

end GitLfsDelta
