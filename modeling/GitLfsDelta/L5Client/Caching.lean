import GitLfsDelta.L5Client.Scheduling

/-!
# The local cache

A download against a server that answers correctly, on a file system where a call fails only
because a file to remove is not there, or a file to create is. Whatever the cache holds at the
start, such a download should return the object.

It does not always: two workers with the same chunk can both find its entry corrupt, and the
second `remove_file` then fails. Only the first occurrence of a chunk can find the entry the
call started with: it replaces it before it is written, and the chunks `n` or more places
further on are not scheduled before that.

* `cache_transparent_iff`: every such download returns the object, if and only if no chunk with
  an invalid entry occurs again less than `n` places after its first occurrence
  (`Undisturbed`).
* `cache_disturbed`: an object where one does, and a run that returns an error.
-/
namespace GitLfsDelta

variable {n : Nat} {H : Hashes} {childUrl : String → Option String} {request : DownloadRequest}
  {cache : Cache} {m : ObjectManifest} {parts : List Bytes}

/-! ## Honest runs -/

/-- The manifest is one of the requested object, and `parts` are its chunks. -/
structure Offer (H : Hashes) (childUrl : String → Option String) (request : DownloadRequest)
    (m : ObjectManifest) (parts : List Bytes) : Prop where
  action : ∃ a, request.action = some a ∧ childUrl a.href = none
  valid : m.validate = .ok ()
  oid : m.objectOid = request.oid
  size : m.objectSize = request.size
  chunks : List.Forall₂ (fun d b => validChunk H b d = true) m.chunks parts
  sha : H.sha256 parts.flatten = request.oid

/-- The server answers correctly, no other program touches the cache, and a file-system call
fails only if a file to remove is not there. (`persist_noclobber` reports a name that is taken
as `alreadyExists`.) -/
def Honest (m : ObjectManifest) (parts : List Bytes) (s : Pipeline n) : DownloadEvent n → Prop
  | .disk _ => False
  | .coordinator .go => True
  | .coordinator (.manifest reply) => ∃ text, reply = .response ⟨200, text⟩ (.ok m)
  | .coordinator (.create directory file) => directory = .ok () ∧ ∃ path, file = .ok path
  | .coordinator (.write result) => result = .ok ()
  | .coordinator (.keep result) => result = .ok ()
  | .worker _ .go => True
  | .worker w (.fetch event) =>
    match s.workers w, event with
    | .fetching _ _ _, .read readable => readable = true
    | .fetching _ d _, .remove (.error _) => s.cache d.id = none
    | .fetching i _ _, .reply reply => ∃ text b, parts[i]? = some b ∧ reply = .response ⟨200, text⟩ (.ok b)
    | .fetching _ _ _, .persist result => result = .published ∨ result = .alreadyExists
    | _, _ => True

/-- Every interleaving of a download on the given cache. -/
def honestDownload (H : Hashes) (childUrl : String → Option String) (request : DownloadRequest)
    (n : Nat) (cache : Cache) (m : ObjectManifest) (parts : List Bytes) :
    LTS (Pipeline n) (DownloadEvent n) :=
  (LTS.ofFn (fun s => s = .initial n cache) (downloadStep H childUrl request)).guard (Honest m parts)

/-- Every run ends, and returns the object. -/
def Transparent (H : Hashes) (childUrl : String → Option String) (request : DownloadRequest)
    (n : Nat) (cache : Cache) (m : ObjectManifest) (parts : List Bytes) : Prop :=
  (∃ bound, ∀ s ls, (honestDownload H childUrl request n cache m parts).Run (.initial n cache) ls s →
    ls.length ≤ bound) ∧
  ∀ s, (honestDownload H childUrl request n cache m parts).Reachable s →
    ((∀ r, s.coordinator ≠ .returned r) →
      ∃ l s', (honestDownload H childUrl request n cache m parts).step s l s') ∧
    ∀ r, s.coordinator = .returned r →
      ∃ path, r = .ok ⟨path, request.size⟩ ∧ s.temporary = some ⟨path, parts.flatten⟩

/-- Index `i` is the first of its chunk. -/
def FirstAt (m : ObjectManifest) (i : Nat) (d : ChunkDescriptor) : Prop :=
  m.chunks[i]? = some d ∧ ∀ k < i, ∀ e, m.chunks[k]? = some e → e.id ≠ d.id

/-- A chunk that occurs again less than `n` places after its first occurrence has no cache entry,
or a valid one. -/
def Undisturbed (H : Hashes) (n : Nat) (cache : Cache) (m : ObjectManifest) : Prop :=
  ∀ i d, FirstAt m i d → ∀ j d', m.chunks[j]? = some d' → d'.id = d.id → i < j → j < i + n →
    ∀ b, cache d.id = some b → validChunk H b d = true

/-! ## Chunks -/

theorem Offer.part (ho : Offer H childUrl request m parts) {i : Nat} {d : ChunkDescriptor}
    (hd : m.chunks[i]? = some d) : ∃ b, parts[i]? = some b ∧ validChunk H b d = true := by
  have hlen := ho.chunks.length_eq
  obtain ⟨hi, rfl⟩ := List.getElem?_eq_some_iff.1 hd
  have hi' : i < parts.length := by omega
  exact ⟨parts[i], List.getElem?_eq_getElem hi', List.Forall₂.get ho.chunks hi hi'⟩

/-- The strings a download can take for a chunk. -/
def Candidates (cache : Cache) (parts : List Bytes) : Set Bytes :=
  {b | b ∈ parts ∨ ∃ c, cache c = some b}

/-- What has the identity and the length of a chunk is the chunk. -/
theorem Offer.unique (ho : Offer H childUrl request m parts)
    (hB : H.CollisionFree (Candidates cache parts)) {i : Nat} {d : ChunkDescriptor} {b : Bytes}
    (hd : m.chunks[i]? = some d) (hb : b ∈ Candidates cache parts) (hv : H.blake3 b = d.id) :
    parts[i]? = some b := by
  obtain ⟨b', hb', hv'⟩ := ho.part hd
  have hmem : b' ∈ Candidates cache parts := .inl (List.mem_of_getElem? hb')
  rw [hB hb hmem (hv.trans (validChunk_iff.1 hv').2.symm)]
  exact hb'

/-- Equal chunks have equal descriptors of them. -/
theorem Offer.valid_of_id (ho : Offer H childUrl request m parts)
    (hB : H.CollisionFree (Candidates cache parts)) {j : Nat} {d d' : ChunkDescriptor} {b : Bytes}
    (hd' : m.chunks[j]? = some d') (hid : d'.id = d.id)
    (hb : b ∈ Candidates cache parts) (hv : validChunk H b d = true) : validChunk H b d' = true := by
  obtain ⟨b', hb', hv'⟩ := ho.part hd'
  have hblake := (validChunk_iff.1 hv).2
  have := ho.unique hB hd' hb (hblake.trans hid.symm)
  rw [hb', Option.some.injEq] at this
  exact this ▸ hv'

/-! ## What honest runs keep -/

variable {s s' : Pipeline n} {t : Trace}

/-- The call works on the server's manifest. -/
structure HonestInv (H : Hashes) (request : DownloadRequest) (m : ObjectManifest) (s : Pipeline n) :
    Prop where
  data : DownloadInv H request s
  creating : ∀ m', s.coordinator = .creating m' → m' = m
  manifest : ∀ p, s.coordinator.progress? = some p → p.manifest = m
  jobs : ∀ x ∈ s.jobs, m.chunks[x.1]? = some x.2
  workers : ∀ w i d f, s.workers w = .fetching i d f → m.chunks[i]? = some d

theorem honestInv_initial (cache : Cache) : HonestInv H request m (.initial n cache) where
  data := downloadInv_initial cache
  creating _ h := nomatch h
  manifest _ h := nomatch h
  jobs _ h := nomatch h
  workers _ _ _ _ h := nomatch h

theorem acceptManifest_honest {text : String} {m' : ObjectManifest}
    (h : acceptManifest request (.response ⟨200, text⟩ (.ok m)) = .ok m') : m' = m := by
  unfold acceptManifest at h
  simp only at h
  split at h; · cases h
  split at h; · cases h
  split at h; · cases h
  cases h; rfl

/-- A worker other than `w` is where it was. -/
theorem worker_update {w v : Fin n} {q q' : Worker} (h : Function.update s.workers w q v = q') :
    v = w ∧ q = q' ∨ v ≠ w ∧ s.workers v = q' := by
  by_cases e : v = w
  · subst e
    rw [Function.update_self] at h
    exact .inl ⟨rfl, h⟩
  · rw [Function.update_of_ne e] at h
    exact .inr ⟨e, h⟩

theorem HonestInv.move {urlError : Option String} {l : DownloadEvent n} (h : HonestInv H request m s)
    (hd : DownloadInv H request s') (hg : Honest m parts s l) (hm : Move H urlError request s l s') :
    HonestInv H request m s' := by
  have hmanifest := h.manifest
  cases hm with
  | disk => exact hg.elim
  | refuse => exact ⟨hd, fun _ hc => (nomatch hc), fun _ hp => (nomatch hp), h.jobs, h.workers⟩
  | accept _ hacc =>
    obtain ⟨text, rfl⟩ := hg
    obtain rfl := acceptManifest_honest hacc
    refine ⟨hd, fun _ hc => ?_, fun _ hp => (nomatch hp), h.jobs, h.workers⟩
    cases hc; rfl
  | create hc =>
    refine ⟨hd, fun _ hc => (nomatch hc), fun p hp => ?_, fun _ hx => (nomatch hx), fun _ _ _ _ hw => ?_⟩
    · cases hp
      exact h.creating _ hc
    · cases hw
  | keep => exact ⟨hd, fun _ hc => (nomatch hc), fun _ hp => (nomatch hp), h.jobs, h.workers⟩
  | @schedule p d next hcase hget =>
    have hp : p.manifest = m := by
      rcases hcase with ⟨hc, -⟩ | ⟨hc, -⟩
      · exact h.manifest p (by rw [hc]; rfl)
      · exact h.manifest p (by rw [hc]; rfl)
    refine ⟨hd, fun m' hc => ?_, fun p' hp' => ?_, fun x hx => ?_, h.workers⟩
    · rcases hcase with ⟨-, rfl, -⟩ | ⟨-, rfl⟩ <;> cases hc
    · rcases hcase with ⟨-, rfl, -⟩ | ⟨-, rfl⟩ <;> (cases hp'; exact hp)
    · rcases List.mem_append.1 hx with hx | hx
      · exact h.jobs x hx
      · rw [List.mem_singleton] at hx
        rw [hx, ← hp]
        exact hget
  | abandon => exact ⟨hd, fun _ hc => (nomatch hc), fun _ hp => (nomatch hp), h.jobs, h.workers⟩
  | primed hc =>
    refine ⟨hd, fun _ hc => (nomatch hc), fun p hp => ?_, h.jobs, h.workers⟩
    cases hp
    exact h.manifest _ (by rw [hc]; rfl)
  | receiveError => exact ⟨hd, fun _ hc => (nomatch hc), fun _ hp => (nomatch hp), h.jobs, h.workers⟩
  | @receive p i bytes rest hc =>
    refine ⟨hd, fun _ hc => (nomatch hc), fun p' hp => ?_, h.jobs, h.workers⟩
    cases hp
    exact h.manifest p (by rw [hc]; rfl)
  | finish => exact ⟨hd, fun _ hc => (nomatch hc), fun _ hp => (nomatch hp), h.jobs, h.workers⟩
  | writeError => exact ⟨hd, fun _ hc => (nomatch hc), fun _ hp => (nomatch hp), h.jobs, h.workers⟩
  | @write p bytes file next hc _ _ hnext =>
    have hp := h.manifest p (by rw [hc]; rfl)
    refine ⟨hd, fun m' hc => ?_, fun p' hp' => ?_, h.jobs, h.workers⟩
    · rcases hnext with ⟨-, rfl⟩ | ⟨-, rfl⟩ <;> cases hc
    · rcases hnext with ⟨-, rfl⟩ | ⟨-, rfl⟩ <;> (cases hp'; exact hp)
  | drained hc =>
    refine ⟨hd, fun _ hc => (nomatch hc), fun p hp => ?_, h.jobs, h.workers⟩
    cases hp
    exact h.manifest _ (by rw [hc]; rfl)
  | joinError => exact ⟨hd, fun _ hc => (nomatch hc), fun _ hp => (nomatch hp), h.jobs, h.workers⟩
  | join => exact ⟨hd, fun _ hc => (nomatch hc), fun _ hp => (nomatch hp), h.jobs, h.workers⟩
  | take hw hjobs =>
    refine ⟨hd, h.creating, hmanifest, fun x hx => ?_, fun v j e f hv => ?_⟩
    · exact h.jobs x (by rw [hjobs]; exact List.mem_cons_of_mem _ hx)
    · rcases worker_update hv with ⟨-, hq⟩ | ⟨-, hv⟩
      · cases hq
        exact h.jobs _ (by rw [hjobs]; exact List.mem_cons_self)
      · exact h.workers v j e f hv
  | stop hw =>
    refine ⟨hd, h.creating, hmanifest, h.jobs, fun v j e f hv => ?_⟩
    rcases worker_update hv with ⟨-, hq⟩ | ⟨-, hv⟩
    · cases hq
    · exact h.workers v j e f hv
  | @fetch w i d f event cache published next hw hfetch =>
    refine ⟨hd, h.creating, hmanifest, h.jobs, fun v j e f' hv => ?_⟩
    rcases worker_update hv with ⟨-, hq⟩ | ⟨-, hv⟩
    · cases next with
      | go f'' =>
        cases hq
        exact h.workers w i d f hw
      | done result => cases hq
    · exact h.workers v j e f' hv
  | send hw =>
    refine ⟨hd, h.creating, hmanifest, h.jobs, fun v j e f hv => ?_⟩
    rcases worker_update hv with ⟨-, hq⟩ | ⟨-, hv⟩
    · cases hq
    · exact h.workers v j e f hv

/-- Every file-system call and every request has an honest outcome. -/
theorem honest_fetch (ho : Offer H childUrl request m parts) (h : HonestInv H request m s) {w : Fin n}
    {i : Nat} {d : ChunkDescriptor} {f : Fetch} (hw : s.workers w = .fetching i d f)
    (urlError : Option String) : ∃ event result, Honest m parts s (.worker w (.fetch event)) ∧
      fetchStep H urlError s.cache d f event = some result := by
  cases f with
  | reading =>
    obtain ⟨result, hr⟩ : ∃ result, fetchStep H urlError s.cache d .reading (.read true) = some result := by
      apply Option.isSome_iff_exists.1
      simp only [fetchStep]
      split
      · simp only [if_true]
        split <;> rfl
      · rfl
    exact ⟨.read true, result, by simp [Honest, hw], hr⟩
  | removing =>
    cases hcache : s.cache d.id with
    | none => exact ⟨.remove (.error ""), _, by simp [Honest, hw, hcache], rfl⟩
    | some b =>
      obtain ⟨result, hr⟩ : ∃ result,
          fetchStep H urlError s.cache d .removing (.remove (.ok ())) = some result :=
        Option.isSome_iff_exists.1 (by simp [fetchStep, hcache])
      exact ⟨.remove (.ok ()), result, by simp [Honest, hw], hr⟩
  | requesting attempt =>
    obtain ⟨b, hb, -⟩ := ho.part (h.workers w i d _ hw)
    exact ⟨.reply (.response ⟨200, ""⟩ (.ok b)), _, by simp [Honest, hw, hb], rfl⟩
  | publishing bytes =>
    cases hcache : s.cache d.id with
    | none =>
      obtain ⟨result, hr⟩ : ∃ result,
          fetchStep H urlError s.cache d (.publishing bytes) (.persist .published) = some result :=
        Option.isSome_iff_exists.1 (by simp [fetchStep, hcache])
      exact ⟨.persist .published, result, by simp [Honest, hw], hr⟩
    | some b =>
      obtain ⟨result, hr⟩ : ∃ result,
          fetchStep H urlError s.cache d (.publishing bytes) (.persist .alreadyExists) = some result :=
        Option.isSome_iff_exists.1 (by simp [fetchStep, hcache])
      exact ⟨.persist .alreadyExists, result, by simp [Honest, hw], hr⟩

theorem honest_permits (m : ObjectManifest) (parts : List Bytes) (s : Pipeline n) :
    Permits (Honest m parts s) :=
  ⟨trivial, fun _ => trivial, ⟨.response ⟨200, ""⟩ (.ok m), "", rfl⟩, ⟨rfl, [], rfl⟩, rfl, rfl⟩

theorem Honest.own {l : DownloadEvent n} (h : Honest m parts s l) : l.own = true := by
  cases l with
  | disk => exact h.elim
  | _ => rfl

/-- Until the download has returned, it has an honest step. -/
theorem HonestInv.enabled (h : HonestInv H request m s) (ho : Offer H childUrl request m parts)
    (hi : SchedInv s t) (hn : 0 < n) (hne : ∀ r, s.coordinator ≠ .returned r) :
    ∃ l s', (honestDownload H childUrl request n cache m parts).step s l s' := by
  rcases hi.enabled h.data hn (honest_permits m parts s) hne
      (fun w i d f hw => honest_fetch ho h hw (request.action.bind fun a => childUrl a.href)) with
    ⟨event, s', hg, hst⟩ | ⟨w, event, s', hg, hst⟩
  · exact ⟨.coordinator event, s', hg, hst⟩
  · exact ⟨.worker w event, s', hg, hst⟩

/-- Both invariants, with some past of the run. -/
def Steady (H : Hashes) (request : DownloadRequest) (m : ObjectManifest) (s : Pipeline n)
    (t : Trace) : Prop := HonestInv H request m s ∧ SchedInv s t

theorem Steady.step {l : DownloadEvent n} (h : Steady H request m s t) (hn : 0 < n)
    (hst : (honestDownload H childUrl request n cache m parts).step s l s') :
    Steady H request m s' (t.next s l s') := by
  have hm := downloadStep_move hst.2
  have hd := (download_inv H childUrl request n).step s l s' h.1.data hst.2
  exact ⟨h.1.move hd hst.1 hm, h.2.move hn hm⟩

/-- A call that has returned takes no further steps. -/
theorem SchedInv.returned_final {urlError : Option String} {l : DownloadEvent n} (h : SchedInv s t)
    (hm : Move H urlError request s l s') (hown : l.own = true) : ∀ r, s.coordinator ≠ .returned r := by
  intro r hc
  have hout : s.coordinator.Outside := by rw [hc]; trivial
  exact (hm.outside hown hout (h.outside hout)).1 r hc

/-- An upper bound on the steps that are left, from the start of the call on. -/
def stepsLeft (m : ObjectManifest) (s : Pipeline n) : Nat :=
  match s.coordinator with
  | .starting => 30 * m.chunks.length + n + 7
  | .creating _ => 30 * m.chunks.length + n + 6
  | .returned _ => 0
  | _ => s.work

theorem stepsLeft_le (hin : s.coordinator.Entered) : stepsLeft m s ≤ s.work := by
  unfold stepsLeft
  split
  · rename_i hc
    rw [hc] at hin
    exact hin.elim
  · rename_i hc
    rw [hc] at hin
    exact hin.elim
  · exact Nat.zero_le _
  · exact le_refl _

theorem stepsLeft_eq (hin : s.coordinator.Entered) (hne : ∀ r, s.coordinator ≠ .returned r) :
    stepsLeft m s = s.work := by
  unfold stepsLeft
  split
  · rename_i hc
    rw [hc] at hin
    exact hin.elim
  · rename_i hc
    rw [hc] at hin
    exact hin.elim
  · rename_i r hc
    exact absurd hc (hne r)
  · rfl

/-- Every honest step lowers it. -/
theorem Steady.stepsLeft_lt {l : DownloadEvent n} (h : Steady H request m s t) (hn : 0 < n)
    (hst : (honestDownload H childUrl request n cache m parts).step s l s') :
    stepsLeft m s' < stepsLeft m s := by
  have hm := downloadStep_move hst.2
  have hown := Honest.own hst.1
  have hne := h.2.returned_final hm hown
  by_cases hin : s.coordinator.Entered
  · obtain ⟨hlt, hin'⟩ := h.2.work_lt hn hm hown hin
    rw [stepsLeft_eq hin hne]
    exact lt_of_le_of_lt (stepsLeft_le hin') hlt
  · have hout : s.coordinator.Outside := by
      cases hc : s.coordinator with
      | starting => trivial
      | creating => trivial
      | _ => rw [hc] at hin; exact absurd trivial hin
    have hstop := h.2.outside hout
    have hpos : 0 < stepsLeft m s := by
      unfold stepsLeft
      split
      · omega
      · omega
      · rename_i r hc
        exact absurd hc (hne r)
      · rename_i h₁ h₂ _
        cases hc : s.coordinator with
        | starting => exact absurd hc h₁
        | creating m' => exact absurd hc (h₂ m')
        | _ => rw [hc] at hin; exact absurd trivial hin
    rcases (hm.outside hown hout hstop).2 with
      ⟨e, rfl⟩ | ⟨reply, m', -, hc, -, rfl⟩ | ⟨m', path, hc, rfl⟩ | ⟨m', file, hc, -⟩
    · exact hpos
    · simp only [stepsLeft, hc]
      omega
    · obtain rfl := h.1.creating m' hc
      simp only [stepsLeft, hc, Pipeline.work, Coordinator.cost, Progress.cost, Worker.cost,
        List.length_nil, ← Finset.card_eq_sum_ones, Finset.card_univ, Fintype.card_fin]
      omega
    · rw [hc] at hin
      exact absurd trivial hin

/-- Every honest run is bounded. -/
theorem Steady.run_length {ls : List (DownloadEvent n)} (hn : 0 < n)
    (hrun : (honestDownload H childUrl request n cache m parts).Run s ls s') :
    ∀ {t}, Steady H request m s t → ls.length ≤ stepsLeft m s := by
  induction hrun with
  | nil => exact fun _ => Nat.zero_le _
  | cons hst _ ih =>
    intro t h
    have hlt := h.stepsLeft_lt hn hst
    have := ih (h.step hn hst)
    rw [List.length_cons]
    omega

/-! ## Outside the scope -/

theorem Offer.accepted (ho : Offer H childUrl request m parts) (text : String) :
    acceptManifest request (.response ⟨200, text⟩ (.ok m)) = .ok m := by
  have heq : ¬ (m.objectOid ≠ request.oid ∨ m.objectSize ≠ request.size) := by
    rw [not_or, not_not, not_not]
    exact ⟨ho.oid, ho.size⟩
  have hstatus : StatusCode.isError ⟨200, text⟩ = false := rfl
  simp only [acceptManifest, hstatus, ho.valid, if_neg heq, Bool.false_eq_true, if_false]

/-- Outside the scope an honest step goes on; only the final SHA-256 can end it. -/
theorem honest_outside {l : DownloadEvent n} (ho : Offer H childUrl request m parts)
    (hout : s.coordinator.Outside) (hstop : ∀ w, s.workers w = .stopped)
    (hst : (honestDownload H childUrl request n cache m parts).step s l s') :
    (s.coordinator = .starting ∧ s' = { s with coordinator := .creating m, served := some m }) ∨
      (∃ m' path, s.coordinator = .creating m' ∧ s' = { s with
        coordinator := .priming ⟨m', 0, 0, fun _ => none⟩
        temporary := some ⟨path, []⟩
        hashed := []
        jobs := []
        jobsOpen := true
        completed := []
        workers := fun _ => .waiting }) ∨
      ∃ m', s.coordinator = .finishing m' ∧ (H.sha256 s.hashed = request.oid →
        ∃ file, s.temporary = some file ∧
          s' = { s with coordinator := .returned (.ok ⟨file.path, request.size⟩) }) := by
  obtain ⟨hg, hstep⟩ := hst
  cases l with
  | disk => exact hg.elim
  | worker w event =>
    simp only [LTS.ofFn, downloadStep, hstop w, workerStep] at hstep
    cases hstep
  | coordinator event =>
    simp only [LTS.ofFn, downloadStep] at hstep
    cases hc : s.coordinator with
    | starting =>
      obtain ⟨a, ha, -⟩ := ho.action
      rw [hc] at hstep
      cases event with
      | go => simp [coordinatorStep, ha] at hstep
      | manifest reply =>
        obtain ⟨text, rfl⟩ := hg
        simp only [coordinatorStep, ha, Option.isNone_some, Bool.false_eq_true, if_false,
          ho.accepted text] at hstep
        cases hstep
        exact .inl ⟨rfl, rfl⟩
      | _ => cases hstep
    | creating m' =>
      rw [hc] at hstep
      cases event with
      | create directory file =>
        obtain ⟨rfl, path, rfl⟩ := hg
        cases hstep
        exact .inr (.inl ⟨m', path, rfl, rfl⟩)
      | _ => cases hstep
    | finishing m' =>
      rw [hc] at hstep
      cases event with
      | keep result =>
        obtain rfl : result = .ok () := hg
        refine .inr (.inr ⟨m', rfl, fun hsha => ?_⟩)
        simp only [coordinatorStep, hsha, ne_eq, not_true_eq_false, if_false] at hstep
        split at hstep
        · rename_i heq
          cases heq
        · rename_i file _ hfile
          cases hstep
          exact ⟨file, hfile, rfl⟩
        · cases hstep
      | _ => cases hstep
    | returned r =>
      rw [hc] at hstep
      cases event <;> cases hstep
    | _ => rw [hc] at hout; exact hout.elim

/-! ## A chunk -/

/-- Every honest step of `read_or_fetch_chunk`, as `call, disk ⟶ disk, call`. -/
inductive HonestFetch (H : Hashes) (parts : List Bytes) (i : Nat) (d : ChunkDescriptor) :
    Fetch → Cache → Cache → FetchNext → Prop
  | hit {disk b} : disk d.id = some b → validChunk H b d = true →
      HonestFetch H parts i d .reading disk disk (.done (.ok b))
  | corrupt {disk b} : disk d.id = some b → validChunk H b d = false →
      HonestFetch H parts i d .reading disk disk (.go .removing)
  | miss {disk} : disk d.id = none →
      HonestFetch H parts i d .reading disk disk (.go (.requesting 0))
  | removed {disk b} : disk d.id = some b →
      HonestFetch H parts i d .removing disk (Function.update disk d.id none) (.go (.requesting 0))
  | gone {disk e} : disk d.id = none →
      HonestFetch H parts i d .removing disk disk
        (.done (.error (failure ("could not remove corrupt cache entry: " ++ e))))
  | fetched {disk attempt b} : parts[i]? = some b →
      HonestFetch H parts i d (.requesting attempt) disk disk (.go (.publishing b))
  | published {disk b} : disk d.id = none →
      HonestFetch H parts i d (.publishing b) disk (Function.update disk d.id (some b)) (.done (.ok b))
  | taken {disk b} : HonestFetch H parts i d (.publishing b) disk disk (.done (.ok b))

theorem honestFetch_of_step (ho : Offer H childUrl request m parts) {w : Fin n} {i : Nat}
    {d : ChunkDescriptor} {f : Fetch} {event : FetchEvent} {cache' : Cache}
    {published : Option (ChunkId × Bytes)} {next : FetchNext} (hd : m.chunks[i]? = some d)
    (hw : s.workers w = .fetching i d f) (hg : Honest m parts s (.worker w (.fetch event)))
    (h : fetchStep H (request.action.bind fun a => childUrl a.href) s.cache d f event =
      some (cache', published, next)) : HonestFetch H parts i d f s.cache cache' next := by
  obtain ⟨a, ha, hurl⟩ := ho.action
  have hnone : (request.action.bind fun a => childUrl a.href) = none := by rw [ha]; exact hurl
  rw [hnone] at h
  simp only [Honest, hw] at hg
  unfold fetchStep at h
  split at h
  · rename_i readable
    obtain rfl : readable = true := hg
    split at h
    · rename_i b hb
      simp only [if_true] at h
      split at h
      · rename_i hv
        cases h; exact .hit hb hv
      · rename_i hv
        cases h; exact .corrupt hb (by simpa using hv)
    · rename_i hb
      cases h; exact .miss hb
  · cases h; exact .gone hg
  · split at h
    · rename_i hb
      obtain ⟨b, hb⟩ := Option.isSome_iff_exists.1 hb
      cases h; exact .removed hb
    · cases h
  · obtain ⟨text, b, hb, rfl⟩ := hg
    obtain ⟨b', hb', hv⟩ := ho.part hd
    rw [hb, Option.some.injEq] at hb'
    subst hb'
    have hstatus : StatusCode.isSuccess ⟨200, text⟩ = true := rfl
    simp only [receiveChunk, hstatus, hv, if_true] at h
    cases h; exact .fetched hb
  · rename_i result
    rcases hg with rfl | rfl
    · simp only at h
      split at h
      · rename_i hb
        cases h; exact .published (by simpa using hb)
      · cases h
    · simp only at h
      split at h
      · cases h; exact .taken
      · cases h
  · cases h

/-! ## Undisturbed downloads -/

/-- The bytes are those of the chunk, wherever it occurs. -/
def Fine (H : Hashes) (m : ObjectManifest) (c : ChunkId) (b : Bytes) : Prop :=
  ∀ (j : Nat) d, m.chunks[j]? = some d → d.id = c → validChunk H b d = true

/-- The cache has an entry for the chunk, and it is not the chunk. -/
def Stale (H : Hashes) (m : ObjectManifest) (disk : Cache) (c : ChunkId) : Prop :=
  ∃ b, disk c = some b ∧ ¬ Fine H m c b

/-- A call in the loops, where nothing has failed. Stale entries are those the call started with,
and the first worker that can meet one has not passed it. -/
structure LoopInv (H : Hashes) (cache : Cache) (m : ObjectManifest) (parts : List Bytes)
    (s : Pipeline n) (p : Progress) : Prop where
  entries : ∀ c b, s.cache c = some b → b ∈ Candidates cache parts
  stale : ∀ c, Stale H m s.cache c → s.cache c = cache c
  removing : ∀ w i d, s.workers w = .fetching i d .removing → Stale H m s.cache d.id ∧ FirstAt m i d
  publishing : ∀ w i d b, s.workers w = .fetching i d (.publishing b) → parts[i]? = some b
  sending : ∀ w i r, s.workers w = .sending i r → ∃ b, r = .ok b ∧ parts[i]? = some b
  completed : ∀ i r, (i, r) ∈ s.completed → ∃ b, r = .ok b ∧ parts[i]? = some b
  pending : ∀ i b, p.pending i = some b → parts[i]? = some b
  unfinished : ∀ i d, FirstAt m i d → Stale H m s.cache d.id → p.nextScheduled ≤ i ∨
    (∃ d', (i, d') ∈ s.jobs) ∨ ∃ w f, s.workers w = .fetching i d f ∧ (f = .reading ∨ f = .removing)
  content : s.hashed = (parts.take p.nextWrite).flatten

theorem exists_firstAt {j : Nat} {d : ChunkDescriptor} (hd : m.chunks[j]? = some d) :
    ∃ i e, i ≤ j ∧ FirstAt m i e ∧ e.id = d.id := by
  classical
  have hex : ∃ k : Nat, ∃ e : ChunkDescriptor, m.chunks[k]? = some e ∧ e.id = d.id := ⟨j, d, hd, rfl⟩
  obtain ⟨e, he, hid⟩ := Nat.find_spec hex
  refine ⟨Nat.find hex, e, Nat.find_min' hex ⟨d, hd, rfl⟩, ⟨he, fun k hk e' he' hid' => ?_⟩, hid⟩
  exact Nat.find_min hex hk ⟨e', he', hid'.trans hid⟩

/-- Bytes that are valid for one occurrence of a chunk are for all. -/
theorem Offer.fine (ho : Offer H childUrl request m parts)
    (hB : H.CollisionFree (Candidates cache parts)) {d : ChunkDescriptor} {b : Bytes}
    (hb : b ∈ Candidates cache parts) (hv : validChunk H b d = true) : Fine H m d.id b :=
  fun _ _ hd' hid => ho.valid_of_id hB hd' hid hb hv

/-- Only the first worker with a chunk meets a stale entry. -/
theorem LoopInv.reader {p : Progress} (h : LoopInv H cache m parts s p)
    (ho : Offer H childUrl request m parts) (hB : H.CollisionFree (Candidates cache parts))
    (hu : Undisturbed H n cache m) (hwindow : Window n s.inFlight p) {j : Nat} {d : ChunkDescriptor}
    (hd : m.chunks[j]? = some d) (hj : j ∈ s.inFlight) (hs : Stale H m s.cache d.id) :
    FirstAt m j d := by
  obtain ⟨i, e, hle, hfirst, hid⟩ := exists_firstAt hd
  rcases Nat.lt_or_eq_of_le hle with hlt | rfl
  · exfalso
    rw [← hid] at hs
    have hin := hwindow.mem hj
    have hbound := hwindow.bound
    have hwrite : p.nextWrite ≤ i := by
      rcases h.unfinished i e hfirst hs with hge | ⟨d', hjob⟩ | ⟨w, f, hw, -⟩
      · omega
      · refine (hwindow.mem ?_).1
        refine Multiset.mem_add.2 (.inl (Multiset.mem_add.2 (.inl ?_)))
        exact Multiset.mem_coe.2 (List.mem_map.2 ⟨(i, d'), hjob, rfl⟩)
      · exact (hwindow.mem (mem_inFlight (w := w) (by rw [hw]; exact Multiset.mem_singleton_self i))).1
    obtain ⟨b, hb, hnot⟩ := hs
    have hcache : cache e.id = some b := by rw [← h.stale e.id ⟨b, hb, hnot⟩, hb]
    have hvalid := hu i e hfirst j d hd hid.symm hlt (by omega) b hcache
    exact hnot (ho.fine hB (h.entries _ _ hb) hvalid)
  · have := hfirst.1
    rw [hd, Option.some.injEq] at this
    exact this ▸ hfirst

/-- A step of the loops that leaves the cache alone. -/
theorem LoopInv.quiet {p p' : Progress} (h : LoopInv H cache m parts s p)
    (hcache : s'.cache = s.cache)
    (hfetch : ∀ w i d f, s'.workers w = .fetching i d f → f = .reading ∨ s.workers w = .fetching i d f)
    (hkept : ∀ w i d f, s.workers w = .fetching i d f → s'.workers w = .fetching i d f)
    (hsend : ∀ w i r, s'.workers w = .sending i r → s.workers w = .sending i r)
    (hdone : ∀ x ∈ s'.completed, x ∈ s.completed ∨ ∃ w, s.workers w = .sending x.1 x.2)
    (hjobs : ∀ i d, FirstAt m i d → p.nextScheduled ≤ i ∨ (∃ d', (i, d') ∈ s.jobs) →
      p'.nextScheduled ≤ i ∨ (∃ d', (i, d') ∈ s'.jobs) ∨ ∃ w, s'.workers w = .fetching i d .reading)
    (hpending : ∀ i b, p'.pending i = some b → p.pending i = some b ∨ (i, .ok b) ∈ s.completed)
    (hcontent : s'.hashed = (parts.take p'.nextWrite).flatten) : LoopInv H cache m parts s' p' where
  entries := by rw [hcache]; exact h.entries
  stale := by rw [hcache]; exact h.stale
  removing w i d hw := by
    rw [hcache]
    rcases hfetch w i d _ hw with hf | hw
    · cases hf
    · exact h.removing w i d hw
  publishing w i d b hw := by
    rcases hfetch w i d _ hw with hf | hw
    · cases hf
    · exact h.publishing w i d b hw
  sending w i r hw := h.sending w i r (hsend w i r hw)
  completed i r hx := by
    rcases hdone _ hx with hx | ⟨w, hw⟩
    · exact h.completed i r hx
    · exact h.sending w i r hw
  pending i b hb := by
    rcases hpending i b hb with hb | hx
    · exact h.pending i b hb
    · obtain ⟨b', hr, hb'⟩ := h.completed i _ hx
      cases hr
      exact hb'
  unfinished i d hfirst hs := by
    rw [hcache] at hs
    rcases h.unfinished i d hfirst hs with hge | hjob | ⟨w, f, hw, hf⟩
    · rcases hjobs i d hfirst (.inl hge) with hge | hjob | ⟨w, hw⟩
      · exact .inl hge
      · exact .inr (.inl hjob)
      · exact .inr (.inr ⟨w, _, hw, .inl rfl⟩)
    · rcases hjobs i d hfirst (.inr hjob) with hge | hjob | ⟨w, hw⟩
      · exact .inl hge
      · exact .inr (.inl hjob)
      · exact .inr (.inr ⟨w, _, hw, .inl rfl⟩)
    · exact .inr (.inr ⟨w, f, hkept w i d f hw, hf⟩)
  content := hcontent

/-- No two workers have the same chunk of the manifest. -/
theorem Window.sole {p : Progress} (h : Window n s.inFlight p) {v w : Fin n} {i : Nat}
    (hv : i ∈ (s.workers v).job) (hw : i ∈ (s.workers w).job) : v = w := by
  by_contra hne
  have hle : (s.workers v).job ≤ ∑ u ∈ Finset.univ.erase w, (s.workers u).job :=
    Finset.single_le_sum (f := fun u => (s.workers u).job) (fun _ _ => Multiset.zero_le _)
      (Finset.mem_erase.2 ⟨hne, Finset.mem_univ v⟩)
  have hsum := Finset.add_sum_erase Finset.univ (fun u => (s.workers u).job) (Finset.mem_univ w)
  have htwo : 2 ≤ (∑ u, (s.workers u).job).count i := by
    have h₁ := Multiset.count_pos.2 hw
    have h₂ := Multiset.count_pos.2 (Multiset.mem_of_le hle hv)
    rw [← hsum, Multiset.count_add]
    omega
  have hpl := h.places i
  simp only [Pipeline.inFlight, Multiset.count_add] at hpl
  split_ifs at hpl <;> omega

/-- A step of `read_or_fetch_chunk`, given what it does to the cache and where it leaves the
worker. -/
theorem LoopInv.update {p : Progress} (h : LoopInv H cache m parts s p) {w : Fin n} {i : Nat}
    {d : ChunkDescriptor} {f : Fetch} {disk : Cache} {files : List (ChunkId × Bytes)} {q : Worker}
    (hw : s.workers w = .fetching i d f)
    (hentries : ∀ c b, disk c = some b → b ∈ Candidates cache parts)
    (hstale : ∀ c, Stale H m disk c → disk c = s.cache c)
    (hothers : ∀ v j e, v ≠ w → s.workers v = .fetching j e .removing → disk e.id = s.cache e.id)
    (hremoving : ∀ j e, q = .fetching j e .removing → Stale H m disk e.id ∧ FirstAt m j e)
    (hpublishing : ∀ j e b, q = .fetching j e (.publishing b) → parts[j]? = some b)
    (hsending : ∀ j r, q = .sending j r → ∃ b, r = .ok b ∧ parts[j]? = some b)
    (hfirst : FirstAt m i d → Stale H m disk d.id → (f = .reading ∨ f = .removing) →
      q = .fetching i d .removing) :
    LoopInv H cache m parts
      { s with cache := disk, published := files, workers := Function.update s.workers w q } p where
  entries := hentries
  stale c hs := by
    obtain ⟨b, hb, hnot⟩ := hs
    have hsame := hstale c ⟨b, hb, hnot⟩
    exact hsame.trans (h.stale c ⟨b, hsame ▸ hb, hnot⟩)
  removing v j e hv := by
    rcases worker_update hv with ⟨-, hq⟩ | ⟨hne, hv⟩
    · exact hremoving j e hq
    · obtain ⟨⟨b, hb, hnot⟩, hf⟩ := h.removing v j e hv
      exact ⟨⟨b, (hothers v j e hne hv).trans hb, hnot⟩, hf⟩
  publishing v j e b hv := by
    rcases worker_update hv with ⟨-, hq⟩ | ⟨-, hv⟩
    · exact hpublishing j e b hq
    · exact h.publishing v j e b hv
  sending v j r hv := by
    rcases worker_update hv with ⟨-, hq⟩ | ⟨-, hv⟩
    · exact hsending j r hq
    · exact h.sending v j r hv
  completed := h.completed
  pending := h.pending
  unfinished j e hj hs := by
    obtain ⟨b, hb, hnot⟩ := hs
    have hsame := hstale e.id ⟨b, hb, hnot⟩
    rcases h.unfinished j e hj ⟨b, hsame ▸ hb, hnot⟩ with hge | hjob | ⟨v, g, hv, hg⟩
    · exact .inl hge
    · exact .inr (.inl hjob)
    · by_cases hvw : v = w
      · subst hvw
        rw [hw] at hv
        cases hv
        refine .inr (.inr ⟨v, .removing, ?_, .inr rfl⟩)
        simp only [Function.update_self]
        exact hfirst hj ⟨b, hb, hnot⟩ hg
      · refine .inr (.inr ⟨v, g, ?_, hg⟩)
        simp only [Function.update_of_ne hvw]
        exact hv
  content := h.content

theorem LoopInv.fetch {p : Progress} (h : LoopInv H cache m parts s p)
    (ho : Offer H childUrl request m parts) (hB : H.CollisionFree (Candidates cache parts))
    (hu : Undisturbed H n cache m) (hwindow : Window n s.inFlight p) {w : Fin n} {i : Nat}
    {d : ChunkDescriptor} {f : Fetch} {disk : Cache} (files : List (ChunkId × Bytes))
    {next : FetchNext} (hd : m.chunks[i]? = some d) (hw : s.workers w = .fetching i d f)
    (hf : HonestFetch H parts i d f s.cache disk next) :
    LoopInv H cache m parts { s with
      cache := disk
      published := files
      workers := Function.update s.workers w (next.worker i d) } p := by
  have hmem : i ∈ s.inFlight := mem_inFlight (w := w) (by rw [hw]; exact Multiset.mem_singleton_self i)
  cases hf with
  | @hit _ b hb hv =>
    have hcand := h.entries _ _ hb
    have hfine : ¬ Stale H m s.cache d.id := by
      intro hs
      obtain ⟨b', hb', hnot⟩ := hs
      rw [hb, Option.some.injEq] at hb'
      exact hnot (hb' ▸ ho.fine hB hcand hv)
    refine h.update hw h.entries (fun _ _ => rfl) (fun _ _ _ _ _ => rfl) nofun nofun ?_
      fun _ hs => absurd hs hfine
    intro j r hq
    cases hq
    exact ⟨b, rfl, ho.unique hB hd hcand (validChunk_iff.1 hv).2⟩
  | @corrupt _ b hb hv =>
    have hs : Stale H m s.cache d.id := by
      refine ⟨b, hb, fun hfine => ?_⟩
      rw [hfine i d hd rfl] at hv
      cases hv
    refine h.update hw h.entries (fun _ _ => rfl) (fun _ _ _ _ _ => rfl) ?_ nofun nofun
      fun _ _ _ => rfl
    intro j e hq
    cases hq
    exact ⟨hs, h.reader ho hB hu hwindow hd hmem hs⟩
  | miss hb =>
    refine h.update hw h.entries (fun _ _ => rfl) (fun _ _ _ _ _ => rfl) nofun nofun nofun ?_
    intro _ hs
    obtain ⟨b, hb', -⟩ := hs
    rw [hb] at hb'
    cases hb'
  | @removed _ b hb =>
    obtain ⟨-, hfirst⟩ := h.removing w i d hw
    have hne : ∀ c, c ≠ d.id → Function.update s.cache d.id none c = s.cache c := fun c hc =>
      Function.update_of_ne hc _ _
    refine h.update hw ?_ ?_ ?_ nofun nofun nofun ?_
    · intro c b hb
      by_cases hc : c = d.id
      · subst hc
        simp at hb
      · rw [hne c hc] at hb
        exact h.entries c b hb
    · intro c hs
      obtain ⟨b, hb, -⟩ := hs
      by_cases hc : c = d.id
      · subst hc
        simp at hb
      · exact hne c hc
    · intro v j e hvw hv
      apply hne
      intro hid
      -- it would be the same occurrence, in the same worker
      obtain ⟨-, hfirst'⟩ := h.removing v j e hv
      have hij : j = i := by
        rcases Nat.lt_trichotomy j i with hlt | rfl | hlt
        · exact absurd hid (hfirst.2 j hlt e hfirst'.1)
        · rfl
        · exact absurd hid.symm (hfirst'.2 i hlt d hfirst.1)
      subst hij
      exact hvw (hwindow.sole (i := j) (by rw [hv]; exact Multiset.mem_singleton_self j)
        (by rw [hw]; exact Multiset.mem_singleton_self j))
    · intro _ hs
      obtain ⟨b, hb, -⟩ := hs
      simp at hb
  | gone hb =>
    obtain ⟨⟨b, hb', -⟩, -⟩ := h.removing w i d hw
    rw [hb] at hb'
    cases hb'
  | @fetched _ attempt b hb =>
    refine h.update hw h.entries (fun _ _ => rfl) (fun _ _ _ _ _ => rfl) nofun ?_ nofun nofun
    intro j e b' hq
    cases hq
    exact hb
  | @published _ b hb =>
    have hpart := h.publishing w i d b hw
    have hcand : b ∈ Candidates cache parts := .inl (List.mem_of_getElem? hpart)
    obtain ⟨b', hb', hv⟩ := ho.part hd
    rw [hpart, Option.some.injEq] at hb'
    subst hb'
    have hfine := ho.fine hB hcand hv
    have hne : ∀ c, c ≠ d.id → Function.update s.cache d.id (some b) c = s.cache c := fun c hc =>
      Function.update_of_ne hc _ _
    refine h.update hw ?_ ?_ ?_ nofun nofun ?_ nofun
    · intro c b' hb'
      by_cases hc : c = d.id
      · subst hc
        simp only [Function.update_self, Option.some.injEq] at hb'
        exact hb' ▸ hcand
      · rw [hne c hc] at hb'
        exact h.entries c b' hb'
    · intro c hs
      obtain ⟨b', hb', hnot⟩ := hs
      by_cases hc : c = d.id
      · subst hc
        simp only [Function.update_self, Option.some.injEq] at hb'
        exact absurd (hb' ▸ hfine) hnot
      · exact hne c hc
    · intro v j e _ hv
      apply hne
      rintro hid
      obtain ⟨⟨b', hb', -⟩, -⟩ := h.removing v j e hv
      rw [hid, hb] at hb'
      cases hb'
    · intro j r hq
      cases hq
      exact ⟨b, rfl, hpart⟩
  | @taken _ b =>
    have hpart := h.publishing w i d b hw
    refine h.update hw h.entries (fun _ _ => rfl) (fun _ _ _ _ _ => rfl) nofun nofun ?_ nofun
    intro j r hq
    cases hq
    exact ⟨b, rfl, hpart⟩

/-- An undisturbed call, from its start to its end. -/
def CacheInv (H : Hashes) (request : DownloadRequest) (cache : Cache) (m : ObjectManifest)
    (parts : List Bytes) (s : Pipeline n) : Prop :=
  match s.coordinator with
  | .starting | .creating _ => s.cache = cache
  | .priming p | .receiving p | .draining p | .scheduling p => LoopInv H cache m parts s p
  | .joining _ result => result = .ok () ∧ s.hashed = parts.flatten
  | .finishing _ => s.hashed = parts.flatten
  | .returned r => ∃ path, r = .ok ⟨path, request.size⟩ ∧ s.temporary = some ⟨path, parts.flatten⟩

theorem CacheInv.loop {p : Progress} (h : CacheInv H request cache m parts s)
    (hp : s.coordinator.progress? = some p) : LoopInv H cache m parts s p := by
  unfold CacheInv at h
  cases hc : s.coordinator with
  | priming q => rw [hc] at h hp; cases hp; exact h
  | receiving q => rw [hc] at h hp; cases hp; exact h
  | draining q => rw [hc] at h hp; cases hp; exact h
  | scheduling q => rw [hc] at h hp; cases hp; exact h
  | _ => rw [hc] at hp; cases hp

theorem LoopInv.cacheInv {p : Progress} (h : LoopInv H cache m parts s p)
    (hp : s.coordinator.progress? = some p) : CacheInv H request cache m parts s := by
  unfold CacheInv
  cases hc : s.coordinator with
  | priming q => rw [hc] at hp; cases hp; exact h
  | receiving q => rw [hc] at hp; cases hp; exact h
  | draining q => rw [hc] at hp; cases hp; exact h
  | scheduling q => rw [hc] at hp; cases hp; exact h
  | _ => rw [hc] at hp; cases hp

theorem loopInv_initial (p : Progress) (hp : p = ⟨m, 0, 0, fun _ => none⟩) (hcache : s.cache = cache)
    (hcompleted : s.completed = []) (hhashed : s.hashed = [])
    (hworkers : ∀ w, s.workers w = .waiting) : LoopInv H cache m parts s p := by
  subst hp
  refine ⟨fun c b hb => .inr ⟨c, by rw [← hcache]; exact hb⟩, fun c _ => by rw [hcache], ?_, ?_, ?_, ?_,
    nofun, fun i _ _ _ => .inl (Nat.zero_le i), by simp [hhashed]⟩
  · intro w i d hw
    rw [hworkers w] at hw
    cases hw
  · intro w i d b hw
    rw [hworkers w] at hw
    cases hw
  · intro w i r hw
    rw [hworkers w] at hw
    cases hw
  · intro i r hx
    rw [hcompleted] at hx
    cases hx

/-- A worker's step matters only in the loops. -/
theorem CacheInv.worker (h : CacheInv H request cache m parts s) (hc : s'.coordinator = s.coordinator)
    (hh : s'.hashed = s.hashed) (hin : ¬ s.coordinator.Outside)
    (hloop : ∀ p, s.coordinator.progress? = some p → LoopInv H cache m parts s p →
      LoopInv H cache m parts s' p) : CacheInv H request cache m parts s' := by
  cases hp : s.coordinator.progress? with
  | some p => exact (hloop p hp (h.loop hp)).cacheInv (by rw [hc]; exact hp)
  | none =>
    unfold CacheInv at h ⊢
    rw [hc, hh]
    cases hc' : s.coordinator with
    | joining m' result => rw [hc'] at h; exact h
    | starting => exact absurd (hc' ▸ trivial) hin
    | creating => exact absurd (hc' ▸ trivial) hin
    | finishing => exact absurd (hc' ▸ trivial) hin
    | returned => exact absurd (hc' ▸ trivial) hin
    | _ => rw [hc'] at hp; cases hp

/-- A step of the coordinator in the loops. -/
theorem LoopInv.coordinator {p q : Progress} (h : LoopInv H cache m parts s p)
    (hp : s'.coordinator.progress? = some q) (hcache : s'.cache = s.cache)
    (hworkers : s'.workers = s.workers) (hdone : ∀ x ∈ s'.completed, x ∈ s.completed)
    (hjobs : ∀ i, p.nextScheduled ≤ i ∨ (∃ d', (i, d') ∈ s.jobs) →
      q.nextScheduled ≤ i ∨ ∃ d', (i, d') ∈ s'.jobs)
    (hpending : ∀ i b, q.pending i = some b → p.pending i = some b ∨ (i, .ok b) ∈ s.completed)
    (hcontent : s'.hashed = (parts.take q.nextWrite).flatten) : CacheInv H request cache m parts s' := by
  refine LoopInv.cacheInv ?_ hp
  apply h.quiet hcache
  · exact fun w i d f hw => .inr (by rw [← hworkers]; exact hw)
  · exact fun w i d f hw => by rw [hworkers]; exact hw
  · exact fun w i r hw => by rw [← hworkers]; exact hw
  · exact fun x hx => .inl (hdone x hx)
  · exact fun i d _ hcase => (hjobs i hcase).imp_right .inl
  · exact hpending
  · exact hcontent

theorem take_flatten_succ {k : Nat} {b : Bytes} (h : parts[k]? = some b) :
    (parts.take k).flatten ++ b = (parts.take (k + 1)).flatten := by
  rw [List.take_add_one, h, List.flatten_append]
  simp

/-- **An undisturbed download stays one.** -/
theorem CacheInv.step {l : DownloadEvent n} (h : CacheInv H request cache m parts s)
    (hs : Steady H request m s t) (ho : Offer H childUrl request m parts)
    (hB : H.CollisionFree (Candidates cache parts)) (hu : Undisturbed H n cache m) (hn : 0 < n)
    (hst : (honestDownload H childUrl request n cache m parts).step s l s') :
    CacheInv H request cache m parts s' := by
  by_cases hout : s.coordinator.Outside
  · rcases honest_outside ho hout (hs.2.outside hout) hst with
      ⟨hc, rfl⟩ | ⟨m', path, hc, rfl⟩ | ⟨m', hc, hkeep⟩
    · simp only [CacheInv, hc] at h ⊢
      exact h
    · obtain rfl := hs.1.creating m' hc
      simp only [CacheInv, hc] at h
      exact loopInv_initial _ rfl h rfl rfl fun _ => rfl
    · simp only [CacheInv, hc] at h
      have hsha : H.sha256 s.hashed = request.oid := by rw [h]; exact ho.sha
      obtain ⟨file, hfile, rfl⟩ := hkeep hsha
      have hok := hs.1.data.coordinator
      rw [hc] at hok
      obtain ⟨file', hfile', hcontent⟩ := hok.file
      rw [hfile, Option.some.injEq] at hfile'
      refine ⟨file.path, rfl, ?_⟩
      rw [hfile, hfile', ← h, ← hcontent]
  · obtain ⟨hg, hstep⟩ := hst
    cases downloadStep_move hstep with
    | disk => exact hg.elim
    | refuse hout' => exact absurd hout' hout
    | accept hc => exact absurd (hc ▸ trivial) hout
    | create hc => exact absurd (hc ▸ trivial) hout
    | keep hc => exact absurd (hc ▸ trivial) hout
    | @schedule p d next hcase hget =>
      have hp : s.coordinator.progress? = some p := by
        rcases hcase with ⟨hc, -⟩ | ⟨hc, -⟩ <;> rw [hc] <;> rfl
      have hl := h.loop hp
      refine hl.coordinator (q := { p with nextScheduled := p.nextScheduled + 1 }) ?_ rfl rfl
        (fun _ hx => hx) (fun i hcase => ?_) (fun _ _ hb => .inl hb) hl.content
      · rcases hcase with ⟨-, rfl, -⟩ | ⟨-, rfl⟩ <;> rfl
      · rcases hcase with hge | ⟨d', hjob⟩
        · rcases Nat.lt_or_eq_of_le hge with hlt | rfl
          · exact .inl hlt
          · exact .inr ⟨d, List.mem_append_right _ (List.mem_singleton.2 rfl)⟩
        · exact .inr ⟨d', List.mem_append_left _ hjob⟩
    | abandon hp hall =>
      rw [(hs.2.loops _ hp).not_allStopped hn] at hall
      cases hall
    | @primed p hc =>
      have hl := h.loop (p := p) (by rw [hc]; rfl)
      exact hl.coordinator (q := p) rfl rfl rfl (fun _ hx => hx) (fun _ hj => hj)
        (fun _ _ hb => .inl hb) hl.content
    | @receiveError p i e rest hc _ hq =>
      have hl := h.loop (p := p) (by rw [hc]; rfl)
      obtain ⟨b, hr, -⟩ := hl.completed i (.error e) (by rw [hq]; exact List.mem_cons_self)
      cases hr
    | @receive p i bytes rest hc _ hq =>
      have hl := h.loop (p := p) (by rw [hc]; rfl)
      refine hl.coordinator (q := { p with pending := Function.update p.pending i (some bytes) }) rfl rfl
        rfl (fun x hx => by rw [hq]; exact List.mem_cons_of_mem _ hx) (fun _ hj => hj) (fun j b hb => ?_)
        hl.content
      by_cases e : j = i
      · subst e
        simp only [Function.update_self, Option.some.injEq] at hb
        exact .inr (by rw [hq, hb]; exact List.mem_cons_self)
      · simp only [Function.update_of_ne e] at hb
        exact .inl hb
    | @finish p hc hdone =>
      have hl := h.loop (p := p) (by rw [hc]; rfl)
      refine ⟨rfl, ?_⟩
      have hlen := ho.chunks.length_eq
      rw [hs.1.manifest p (by rw [hc]; rfl)] at hdone
      change s.hashed = parts.flatten
      rw [hl.content, List.take_of_length_le (by omega)]
    | writeError => cases hg
    | @write p bytes file next hc hb hfile hnext =>
      have hl := h.loop (p := p) (by rw [hc]; rfl)
      refine hl.coordinator (q := { p with
          nextWrite := p.nextWrite + 1
          pending := Function.update p.pending p.nextWrite none }) ?_ rfl rfl (fun _ hx => hx)
        (fun _ hj => hj) (fun j b hb => ?_) ?_
      · rcases hnext with ⟨-, rfl⟩ | ⟨-, rfl⟩ <;> rfl
      · by_cases e : j = p.nextWrite
        · subst e
          simp at hb
        · simp only [Function.update_of_ne e] at hb
          exact .inl hb
      · simp only [hl.content]
        exact take_flatten_succ (hl.pending _ _ hb)
    | @drained p hc hb =>
      have hl := h.loop (p := p) (by rw [hc]; rfl)
      exact hl.coordinator (q := p) rfl rfl rfl (fun _ hx => hx) (fun _ hj => hj)
        (fun _ _ hb => .inl hb) hl.content
    | joinError hc =>
      simp only [CacheInv, hc] at h
      cases h.1
    | join hc =>
      simp only [CacheInv, hc] at h
      exact h.2
    | @take w i d rest hw hjobs =>
      refine h.worker rfl rfl hout fun p hp hl => hl.quiet rfl ?_ ?_ ?_ (fun _ hx => .inl hx) ?_
        (fun _ _ hb => .inl hb) hl.content
      · intro v j e f hv
        rcases worker_update hv with ⟨-, hq⟩ | ⟨-, hv⟩
        · cases hq; exact .inl rfl
        · exact .inr hv
      · intro v j e f hv
        have hne : v ≠ w := by
          rintro rfl
          rw [hw] at hv
          cases hv
        simp only [Function.update_of_ne hne]
        exact hv
      · intro v j r hv
        rcases worker_update hv with ⟨-, hq⟩ | ⟨-, hv⟩
        · cases hq
        · exact hv
      · intro j e hfirst hcase
        rcases hcase with hge | ⟨d', hjob⟩
        · exact .inl hge
        · rw [hjobs] at hjob
          rcases List.mem_cons.1 hjob with hjob | hjob
          · cases hjob
            have hget := hs.1.jobs (i, d) (by rw [hjobs]; exact List.mem_cons_self)
            have hde : d = e := by
              have := hfirst.1
              rw [hget, Option.some.injEq] at this
              exact this
            exact .inr (.inr ⟨w, by simp [hde]⟩)
          · exact .inr (.inl ⟨d', hjob⟩)
    | @stop w hw hjobs hopen =>
      refine h.worker rfl rfl hout fun p hp _ => ?_
      rw [(hs.2.loops p hp).jobsOpen] at hopen
      cases hopen
    | @fetch w i d f event disk published next hw hfetch =>
      have hd := hs.1.workers w i d f hw
      have hf := honestFetch_of_step ho hd hw hg hfetch
      exact h.worker rfl rfl hout fun p hp hl =>
        hl.fetch ho hB hu (hs.2.loops p hp).window _ hd hw hf
    | @send w i result hw =>
      refine h.worker rfl rfl hout fun p hp hl => hl.quiet rfl ?_ ?_ ?_ ?_
        (fun _ _ _ hj => hj.imp_right .inl) (fun _ _ hb => .inl hb) hl.content
      · intro v j e f hv
        rcases worker_update hv with ⟨-, hq⟩ | ⟨-, hv⟩
        · cases hq
        · exact .inr hv
      · intro v j e f hv
        have hne : v ≠ w := by
          rintro rfl
          rw [hw] at hv
          cases hv
        simp only [Function.update_of_ne hne]
        exact hv
      · intro v j r hv
        rcases worker_update hv with ⟨-, hq⟩ | ⟨-, hv⟩
        · cases hq
        · exact hv
      · intro x hx
        rcases List.mem_append.1 hx with hx | hx
        · exact .inl hx
        · rw [List.mem_singleton] at hx
          exact .inr ⟨w, by rw [hx]; exact hw⟩

/-! ## Disturbed downloads -/

theorem next_failures {l : DownloadEvent n} (h : t.failures ≠ []) :
    (t.next s l s').failures ≠ [] := by
  unfold Trace.next
  split
  · split
    · split <;> exact h
    · exact h
  · split <;> exact h
  · split
    · unfold Trace.note
      split
      · simp
      · exact h
    · exact h
  · exact h

/-- Once a chunk has failed, the call can only return an error. -/
theorem Steady.error_returned (h : Steady H request m s t) (hfail : t.failures ≠ [])
    (ho : Offer H childUrl request m parts) (hn : 0 < n) :
    ∃ ls s', (honestDownload H childUrl request n cache m parts).Run s ls s' ∧
      ∃ e, s'.coordinator = .returned (.error e) := by
  apply LTS.exists_run_of_measure (P := fun s => ∃ t, Steady H request m s t ∧ t.failures ≠ [])
    (stepsLeft m) _ s ⟨t, h, hfail⟩
  intro s hs
  obtain ⟨t, h, hfail⟩ := hs
  by_cases hret : ∃ r, s.coordinator = .returned r
  · obtain ⟨r, hr⟩ := hret
    have hex := h.2.outcome
    rw [hr] at hex
    cases r with
    | ok r => exact absurd hex.1 hfail
    | error e => exact .inl ⟨e, hr⟩
  · rw [not_exists] at hret
    obtain ⟨l, s', hst⟩ := h.1.enabled ho h.2 hn hret
    exact .inr ⟨l, s', hst, ⟨_, h.step hn hst, next_failures hfail⟩, h.stepsLeft_lt hn hst⟩

/-- Chunk `c` has been taken by workers at most: no one has looked at its entry. -/
structure Held (cache : Cache) (m : ObjectManifest) (c : ChunkId) (s : Pipeline n) (p : Progress) :
    Prop where
  progress : s.coordinator.progress? = some p
  entry : s.cache c = cache c
  readers : ∀ w i d f, s.workers w = .fetching i d f → d.id = c → f = .reading
  sending : ∀ w i r, s.workers w = .sending i r →
    (∃ b, r = .ok b) ∧ ∀ d, m.chunks[i]? = some d → d.id ≠ c
  completed : ∀ i r, (i, r) ∈ s.completed → (∃ b, r = .ok b) ∧ ∀ d, m.chunks[i]? = some d → d.id ≠ c
  pending : ∀ i b, p.pending i = some b → ∀ d, m.chunks[i]? = some d → d.id ≠ c
  before : ∀ i < p.nextWrite, ∀ d, m.chunks[i]? = some d → d.id ≠ c

/-- Two workers are about to read the entry of chunk `c`. -/
def TwoReaders (c : ChunkId) (s : Pipeline n) : Prop :=
  ∃ v w i j d e, v ≠ w ∧ (s.workers v = .fetching i d .reading ∧ d.id = c) ∧
    s.workers w = .fetching j e .reading ∧ e.id = c

/-- The coordinator does not look at the cache. -/
theorem Held.coordinator {c : ChunkId} {p : Progress} (h : Held cache m c s p)
    (hs : Steady H request m s t) (hn : 0 < n) {i : Nat} {d : ChunkDescriptor}
    (hd : m.chunks[i]? = some d) (hid : d.id = c) {event : CoordinatorEvent}
    (hst : (honestDownload H childUrl request n cache m parts).step s (.coordinator event) s') :
    ∃ p', Held cache m c s' p' := by
  have hp := h.progress
  obtain ⟨hg, hstep⟩ := hst
  have hsame : ∀ q, s.coordinator.progress? = some q → q = p := fun q hq => by
    rw [hp, Option.some.injEq] at hq
    exact hq.symm
  cases downloadStep_move hstep with
  | refuse hout => exact absurd hout (Coordinator.progress?_inside hp).1
  | accept hc => rw [hc] at hp; cases hp
  | create hc => rw [hc] at hp; cases hp
  | keep hc => rw [hc] at hp; cases hp
  | @schedule q d' next hcase =>
    have hq : q = p := by
      rcases hcase with ⟨hc, -⟩ | ⟨hc, -⟩
      · exact hsame q (by rw [hc]; rfl)
      · exact hsame q (by rw [hc]; rfl)
    subst hq
    refine ⟨{ q with nextScheduled := q.nextScheduled + 1 }, ?_, h.entry, h.readers, h.sending,
      h.completed, h.pending, h.before⟩
    rcases hcase with ⟨-, rfl, -⟩ | ⟨-, rfl⟩ <;> rfl
  | abandon hq hall =>
    rw [(hs.2.loops _ hq).not_allStopped hn] at hall
    cases hall
  | @primed q hc =>
    obtain rfl := hsame q (by rw [hc]; rfl)
    exact ⟨q, rfl, h.entry, h.readers, h.sending, h.completed, h.pending, h.before⟩
  | @receiveError q k e rest hc _ hq =>
    obtain ⟨⟨b, hb⟩, -⟩ := h.completed k (.error e) (by rw [hq]; exact List.mem_cons_self)
    cases hb
  | @receive q k bytes rest hc _ hq =>
    obtain rfl := hsame q (by rw [hc]; rfl)
    refine ⟨_, rfl, h.entry, h.readers, h.sending, fun j r hx => ?_, fun j b hb => ?_, h.before⟩
    · exact h.completed j r (by rw [hq]; exact List.mem_cons_of_mem _ hx)
    · by_cases e : j = k
      · subst e
        exact (h.completed j (.ok bytes) (by rw [hq]; exact List.mem_cons_self)).2
      · simp only [Function.update_of_ne e] at hb
        exact h.pending j b hb
  | @finish q hc hdone =>
    obtain rfl := hsame q (by rw [hc]; rfl)
    rw [hs.1.manifest q (by rw [hc]; rfl)] at hdone
    have hlt := (List.getElem?_eq_some_iff.1 hd).1
    exact absurd hid (h.before i (by omega) d hd)
  | writeError => cases hg
  | @write q bytes file next hc hb hfile hnext =>
    obtain rfl := hsame q (by rw [hc]; rfl)
    refine ⟨{ q with
      nextWrite := q.nextWrite + 1
      pending := Function.update q.pending q.nextWrite none }, ?_, h.entry, h.readers, h.sending,
      h.completed, fun j b' hb' => ?_, fun j hj => ?_⟩
    · rcases hnext with ⟨-, rfl⟩ | ⟨-, rfl⟩ <;> rfl
    · by_cases e : j = q.nextWrite
      · subst e
        simp at hb'
      · simp only [Function.update_of_ne e] at hb'
        exact h.pending j b' hb'
    · rcases Nat.lt_succ_iff_lt_or_eq.1 hj with hj | rfl
      · exact h.before j hj
      · exact h.pending _ _ hb
  | @drained q hc =>
    obtain rfl := hsame q (by rw [hc]; rfl)
    exact ⟨q, rfl, h.entry, h.readers, h.sending, h.completed, h.pending, h.before⟩
  | joinError hc => rw [hc] at hp; cases hp
  | join hc => rw [hc] at hp; cases hp

/-- An honest step changes no entry but that of its chunk. -/
theorem HonestFetch.frame {i : Nat} {d : ChunkDescriptor} {f : Fetch} {disk disk' : Cache}
    {next : FetchNext} (h : HonestFetch H parts i d f disk disk' next) {c : ChunkId} (hc : c ≠ d.id) :
    disk' c = disk c := by
  cases h with
  | removed => exact Function.update_of_ne hc _ _
  | published => exact Function.update_of_ne hc _ _
  | _ => rfl

/-- A worker that is not about to read the entry of chunk `c` leaves it alone. -/
theorem Held.worker {c : ChunkId} {p : Progress} (h : Held cache m c s p)
    (hs : Steady H request m s t) (ho : Offer H childUrl request m parts) {w : Fin n}
    {event : WorkerEvent} (hnot : ∀ i d, s.workers w = .fetching i d .reading → d.id ≠ c)
    (hst : (honestDownload H childUrl request n cache m parts).step s (.worker w event) s') :
    Held cache m c s' p ∨ (t.next s (.worker w event) s').failures ≠ [] := by
  obtain ⟨hg, hstep⟩ := hst
  cases downloadStep_move hstep with
  | @take _ i d rest hw hjobs =>
    refine .inl ⟨h.progress, h.entry, fun v j e f hv hid => ?_, fun v j r hv => ?_, h.completed, h.pending,
      h.before⟩
    · rcases worker_update hv with ⟨-, hq⟩ | ⟨-, hv⟩
      · cases hq; rfl
      · exact h.readers v j e f hv hid
    · rcases worker_update hv with ⟨-, hq⟩ | ⟨-, hv⟩
      · cases hq
      · exact h.sending v j r hv
  | stop hw _ hopen =>
    rw [(hs.2.loops p h.progress).jobsOpen] at hopen
    cases hopen
  | @fetch _ i d f event disk published next hw hfetch =>
    have hd := hs.1.workers w i d f hw
    have hf := honestFetch_of_step ho hd hw hg hfetch
    have hne : d.id ≠ c := by
      intro hid
      have hreading := h.readers w i d f hw hid
      subst hreading
      exact hnot i d hw hid
    have hheld : (∀ r, next = .done r → ∃ b, r = .ok b) → Held cache m c { s with
        cache := disk
        published := published.toList ++ s.published
        workers := Function.update s.workers w (next.worker i d) } p := by
      intro hok
      refine ⟨h.progress, ?_, fun v j e g hv hid => ?_, fun v j r hv => ?_, h.completed, h.pending,
        h.before⟩
      · exact (hf.frame hne.symm).trans h.entry
      · rcases worker_update hv with ⟨-, hq⟩ | ⟨-, hv⟩
        · cases next with
          | go g' =>
            cases hq
            exact absurd hid hne
          | done r => cases hq
        · exact h.readers v j e g hv hid
      · rcases worker_update hv with ⟨-, hq⟩ | ⟨-, hv⟩
        · cases next with
          | go g' => cases hq
          | done r' =>
            cases hq
            refine ⟨hok _ rfl, fun d' hd' => ?_⟩
            rw [hd, Option.some.injEq] at hd'
            exact hd' ▸ hne
        · exact h.sending v j r hv
    cases next with
    | go g => exact .inl (hheld nofun)
    | done r =>
      cases r with
      | ok b => exact .inl (hheld fun r hr => by cases hr; exact ⟨b, rfl⟩)
      | error e =>
        right
        simp [Trace.next, hw, Trace.note, FetchNext.worker]
  | @send _ i result hw =>
    refine .inl ⟨h.progress, h.entry, fun v j e f hv hid => ?_, fun v j r hv => ?_, fun j r hx => ?_,
      h.pending, h.before⟩
    · rcases worker_update hv with ⟨-, hq⟩ | ⟨-, hv⟩
      · cases hq
      · exact h.readers v j e f hv hid
    · rcases worker_update hv with ⟨-, hq⟩ | ⟨-, hv⟩
      · cases hq
      · exact h.sending v j r hv
    · rcases List.mem_append.1 hx with hx | hx
      · exact h.completed j r hx
      · rw [List.mem_singleton, Prod.mk.injEq] at hx
        obtain ⟨rfl, rfl⟩ := hx
        exact h.sending w j r hw

/-- While the coordinator waits, and every worker is idle for want of jobs or about to read the
entry, two are. -/
theorem Held.two_readers {c : ChunkId} {p : Progress} (h : Held cache m c s p)
    (hs : Steady H request m s t) (hn : 0 < n) {i j : Nat} {d e : ChunkDescriptor}
    (hfirst : FirstAt m i d) (hid : d.id = c) (he : m.chunks[j]? = some e) (heid : e.id = c)
    (hij : i < j) (hjn : j < i + n) (hc : s.coordinator = .receiving p)
    (hlt : p.nextWrite < p.manifest.chunks.length) (hq : s.completed = [])
    (hall : ∀ w, (s.workers w = .waiting ∧ s.jobs = []) ∨
      ∃ k x, s.workers w = .fetching k x .reading ∧ x.id = c) : TwoReaders c s := by
  have hl := hs.2.loops p h.progress
  have hm := hs.1.manifest p h.progress
  by_cases hjobs : s.jobs = []
  · -- the first occurrence is the next chunk to write, and the second is in the window
    have hreader : ∀ k, (∃ w, k ∈ (s.workers w).job) →
        ∃ w x, s.workers w = .fetching k x .reading ∧ x.id = c := by
      intro k hk
      obtain ⟨w, hw⟩ := hk
      rcases hall w with ⟨hidle, -⟩ | ⟨k', x, hx, hxc⟩
      · rw [hidle] at hw
        cases hw
      · rw [hx, Worker.job_fetching, Multiset.mem_singleton] at hw
        subst hw
        exact ⟨w, x, hx, hxc⟩
    obtain ⟨v, x, hv, hxc⟩ := hreader _ (hl.next_in_work hs.2 hn hc hlt hq hjobs)
    have hnext : p.nextWrite = i := by
      have hx := hs.1.workers v _ x _ hv
      rcases Nat.lt_trichotomy p.nextWrite i with hlt | heq | hgt
      · exact absurd (hxc.trans hid.symm) (hfirst.2 _ hlt x hx)
      · exact heq
      · exact absurd hid (h.before i hgt d hfirst.1)
    have hpaced := hs.2.paced
    rw [hc] at hpaced
    obtain ⟨hfull, -⟩ := hpaced
    have hjlen := (List.getElem?_eq_some_iff.1 he).1
    have hin : p.nextWrite ≤ j ∧ j < p.nextScheduled := by
      rw [hm] at hfull
      omega
    have hpl := hl.window.places j
    have hnone : p.pending j = none := by
      cases hb : p.pending j with
      | none => rfl
      | some b => exact absurd heid (h.pending j b hb e he)
    rw [hnone, if_pos hin] at hpl
    have hmem : j ∈ s.inFlight := by
      rw [← Multiset.count_pos]
      simp only [Option.isSome_none, Bool.false_eq_true, if_false] at hpl
      omega
    have hwork : ∃ w, j ∈ (s.workers w).job := by
      simpa [Pipeline.inFlight, hjobs, hq, Multiset.mem_sum] using hmem
    obtain ⟨w, y, hw, hyc⟩ := hreader j hwork
    refine ⟨v, w, _, _, x, y, ?_, ⟨hv, hxc⟩, hw, hyc⟩
    rintro rfl
    rw [hv] at hw
    cases hw
    omega
  · -- all workers are readers, and there are at least two
    have hread : ∀ w, ∃ k x, s.workers w = .fetching k x .reading ∧ x.id = c := by
      intro w
      rcases hall w with ⟨-, hnil⟩ | hw
      · exact absurd hnil hjobs
      · exact hw
    have htwo : 1 < n := by omega
    obtain ⟨k, x, hx, hxc⟩ := hread ⟨0, hn⟩
    obtain ⟨k', y, hy, hyc⟩ := hread ⟨1, htwo⟩
    exact ⟨⟨0, hn⟩, ⟨1, htwo⟩, k, k', x, y, by simp [Fin.ext_iff], ⟨hx, hxc⟩, hy, hyc⟩

/-- As long as there are not two readers, some step goes on without reading the entry. -/
theorem Held.advance {c : ChunkId} {p : Progress} (h : Held cache m c s p)
    (hs : Steady H request m s t) (ho : Offer H childUrl request m parts) (hn : 0 < n) {i j : Nat}
    {d e : ChunkDescriptor} (hfirst : FirstAt m i d) (hid : d.id = c) (he : m.chunks[j]? = some e)
    (heid : e.id = c) (hij : i < j) (hjn : j < i + n) :
    TwoReaders c s ∨ ∃ l s', (honestDownload H childUrl request n cache m parts).step s l s' ∧
      ((∃ p', Held cache m c s' p') ∨ (t.next s l s').failures ≠ []) := by
  have hl := hs.2.loops p h.progress
  have hE := honest_permits m parts s
  by_cases hwait : s.Waits
  · -- the coordinator waits for a result
    rcases hwait with ⟨q, hc, hlt, hq⟩ | ⟨m', result, hc, -⟩
    swap
    · have hp := h.progress
      rw [hc] at hp
      cases hp
    have hqp : q = p := by
      have hp := h.progress
      rw [hc] at hp
      exact Option.some.inj hp
    subst hqp
    by_cases hbusy : ∃ w, (s.workers w ≠ .waiting ∨ s.jobs ≠ []) ∧
        ∀ k x, s.workers w = .fetching k x .reading → x.id ≠ c
    · right
      obtain ⟨w, hw, hnot⟩ := hbusy
      have halive : s.workers w ≠ .stopped := by
        intro hstop
        have := hl.alive w
        rw [hstop] at this
        cases this
      obtain ⟨event, s', hev, hst⟩ : ∃ event s', Honest m parts s (.worker w event) ∧
          workerStep H (request.action.bind fun a => childUrl a.href) s w (s.workers w) event = some s' :=
        hs.2.worker_enabled hE halive (fun hwaits => .inl (hw.resolve_left fun hne => hne hwaits))
          fun k x f hf => honest_fetch ho hs.1 hf _
      have hstep : (honestDownload H childUrl request n cache m parts).step s (.worker w event) s' :=
        ⟨hev, hst⟩
      refine ⟨_, s', hstep, ?_⟩
      exact (h.worker hs ho hnot hstep).imp_left fun hheld => ⟨_, hheld⟩
    · left
      -- every worker is idle, with no job to take, or about to read the entry
      have hall : ∀ w, (s.workers w = .waiting ∧ s.jobs = []) ∨
          ∃ k x, s.workers w = .fetching k x .reading ∧ x.id = c := by
        intro w
        by_cases hread : ∃ k x, s.workers w = .fetching k x .reading ∧ x.id = c
        · exact .inr hread
        · left
          by_contra hcon
          apply hbusy
          refine ⟨w, ?_, fun k x hk hx => hread ⟨k, x, hk, hx⟩⟩
          by_contra hcon'
          rw [not_or, not_not, not_not] at hcon'
          exact hcon hcon'
      exact h.two_readers hs hn hfirst hid he heid hij hjn hc hlt hq hall
  · right
    have hne : ∀ r, s.coordinator ≠ .returned r := by
      intro r hc
      have hp := h.progress
      rw [hc] at hp
      cases hp
    obtain ⟨event, s', hev, hst⟩ := hs.2.coordinator_enabled hs.1.data hn hE hne hwait
    have hstep : (honestDownload H childUrl request n cache m parts).step s (.coordinator event) s' :=
      ⟨hev, hst⟩
    exact ⟨_, s', hstep, .inl (h.coordinator hs hn hfirst.1 hid hstep)⟩

theorem fetch_step (cache : Cache) {w : Fin n} {i : Nat} {d : ChunkDescriptor} {f : Fetch}
    {event : FetchEvent} {disk : Cache} {files : Option (ChunkId × Bytes)} {next : FetchNext}
    (hw : s.workers w = .fetching i d f) (hg : Honest m parts s (.worker w (.fetch event)))
    (hf : fetchStep H (request.action.bind fun a => childUrl a.href) s.cache d f event =
      some (disk, files, next)) :
    ∃ s', (honestDownload H childUrl request n cache m parts).step s (.worker w (.fetch event)) s' ∧
      s'.workers = Function.update s.workers w (next.worker i d) ∧ s'.cache = disk := by
  refine ⟨{ s with
    cache := disk
    published := files.toList ++ s.published
    workers := Function.update s.workers w (next.worker i d) }, ⟨hg, ?_⟩, rfl, rfl⟩
  simp only [LTS.ofFn, downloadStep, hw, workerStep, hf]
  cases next <;> rfl

/-- Two workers find the same entry corrupt; one removes it, and the other fails to. -/
theorem two_readers_fail {c : ChunkId} (hs : Steady H request m s t) (hn : 0 < n) {b : Bytes}
    (hb : s.cache c = some b)
    (hbad : ∀ (k : Nat) x, m.chunks[k]? = some x → x.id = c → validChunk H b x = false)
    (htwo : TwoReaders c s) (ho : Offer H childUrl request m parts) :
    ∃ ls s' t', (honestDownload H childUrl request n cache m parts).Run s ls s' ∧
      Steady H request m s' t' ∧ t'.failures ≠ [] := by
  obtain ⟨v, w, i, j, d, e, hne, ⟨hv, hd⟩, hw, he⟩ := htwo
  obtain ⟨a, ha, hurl⟩ := ho.action
  have hnone : (request.action.bind fun a => childUrl a.href) = none := by rw [ha]; exact hurl
  have hvd := hbad i d (hs.1.workers v i d _ hv) hd
  have hwe := hbad j e (hs.1.workers w j e _ hw) he
  -- both read the corrupt entry
  obtain ⟨s₁, h₁, hw₁, hc₁⟩ := fetch_step cache hv
    (show Honest m parts s (.worker v (.fetch (.read true))) by simp [Honest, hv])
    (show fetchStep H (request.action.bind fun a => childUrl a.href) s.cache d .reading (.read true) =
      some (s.cache, none, .go .removing) by simp [fetchStep, hd, hb, hvd])
  have hw' : s₁.workers w = .fetching j e .reading := by rw [hw₁, Function.update_of_ne hne.symm, hw]
  obtain ⟨s₂, h₂, hw₂, hc₂⟩ := fetch_step cache hw'
    (show Honest m parts s₁ (.worker w (.fetch (.read true))) by simp [Honest, hw'])
    (show fetchStep H (request.action.bind fun a => childUrl a.href) s₁.cache e .reading (.read true) =
      some (s₁.cache, none, .go .removing) by simp [fetchStep, he, hc₁, hb, hwe])
  -- the first removes it
  have hv' : s₂.workers v = .fetching i d .removing := by
    rw [hw₂, Function.update_of_ne hne, hw₁, Function.update_self]
    rfl
  have hb' : s₂.cache d.id = some b := by rw [hc₂, hc₁, hd, hb]
  obtain ⟨s₃, h₃, hw₃, hc₃⟩ := fetch_step cache hv'
    (show Honest m parts s₂ (.worker v (.fetch (.remove (.ok ())))) by simp [Honest, hv'])
    (show fetchStep H (request.action.bind fun a => childUrl a.href) s₂.cache d .removing
        (.remove (.ok ())) = some (Function.update s₂.cache d.id none, none, .go (.requesting 0)) by
      simp [fetchStep, hb', hnone, startRequests])
  -- the second finds nothing to remove
  have hw'' : s₃.workers w = .fetching j e .removing := by
    rw [hw₃, Function.update_of_ne hne.symm, hw₂, Function.update_self]
    rfl
  have hgone : s₃.cache e.id = none := by rw [hc₃, he, ← hd, Function.update_self]
  obtain ⟨s₄, h₄, hw₄, -⟩ := fetch_step cache hw''
    (show Honest m parts s₃ (.worker w (.fetch (.remove (.error "")))) by simp [Honest, hw'', hgone])
    (show fetchStep H (request.action.bind fun a => childUrl a.href) s₃.cache e .removing
        (.remove (.error "")) = some (s₃.cache, none, .done (.error (failure
          ("could not remove corrupt cache entry: " ++ "")))) from rfl)
  have hs₄ := (((hs.step hn h₁).step hn h₂).step hn h₃).step hn h₄
  refine ⟨_, s₄, _, .cons h₁ (.cons h₂ (.cons h₃ (.cons h₄ (.nil s₄)))), hs₄, ?_⟩
  simp [Trace.next, hw'', hw₄, Trace.note, FetchNext.worker]

/-- The two steps before the scope. -/
theorem honest_enter (ho : Offer H childUrl request m parts) (n : Nat) (cache : Cache) :
    ∃ ls s, (honestDownload H childUrl request n cache m parts).Run (.initial n cache) ls s ∧
      ∀ c, Held cache m c s ⟨m, 0, 0, fun _ => none⟩ := by
  obtain ⟨a, ha, -⟩ := ho.action
  let s₁ : Pipeline n := { Pipeline.initial n cache with coordinator := .creating m, served := some m }
  let s₂ : Pipeline n := { s₁ with
    coordinator := .priming ⟨m, 0, 0, fun _ => none⟩
    temporary := some ⟨[], []⟩
    hashed := []
    jobs := []
    jobsOpen := true
    completed := []
    workers := fun _ => .waiting }
  have h₁ : (honestDownload H childUrl request n cache m parts).step (.initial n cache)
      (.coordinator (.manifest (.response ⟨200, ""⟩ (.ok m)))) s₁ := by
    refine ⟨⟨"", rfl⟩, ?_⟩
    simp [LTS.ofFn, downloadStep, Pipeline.initial, coordinatorStep, ha, ho.accepted, s₁]
  have h₂ : (honestDownload H childUrl request n cache m parts).step s₁
      (.coordinator (.create (.ok ()) (.ok []))) s₂ := ⟨⟨rfl, [], rfl⟩, rfl⟩
  refine ⟨_, s₂, .cons h₁ (.cons h₂ (.nil s₂)), fun c => ?_⟩
  refine ⟨rfl, rfl, ?_, ?_, ?_, ?_, ?_⟩
  · intro w i d f hw
    cases hw
  · intro w i r hw
    cases hw
  · intro i r hx
    cases hx
  · intro i b hb
    cases hb
  · intro i hi
    cases hi

theorem Steady.run {ls : List (DownloadEvent n)} (hn : 0 < n)
    (hrun : (honestDownload H childUrl request n cache m parts).Run s ls s')
    (h : ∃ t, Steady H request m s t) : ∃ t, Steady H request m s' t := by
  apply hrun.preserve (P := fun s => ∃ t, Steady H request m s t) h
  intro a l b _ hs hst
  obtain ⟨t, hs⟩ := hs
  exact ⟨_, hs.step hn hst⟩

theorem steady_initial (cache : Cache) : ∃ t, Steady H request m (.initial n cache) t :=
  ⟨.empty, honestInv_initial cache, schedInv_initial cache⟩

/-- **A disturbed download can fail.** -/
theorem disturbed_fails (ho : Offer H childUrl request m parts)
    (hB : H.CollisionFree (Candidates cache parts)) (hn : 0 < n) {i j : Nat} {d e : ChunkDescriptor}
    {b : Bytes} (hfirst : FirstAt m i d) (he : m.chunks[j]? = some e) (hid : e.id = d.id) (hij : i < j)
    (hjn : j < i + n) (hb : cache d.id = some b) (hbad : validChunk H b d = false) :
    ∃ s, (honestDownload H childUrl request n cache m parts).Reachable s ∧
      ∃ e, s.coordinator = .returned (.error e) := by
  have hbad' : ∀ (k : Nat) x, m.chunks[k]? = some x → x.id = d.id → validChunk H b x = false := by
    intro k x _ hx
    cases hv : validChunk H b x with
    | false => rfl
    | true =>
      rw [ho.valid_of_id hB hfirst.1 hx.symm (.inr ⟨d.id, hb⟩) hv] at hbad
      cases hbad
  obtain ⟨ls₀, s₀, hrun₀, hheld⟩ := honest_enter ho n cache
  obtain ⟨t₀, hs₀⟩ := Steady.run hn hrun₀ (steady_initial cache)
  -- go on without reading the entry, until two workers are about to, or a chunk has failed
  obtain ⟨ls₁, s₁, hrun₁, hend⟩ := LTS.exists_run_of_measure
    (M := honestDownload H childUrl request n cache m parts)
    (P := fun s => ∃ t, Steady H request m s t ∧ ((∃ p, Held cache m d.id s p) ∨ t.failures ≠ []))
    (Q := fun s => ∃ t, Steady H request m s t ∧
      (TwoReaders d.id s ∧ s.cache d.id = some b ∨ t.failures ≠ []))
    (stepsLeft m) (by
      intro s hs
      obtain ⟨t, hs, ⟨p, hp⟩ | hfail⟩ := hs
      · rcases hp.advance hs ho hn hfirst rfl he hid hij hjn with htwo | ⟨l, s', hst, hnext⟩
        · exact .inl ⟨t, hs, .inl ⟨htwo, hp.entry.trans hb⟩⟩
        · exact .inr ⟨l, s', hst, ⟨_, hs.step hn hst, hnext⟩, hs.stepsLeft_lt hn hst⟩
      · exact .inl ⟨t, hs, .inr hfail⟩) s₀ ⟨t₀, hs₀, .inl ⟨_, hheld d.id⟩⟩
  obtain ⟨t₁, hs₁, hend⟩ := hend
  obtain ⟨ls₂, s₂, t₂, hrun₂, hs₂, hfail⟩ : ∃ ls s' t',
      (honestDownload H childUrl request n cache m parts).Run s₁ ls s' ∧
      Steady H request m s' t' ∧ t'.failures ≠ [] := by
    rcases hend with ⟨htwo, hentry⟩ | hfail
    · exact two_readers_fail hs₁ hn hentry hbad' htwo ho
    · exact ⟨[], s₁, t₁, .nil s₁, hs₁, hfail⟩
  obtain ⟨ls₃, s₃, hrun₃, herr⟩ : ∃ ls s',
      (honestDownload H childUrl request n cache m parts).Run s₂ ls s' ∧
      ∃ e, s'.coordinator = .returned (.error e) := hs₂.error_returned hfail ho hn
  exact ⟨s₃, ⟨_, _, rfl, ((hrun₀.append hrun₁).append hrun₂).append hrun₃⟩, herr⟩

/-! ## Transparency -/

/-- **The local cache is transparent exactly for undisturbed downloads.** For every cache, every
valid manifest of the requested object, every number of workers and every order of their steps,
with a server that answers correctly and a file system that fails only to remove a file that is
not there: every run ends with `Ok` and the object's bytes, if and only if no chunk whose entry is
there and invalid occurs again less than `n` places after its first occurrence. -/
theorem cache_transparent_iff (H : Hashes) (childUrl : String → Option String)
    (request : DownloadRequest) (n : Nat) (hn : 0 < n) (cache : Cache) (m : ObjectManifest)
    (parts : List Bytes) (ho : Offer H childUrl request m parts)
    (hB : H.CollisionFree (Candidates cache parts)) :
    Transparent H childUrl request n cache m parts ↔ Undisturbed H n cache m := by
  constructor
  · intro h i d hfirst j e he hid hij hjn b hb
    by_contra hbad
    obtain ⟨s, hr, err, herr⟩ := disturbed_fails ho hB hn hfirst he hid hij hjn hb (by simpa using hbad)
    obtain ⟨path, hok, -⟩ := (h.2 s hr).2 _ herr
    cases hok
  · intro hu
    have hinv : (honestDownload H childUrl request n cache m parts).Inductive fun s =>
        (∃ t, Steady H request m s t) ∧ CacheInv H request cache m parts s := by
      refine ⟨fun s hs => ?_, fun s l s' hs hst => ?_⟩
      · obtain rfl : s = .initial n cache := hs
        exact ⟨steady_initial cache, rfl⟩
      · obtain ⟨⟨t, hs⟩, hc⟩ := hs
        exact ⟨⟨_, hs.step hn hst⟩, hc.step hs ho hB hu hn hst⟩
    refine ⟨⟨stepsLeft m (.initial n cache), fun s ls hrun => ?_⟩, fun s hr => ?_⟩
    · obtain ⟨t, hs⟩ : ∃ t, Steady H request m (.initial n cache) t := steady_initial cache
      exact Steady.run_length hn hrun hs
    · obtain ⟨⟨t, hs⟩, hc⟩ := hinv.reachable hr
      refine ⟨hs.1.enabled ho hs.2 hn, fun r hret => ?_⟩
      simp only [CacheInv, hret] at hc
      exact hc

namespace Sample

/-- The entry of the chunk is empty. -/
def truncated : Cache := fun c => if c = zerosId then some [] else none

theorem twice_offer : Offer zeroHashes (fun _ => none) wantedZeros twice [zeros, zeros] where
  action := ⟨_, rfl, rfl⟩
  valid := rfl
  oid := rfl
  size := rfl
  chunks := .cons (zeros_valid 0) (.cons (zeros_valid 8388608) .nil)
  sha := if_pos (by simp only [List.flatten_cons, List.flatten_nil, List.append_nil])

theorem nil_ne_zeros : ([] : Bytes) ≠ zeros := by
  intro h
  have := zeros_length
  rw [← h] at this
  cases this

theorem truncated_collisionFree :
    zeroHashes.CollisionFree (Candidates truncated [zeros, zeros]) := by
  have hcand : ∀ b ∈ Candidates truncated [zeros, zeros], b = zeros ∨ b = [] := by
    intro b hb
    rcases hb with hb | ⟨c, hc⟩
    · left
      simpa using hb
    · unfold truncated at hc
      split at hc
      · exact .inr (Option.some.inj hc).symm
      · cases hc
  have hne : zeroHashes.blake3 zeros ≠ zeroHashes.blake3 [] := by
    simp only [zeroHashes, if_true, if_neg nil_ne_zeros]
    decide
  intro a ha b hb hab
  rcases hcand a ha with rfl | rfl <;> rcases hcand b hb with rfl | rfl
  · rfl
  · exact absurd hab hne
  · exact absurd hab.symm hne
  · rfl

end Sample

open Sample in
/-- 16 MiB of zeros with an empty cache entry and two workers: a run that returns an error. -/
theorem cache_disturbed :
    Offer zeroHashes (fun _ => none) wantedZeros twice [zeros, zeros] ∧
      ∃ s : Pipeline 2,
        (honestDownload zeroHashes (fun _ => none) wantedZeros 2 truncated twice [zeros, zeros]).Reachable s ∧
        ∃ e, s.coordinator = .returned (.error e) := by
  refine ⟨twice_offer, disturbed_fails (i := 0) (j := 1) (b := []) twice_offer truncated_collisionFree
    (by decide) ⟨rfl, fun k hk => (nomatch hk)⟩ rfl rfl (by decide) (by decide) (if_pos rfl) ?_⟩
  rw [← Bool.not_eq_true, validChunk_iff]
  exact fun h => nomatch h.1

open Sample in
/-- One chunk with a corrupt entry: every run returns it. -/
theorem cache_transparent_corrupt :
    Transparent hashes (fun _ => none) wanted 2
      (fun c => if c = hashes.blake3 [0x61] then some [0x62] else none) (manifest [0x61]) [[0x61]] := by
  refine (cache_transparent_iff hashes (fun _ => none) wanted 2 (by decide) _ _ _
    ⟨⟨_, rfl, rfl⟩, by decide +kernel, rfl, rfl, .cons (by decide +kernel) .nil, by decide +kernel⟩ ?_).2 ?_
  · have hcand : ∀ b ∈ Candidates (fun c => if c = hashes.blake3 [0x61] then some [0x62] else none)
        [[0x61]], b = [0x61] ∨ b = [0x62] := by
      intro b hb
      rcases hb with hb | ⟨c, hc⟩
      · left
        simpa using hb
      · dsimp only at hc
        split at hc
        · exact .inr (Option.some.inj hc).symm
        · cases hc
    have hne : hashes.blake3 [0x61] ≠ hashes.blake3 [0x62] := by decide +kernel
    intro a ha b hb hab
    rcases hcand a ha with rfl | rfl <;> rcases hcand b hb with rfl | rfl
    · rfl
    · exact absurd hab hne
    · exact absurd hab.symm hne
    · rfl
  · intro i d hfirst j e he hid hij hjn
    have hj := (List.getElem?_eq_some_iff.1 he).1
    simp [manifest] at hj
    omega

end GitLfsDelta
