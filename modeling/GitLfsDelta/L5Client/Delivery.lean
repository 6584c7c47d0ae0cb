import Mathlib.Data.Fintype.Option
import GitLfsDelta.L4System.Availability
import GitLfsDelta.L5Client.Caching

/-!
# Downloads from this server

The client's download and the server's handlers, put together: any number of clients, each with
its own cache and its own pool of workers, run beside uploads, collections and drains. The
coordinator's request is answered by `download_cdc_manifest` and a worker's by
`download_cdc_chunk`; the handlers read the database and the store at the moment they do so.

* `Working`: a client in the middle of a download works on the manifest of a row that is there, and
  what its handlers read is what its workers wait for.
* `downloads_delivered`: where every file-system call succeeds, no connection breaks and no collection
  deletes an object that is being downloaded, a download of a published object ends with the
  object in its file, one of an object that was not there ends with an error, and neither can
  get stuck.
-/
namespace GitLfsDelta

/-- What a client downloads, from which repository, and the cache it has at the start. -/
structure Downloader where
  repository : Uuid
  request : DownloadRequest
  cache : Cache

/-- A client, and the handlers of its requests: `none` is the coordinator's. -/
structure Delivering (n : Nat) where
  pipeline : Pipeline n
  handlers : Option (Fin n) → Exchange
  /-- Ghost: the object was not there when the manifest was asked for. -/
  missing : Bool

inductive DeliveryEvent (n : Nat)
  /-- A step of the client that needs no server. -/
  | own (event : DownloadEvent n)
  /-- A request arrives at its handler. -/
  | send (who : Option (Fin n))
  /-- The handler's next query or read. -/
  | serve (who : Option (Fin n))
  /-- The answer arrives at the client. -/
  | deliver (who : Option (Fin n))
  /-- The connection breaks. -/
  | lose (who : Option (Fin n)) (error : String)

variable {n : Nat}

def DownloadEvent.isReply : DownloadEvent n → Bool
  | .coordinator (.manifest _) | .worker _ (.fetch (.reply _)) => true
  | _ => false

/-- The request that is waited for.
mirrors crates/git-lfs-delta-client/src/backend.rs:162-167, 359-362 -/
def Pipeline.query (request : DownloadRequest) (s : Pipeline n) : Option (Fin n) → Option ReadRequest
  | none =>
    match s.coordinator with
    | .starting => if request.action.isSome then some (.downloadCdcManifest request.oid) else none
    | _ => none
  | some w =>
    match s.workers w with
    | .fetching i _ (.requesting _) => some (.downloadCdcChunk request.oid i)
    | _ => none

/-- What the client sees of an answer; `display` is what `Display` prints for a status. -/
def ReadResponse.manifestReply (display : Nat → String) : ReadResponse → Reply ObjectManifest
  | .manifest m => .response ⟨200, display 200⟩ (.ok m)
  | .failed e => .response ⟨e.status, display e.status⟩ (.error e.message)
  | _ => .response ⟨200, display 200⟩ (.error "not a manifest")

def ReadResponse.chunkReply (display : Nat → String) : ReadResponse → Reply Bytes
  | .chunk bytes => .response ⟨200, display 200⟩ (.ok bytes)
  | .failed e => .response ⟨e.status, display e.status⟩ (.error e.message)
  | _ => .response ⟨200, display 200⟩ (.error "not a chunk")

/-- The answer as an event of the client. -/
def ReadResponse.event (display : Nat → String) (response : ReadResponse) :
    Option (Fin n) → DownloadEvent n
  | none => .coordinator (.manifest (response.manifestReply display))
  | some w => .worker w (.fetch (.reply (response.chunkReply display)))

/-- A transport error as an event of the client. -/
def lostEvent (error : String) : Option (Fin n) → DownloadEvent n
  | none => .coordinator (.manifest (.failed error))
  | some w => .worker w (.fetch (.reply (.failed error)))

section Step

variable (H : Hashes) (site : Site) (childUrl : String → Option String) (display : Nat → String)

def deliveryStep (c : Downloader) (w : Shared) (q : Delivering n) :
    DeliveryEvent n → Option (Delivering n)
  | .own event =>
    if event.isReply then none
    else (downloadStep H childUrl c.request q.pipeline event).map fun s => { q with pipeline := s }
  | .send who =>
    match q.pipeline.query c.request who, q.handlers who with
    | some request, .idle =>
      (exchangeStep H site w .idle (.ask c.repository request)).map fun a =>
        { q with
          handlers := Function.update q.handlers who a
          missing := if who = none then !request.finds w.db c.repository else q.missing }
    | _, _ => none
  | .serve who =>
    (exchangeStep H site w (q.handlers who) .next).map fun a =>
      { q with handlers := Function.update q.handlers who a }
  | .deliver who =>
    match q.handlers who with
    | .asked _ _ _ (.done response) =>
      (downloadStep H childUrl c.request q.pipeline (response.event display who)).map fun s =>
        { q with pipeline := s, handlers := Function.update q.handlers who .idle }
    | _ => none
  | .lose who error =>
    match q.handlers who with
    | .idle => none
    | _ =>
      (downloadStep H childUrl c.request q.pipeline (lostEvent error who)).map fun s =>
        { q with pipeline := s, handlers := Function.update q.handlers who .idle }

end Step

/-- The object is being downloaded. -/
def Delivering.busy (q : Delivering n) : Bool :=
  match q.pipeline.coordinator with
  | .starting => q.handlers none ≠ .idle
  | .returned _ => false
  | _ => true

/-- A file-system call fails only if a file to remove is not there, or a file to create is, and
nothing else touches the cache. -/
def Orderly (s : Pipeline n) : DownloadEvent n → Prop
  | .disk _ => False
  | .coordinator (.create directory file) => directory = .ok () ∧ ∃ path, file = .ok path
  | .coordinator (.write result) => result = .ok ()
  | .coordinator (.keep result) => result = .ok ()
  | .worker w (.fetch event) =>
    match s.workers w, event with
    | .fetching _ _ _, .read readable => readable = true
    | .fetching _ d _, .remove (.error _) => s.cache d.id = none
    | .fetching _ _ _, .persist result => result = .published ∨ result = .alreadyExists
    | _, _ => True
  | _ => True

/-- The client's files are in order and no connection breaks. -/
def Calm (q : Delivering n) : DeliveryEvent n → Prop
  | .own event => Orderly q.pipeline event
  | .lose .. => False
  | _ => True

section System

variable {ι κ : Type} [DecidableEq ι] [DecidableEq κ]

/-- The server and its clients. -/
def delivery (H : Hashes) (cut : Cutter) (B : List Bytes) (site : Site)
    (childUrl : String → Option String) (display : Nat → String) (n : Nat) (client : κ → Downloader) :
    LTS ((State ι × Sources ι) × (κ → Delivering n))
      (LTS.ClientLabel (Label ι) κ (DeliveryEvent n)) :=
  (careful H cut B).clients (fun k => ⟨.initial n (client k).cache, fun _ => .idle, false⟩)
    fun k x => deliveryStep H site childUrl display (client k) x.1.toShared

/-- No object is collected while it is downloaded, and nothing goes wrong with the clients. -/
def Smooth (client : κ → Downloader) (x : (State ι × Sources ι) × (κ → Delivering n)) :
    LTS.ClientLabel (Label ι) κ (DeliveryEvent n) → Prop
  | .system (.act p (.next (.tombstone oid))) =>
    match x.1.1.procs p with
    | .collecting r _ =>
      ∀ k, (x.2 k).busy = true → ¬ ((client k).repository = r ∧ (client k).request.oid = oid)
    | _ => True
  | .system _ => True
  | .client k e => Calm (x.2 k) e

end System

/-! ## The client keeps what its handlers rely on -/

variable {H : Hashes} {site : Site} {childUrl : String → Option String} {display : Nat → String}
  {B : List Bytes} {c : Downloader} {s s' : Pipeline n} {t : Trace} {m : ObjectManifest}
  {parts : List Bytes} {l : DownloadEvent n}

/-- A worker that waits for an answer goes on waiting until the answer comes. -/
theorem requesting_kept {urlError : Option String} {request : DownloadRequest} (h : SchedInv s t)
    (hm : Move H urlError request s l s') {w : Fin n} {i a : Nat} {d : ChunkDescriptor}
    (hl : ∀ reply, l ≠ .worker w (.fetch (.reply reply)))
    (hw : s.workers w = .fetching i d (.requesting a)) : s'.workers w = .fetching i d (.requesting a) := by
  have other : ∀ {v : Fin n} {q : Worker}, s.workers v ≠ .fetching i d (.requesting a) →
      Function.update s.workers v q w = .fetching i d (.requesting a) := by
    intro v q hv
    rw [Function.update_of_ne (by rintro rfl; exact hv hw)]
    exact hw
  cases hm with
  | create hc =>
    have hstop := h.outside (by rw [hc]; trivial) w
    rw [hw] at hstop
    cases hstop
  | take hv => exact other (by simp [hv])
  | stop hv => exact other (by simp [hv])
  | send hv => exact other (by simp [hv])
  | @fetch v j e f event cache published next hv hfetch =>
    by_cases hvw : v = w
    · -- the only thing it can get is an answer
      subst hvw
      rw [hv] at hw
      cases hw
      cases event with
      | reply reply => exact absurd rfl (hl reply)
      | _ => cases hfetch
    · exact (Function.update_of_ne (Ne.symm hvw) _ _).trans hw
  | _ => exact hw

theorem Orderly.honest (h : Orderly s l) (hl : l.isReply = false) : Honest m parts s l := by
  cases l with
  | disk cache => exact h.elim
  | coordinator event =>
    cases event with
    | manifest reply => cases hl
    | _ => exact h
  | worker w event =>
    cases event with
    | go => trivial
    | fetch event =>
      cases event with
      | reply reply => cases hl
      | _ =>
        simp only [Orderly] at h
        simp only [Honest]
        split at h <;> simp_all

def Coordinator.AtWork : Coordinator → Prop
  | .starting | .returned _ => False
  | _ => True

theorem Move.not_starting {urlError : Option String} {request : DownloadRequest}
    (hm : Move H urlError request s l s') (hs : s.coordinator ≠ .starting) :
    s'.coordinator ≠ .starting := by
  cases hm with
  | @schedule p d next hcase =>
    rcases hcase with ⟨-, rfl, -⟩ | ⟨-, rfl⟩ <;> exact nofun
  | @write p bytes file next _ _ _ hnext =>
    rcases hnext with ⟨-, rfl⟩ | ⟨-, rfl⟩ <;> exact nofun
  | _ => first | exact hs | (intro h; cases h)

/-! ## What a client is promised -/

/-- The client asks the right server for an object of the right size, its cache has no other
strings with the identities of uploaded ones, and no invalid entry where it disturbs. -/
structure Downloader.Suits (H : Hashes) (B : List Bytes) (childUrl : String → Option String) (n : Nat)
    (c : Downloader) : Prop where
  workers : 0 < n
  action : ∃ a, c.request.action = some a ∧ childUrl a.href = none
  size : ∀ b ∈ B, H.sha256 b = c.request.oid → c.request.size.toNat = b.length
  free : H.CollisionFree {b | b ∈ B ∨ ∃ i, c.cache i = some b}
  undisturbed : ∀ m b, Describes H {b | b ∈ B} m b → H.sha256 b = c.request.oid →
    Undisturbed H n c.cache m

/-- The manifest is that of the requested object, and these are its chunks. -/
structure Contents (H : Hashes) (B : List Bytes) (childUrl : String → Option String) (n : Nat)
    (c : Downloader) (m : ObjectManifest) (parts : List Bytes) : Prop where
  offer : Offer H childUrl c.request m parts
  named : List.Forall₂ (Named H {b | b ∈ B}) m.chunks parts
  mem : parts.flatten ∈ B
  free : H.CollisionFree (Candidates c.cache parts)
  undisturbed : Undisturbed H n c.cache m

variable {ι : Type} {x : State ι × Sources ι}

/-- What a published row offers the client. -/
theorem Kept.contents (hk : Kept H B x) (hc : c.Suits H B childUrl n) {o : ObjectRow}
    (ho : o ∈ x.1.db.objects) (hkey : o.key = (c.repository, c.request.oid)) :
    ∃ parts, Contents H B childUrl n c o.manifest parts := by
  obtain ⟨hoid, hv, hd⟩ := hk.describes ho
  have hoid' : o.oid = c.request.oid := congrArg Prod.snd hkey
  have hsha : H.sha256 (x.2.source o.key) = c.request.oid := by rw [hd.sha, ← hoid, hoid']
  obtain ⟨parts, hparts, hflat⟩ := hd.parts
  have hmem : ∀ b ∈ parts, b ∈ B := by
    intro b hb
    obtain ⟨i, hi, rfl⟩ := List.mem_iff_getElem.1 hb
    have hnamed := List.Forall₂.get hparts (hparts.length_eq ▸ hi) hi
    exact hnamed.1
  refine ⟨parts, ?_, hparts, hflat ▸ hd.mem, ?_, hc.undisturbed _ _ hd hsha⟩
  · exact {
      action := hc.action
      valid := hv
      oid := hoid.symm.trans hoid'
      size := by
        apply UInt64.toNat_inj.1
        rw [← hd.length hv, hc.size _ hd.mem hsha]
      chunks := hparts.imp fun d b hb => validChunk_iff.2 ⟨hb.2.2, hb.2.1⟩
      sha := by rw [hflat, hsha] }
  · intro a ha b hb hab
    refine hc.free ?_ ?_ hab
    · rcases ha with ha | ha
      · exact .inl (hmem a ha)
      · exact .inr ha
    · rcases hb with hb | hb
      · exact .inl (hmem b hb)
      · exact .inr hb

/-- The handler of a worker's request for chunk `i`. -/
def Handles (c : Downloader) (m : ObjectManifest) (parts : List Bytes) (i : Nat) : Exchange → Prop
  | .idle => False
  | .asked r request _ q => r = c.repository ∧ request = .downloadCdcChunk c.request.oid i ∧
    ((∃ d, m.chunks[i]? = some d ∧ q = .reading r d) ∨ ∃ b, parts[i]? = some b ∧ q = .done (.chunk b))

/-- A worker without a request has no handler; one with a request may have one. -/
def Attends (c : Downloader) (m : ObjectManifest) (parts : List Bytes) (q : Worker) (a : Exchange) :
    Prop :=
  a = .idle ∨ ∃ i d n, q = .fetching i d (.requesting n) ∧ Handles c m parts i a

/-- Before the manifest has come. -/
structure Starting (c : Downloader) (db : Db) (q : Delivering n) : Prop where
  pipeline : q.pipeline = .initial n c.cache
  workers : ∀ w, q.handlers (some w) = .idle
  manifest : q.handlers none = .idle ∧ q.missing = false ∨ ∃ response,
    q.handlers none = .asked c.repository (.downloadCdcManifest c.request.oid) (!q.missing)
      (.done response) ∧
    (q.missing = true ∧ response = .failed .objectNotFound ∨
      q.missing = false ∧ ∃ o ∈ db.objects, o.key = (c.repository, c.request.oid) ∧
        response = .manifest o.manifest)

/-- In the middle of the download of a row that is there. -/
structure Working (H : Hashes) (B : List Bytes) (childUrl : String → Option String) (c : Downloader)
    (db : Db) (m : ObjectManifest) (parts : List Bytes) (q : Delivering n) : Prop where
  row : ∃ o ∈ db.objects, o.key = (c.repository, c.request.oid) ∧ o.manifest = m
  contents : Contents H B childUrl n c m parts
  steady : ∃ t, Steady H c.request m q.pipeline t
  cached : CacheInv H c.request c.cache m parts q.pipeline
  atWork : q.pipeline.coordinator.AtWork
  found : q.missing = false
  manifest : q.handlers none = .idle
  handlers : ∀ w, Attends c m parts (q.pipeline.workers w) (q.handlers (some w))

/-- What a download ends with. -/
def Delivering.Delivered (H : Hashes) (B : List Bytes) (display : Nat → String) (c : Downloader)
    (q : Delivering n) : Prop :=
  if q.missing then
    q.pipeline.coordinator =
        .returned (.error (failure ("could not fetch CDC manifest: " ++
          StatusCode.errorText ⟨404, display 404⟩ (c.request.action.elim "" TransferAction.href)))) ∧
      q.pipeline.temporary = none
  else ∃ path b, b ∈ B ∧ H.sha256 b = c.request.oid ∧
    q.pipeline.coordinator = .returned (.ok ⟨path, c.request.size⟩) ∧
      q.pipeline.temporary = some ⟨path, b⟩

structure Finished (H : Hashes) (B : List Bytes) (display : Nat → String) (c : Downloader)
    (q : Delivering n) : Prop where
  workers : ∀ w, q.pipeline.workers w = .stopped
  handlers : ∀ who, q.handlers who = .idle
  delivered : q.Delivered H B display c

/-- Where a client may be after the manifest has come. -/
def Delivering.Begun (H : Hashes) (B : List Bytes) (childUrl : String → Option String)
    (display : Nat → String) (c : Downloader) (db : Db) (q : Delivering n) : Prop :=
  (∃ m parts, Working H B childUrl c db m parts q) ∨ Finished H B display c q

def Delivering.Ok (H : Hashes) (B : List Bytes) (childUrl : String → Option String)
    (display : Nat → String) (c : Downloader) (db : Db) (q : Delivering n) : Prop :=
  Starting c db q ∨ q.Begun H B childUrl display c db

/-! ## One step of a client -/

variable {db : Db} {q q' : Delivering n} {e : DeliveryEvent n}

/-- After an honest step of the download the client is still at work, or has the object. -/
theorem Contents.advance (hcon : Contents H B childUrl n c m parts) (hn : 0 < n)
    (hrow : ∃ o ∈ db.objects, o.key = (c.repository, c.request.oid) ∧ o.manifest = m)
    (hs : Steady H c.request m s t) (hcached : CacheInv H c.request c.cache m parts s)
    (hst : (honestDownload H childUrl c.request n c.cache m parts).step s l s')
    (hns : s'.coordinator ≠ .starting) {a : Option (Fin n) → Exchange} (hnone : a none = .idle)
    (ha : ∀ w, a (some w) = .idle ∨
      Attends c m parts (s.workers w) (a (some w)) ∧ ∀ reply, l ≠ .worker w (.fetch (.reply reply))) :
    Delivering.Begun H B childUrl display c db ⟨s', a, false⟩ := by
  have hs' := hs.step hn hst
  have hcached' := hcached.step hs hcon.offer hcon.free hcon.undisturbed hn hst
  have hattends : ∀ w, Attends c m parts (s'.workers w) (a (some w)) := by
    intro w
    rcases ha w with hidle | ⟨hidle | ⟨i, d, k, hw, hh⟩, hl⟩
    · exact .inl hidle
    · exact .inl hidle
    · exact .inr ⟨i, d, k, requesting_kept hs.2 (downloadStep_move hst.2) hl hw, hh⟩
  by_cases hret : ∃ r, s'.coordinator = .returned r
  · obtain ⟨r, hr⟩ := hret
    have hstop := hs'.2.outside (by rw [hr]; trivial)
    refine .inr ⟨hstop, fun who => ?_, ?_⟩
    · cases who with
      | none => exact hnone
      | some w =>
        rcases hattends w with hidle | ⟨i, d, k, hw, -⟩
        · exact hidle
        · rw [hstop w] at hw
          cases hw
    · simp only [CacheInv, hr] at hcached'
      obtain ⟨path, rfl, hfile⟩ := hcached'
      exact ⟨path, parts.flatten, hcon.mem, hcon.offer.sha, hr, hfile⟩
  · refine .inl ⟨m, parts, hrow, hcon, ⟨_, hs'⟩, hcached', ?_, rfl, hnone, hattends⟩
    change s'.coordinator.AtWork
    cases hco : s'.coordinator with
    | starting => exact absurd hco hns
    | returned r => exact absurd ⟨r, hco⟩ hret
    | _ => trivial

theorem Finished.returned (hq : Finished H B display c q) :
    ∃ r, q.pipeline.coordinator = .returned r := by
  have hd := hq.delivered
  unfold Delivering.Delivered at hd
  split at hd
  · exact ⟨_, hd.1⟩
  · obtain ⟨path, b, -, -, hr, -⟩ := hd
    exact ⟨_, hr⟩

/-- The client has finished: nothing happens any more. -/
theorem Finished.step {w : Shared} (hq : Finished H B display c q) (hcalm : Calm q e) :
    deliveryStep H site childUrl display c w q e = none := by
  obtain ⟨r, hr⟩ := hq.returned
  cases e with
  | own event =>
    cases event with
    | disk cache => exact hcalm.elim
    | coordinator event => simp [deliveryStep, downloadStep, coordinatorStep, hr]
    | worker v event => simp [deliveryStep, downloadStep, workerStep, hq.workers v]
  | send who =>
    cases who with
    | none => simp [deliveryStep, Pipeline.query, hr]
    | some v => simp [deliveryStep, Pipeline.query, hq.workers v]
  | serve who => simp [deliveryStep, hq.handlers who, exchangeStep]
  | deliver who => simp [deliveryStep, hq.handlers who]
  | lose who error => exact hcalm.elim

/-- The manifest is asked for. -/
theorem Starting.send {w : Shared} (hq : Starting c w.db q)
    (h : deliveryStep H site childUrl display c w q (.send none) = some q') :
    Starting c w.db q' := by
  simp only [deliveryStep] at h
  split at h
  · rename_i request hquery hidle
    simp only [Pipeline.query, hq.pipeline, Pipeline.initial] at hquery
    split at hquery
    · cases hquery
      have hfree : Exchange.Free .idle := trivial
      simp only [exchangeStep, if_pos hfree, Option.map_some, Option.some.injEq] at h
      subst h
      refine ⟨hq.pipeline, fun v => ?_, .inr ?_⟩
      · simp only
        rw [Function.update_of_ne (by simp)]
        exact hq.workers v
      · simp only [Function.update_self, readStart, ReadRequest.finds]
        rcases loadManifest_cases w.db c.repository c.request.oid with
          ⟨hget, hload⟩ | ⟨o, ho, hkey, hget, hload⟩
        · exact ⟨_, by simp [hload], .inl ⟨by simp [hget], rfl⟩⟩
        · exact ⟨_, by simp [hload], .inr ⟨by simp [hget], o, ho, hkey, rfl⟩⟩
    · cases hquery
  · cases h

/-- The answer to the first request. -/
theorem Starting.deliver [DecidableEq ι] (hk : Kept H B x) (hc : c.Suits H B childUrl n)
    (hq : Starting c x.1.db q)
    (h : deliveryStep H site childUrl display c x.1.toShared q (.deliver none) = some q') :
    q'.Begun H B childUrl display c x.1.db := by
  obtain ⟨a, haction, -⟩ := hc.action
  rcases hq.manifest with ⟨hidle, -⟩ | ⟨response, hasked, ⟨hmissing, rfl⟩ | ⟨hfound, o, ho, hkey, rfl⟩⟩
  · simp [deliveryStep, hidle] at h
  · simp only [deliveryStep, hasked, hq.pipeline, ReadResponse.event, ReadResponse.manifestReply,
      downloadStep, coordinatorStep, Pipeline.initial, haction, Option.isNone_some,
      Bool.false_eq_true, if_false, acceptManifest, StatusCode.isError, ApiError.objectNotFound,
      Option.map_some, Option.some.injEq, Nat.reduceLeDiff, Nat.reduceLT, and_self, decide_true,
      if_true] at h
    subst h
    refine .inr ⟨fun _ => rfl, fun who => ?_, ?_⟩
    · cases who with
      | none => simp
      | some v => simpa using hq.workers v
    · simp [Delivering.Delivered, hmissing, Pipeline.fail, haction]
  · obtain ⟨parts, hcon⟩ := hk.contents hc ho hkey
    simp only [deliveryStep, hasked, hq.pipeline, ReadResponse.event, ReadResponse.manifestReply,
      Option.map_eq_some_iff] at h
    obtain ⟨s', hst, rfl⟩ := h
    obtain ⟨t, hs⟩ : ∃ t, Steady H c.request o.manifest (.initial n c.cache) t := steady_initial _
    have hhonest : (honestDownload H childUrl c.request n c.cache o.manifest parts).step
        (.initial n c.cache)
        (.coordinator (.manifest (.response ⟨200, display 200⟩ (.ok o.manifest)))) s' :=
      ⟨⟨_, rfl⟩, hst⟩
    rw [hfound]
    refine hcon.advance hc.workers ⟨o, ho, hkey, rfl⟩ hs rfl hhonest ?_
      (Function.update_self ..) fun v => .inl ?_
    · have hacc := hcon.offer.accepted (display 200)
      simp only [downloadStep, coordinatorStep, Pipeline.initial, haction, Option.isNone_some,
        Bool.false_eq_true, if_false, hacc, Option.some.injEq] at hst
      rw [← hst]
      intro hstart
      cases hstart
    · rw [Function.update_of_ne (by simp)]
      exact hq.workers v

theorem Starting.step [DecidableEq ι] (hk : Kept H B x) (hc : c.Suits H B childUrl n)
    (hq : Starting c x.1.db q) (hcalm : Calm q e)
    (h : deliveryStep H site childUrl display c x.1.toShared q e = some q') :
    q'.Ok H B childUrl display c x.1.db := by
  obtain ⟨a, haction, -⟩ := hc.action
  cases e with
  | own event =>
    simp only [deliveryStep] at h
    split at h; · cases h
    cases event with
    | disk cache => exact hcalm.elim
    | coordinator event =>
      cases event <;> simp_all [downloadStep, coordinatorStep, hq.pipeline, Pipeline.initial,
        DownloadEvent.isReply]
    | worker v event => simp [downloadStep, workerStep, hq.pipeline, Pipeline.initial] at h
  | send who =>
    cases who with
    | none => exact .inl (hq.send h)
    | some v => simp [deliveryStep, Pipeline.query, hq.pipeline, Pipeline.initial] at h
  | serve who =>
    cases who with
    | none =>
      rcases hq.manifest with ⟨hidle, -⟩ | ⟨response, hasked, -⟩
      · simp [deliveryStep, hidle, exchangeStep] at h
      · simp [deliveryStep, hasked, exchangeStep, readNext] at h
    | some v => simp [deliveryStep, hq.workers v, exchangeStep] at h
  | deliver who =>
    cases who with
    | none => exact .inr (hq.deliver hk hc h)
    | some v => simp [deliveryStep, hq.workers v] at h
  | lose who error => exact hcalm.elim

theorem Coordinator.AtWork.not_starting {co : Coordinator} (h : co.AtWork) : co ≠ .starting := by
  rintro rfl
  exact h

/-- A worker's request arrives: the row it is about is there. -/
theorem Working.send {w : Shared} (hq : Working H B childUrl c w.db m parts q) {v : Fin n}
    (h : deliveryStep H site childUrl display c w q (.send (some v)) = some q') :
    Working H B childUrl c w.db m parts q' := by
  simp only [deliveryStep] at h
  split at h
  · rename_i request hquery hidle
    simp only [Pipeline.query] at hquery
    split at hquery
    · rename_i i d a hv
      cases hquery
      have hfree : Exchange.Free .idle := trivial
      simp only [exchangeStep, if_pos hfree, Option.map_some, Option.some.injEq] at h
      subst h
      obtain ⟨t, hs⟩ := hq.steady
      obtain ⟨o, ho, hkey, rfl⟩ := hq.row
      have hd := hs.1.workers v i d _ hv
      have hload : loadManifest w.db c.repository c.request.oid = .ok o.manifest := by
        have := loadManifest_of_row ho
        obtain ⟨hr, hoid⟩ := Prod.mk.inj hkey
        rwa [hr, hoid] at this
      refine { hq with found := hq.found, manifest := ?_, handlers := fun u => ?_ }
      · simp only
        rw [Function.update_of_ne (by simp)]
        exact hq.manifest
      · by_cases hu : u = v
        · subst hu
          simp only [Function.update_self]
          refine .inr ⟨i, d, a, hv, rfl, rfl, .inl ⟨d, hd, ?_⟩⟩
          simp [readStart, locateChunk, hload, hd]
        · simp only
          rw [Function.update_of_ne (by simpa using hu)]
          exact hq.handlers u
    · cases hquery
  · cases h

/-- A handler reads a chunk: the one its worker waits for. -/
theorem Working.serve (hk : Kept H B x) (hB : H.CollisionFree {b | b ∈ B})
    (hq : Working H B childUrl c x.1.db m parts q) {v : Fin n}
    (h : deliveryStep H site childUrl display c x.1.toShared q (.serve (some v)) = some q') :
    Working H B childUrl c x.1.db m parts q' := by
  rcases hq.handlers v with hidle | ⟨i, d, a, hv, hh⟩
  · simp [deliveryStep, hidle, exchangeStep] at h
  cases hx : q.handlers (some v) with
  | idle => simp [deliveryStep, hx, exchangeStep] at h
  | asked r request found reader =>
    rw [hx] at hh
    obtain ⟨rfl, rfl, ⟨e, he, rfl⟩ | ⟨b, -, rfl⟩⟩ := hh
    · obtain ⟨o, ho, hkey, rfl⟩ := hq.row
      obtain ⟨b, hb, hread⟩ := hk.chunk ho (List.mem_of_getElem? he)
      have hr : o.repositoryId = c.repository := (Prod.mk.inj hkey).1
      rw [hr] at hread
      -- what is read is the chunk with that identity
      have hpart : parts[i]? = some b := by
        obtain ⟨hi, rfl⟩ := List.getElem?_eq_some_iff.1 he
        have hi' : i < parts.length := hq.contents.named.length_eq ▸ hi
        have hnamed := List.Forall₂.get hq.contents.named hi hi'
        rw [List.getElem?_eq_getElem hi', Option.some.injEq]
        exact hB hnamed.1 hb.1 (hnamed.2.1.trans hb.2.1.symm)
      simp only [deliveryStep, hx, exchangeStep, readNext, hread, Option.map_some,
        Option.some.injEq] at h
      subst h
      refine { hq with found := hq.found, manifest := ?_, handlers := fun u => ?_ }
      · simp only
        rw [Function.update_of_ne (by simp)]
        exact hq.manifest
      · by_cases hu : u = v
        · subst hu
          simp only [Function.update_self]
          exact .inr ⟨i, d, a, hv, rfl, rfl, .inr ⟨b, hpart, rfl⟩⟩
        · simp only
          rw [Function.update_of_ne (by simpa using hu)]
          exact hq.handlers u
    · simp [deliveryStep, hx, exchangeStep, readNext] at h

/-- A worker gets its chunk. -/
theorem Working.deliver (hc : c.Suits H B childUrl n)
    (hq : Working H B childUrl c db m parts q) {v : Fin n} {w : Shared}
    (h : deliveryStep H site childUrl display c w q (.deliver (some v)) = some q') :
    q'.Begun H B childUrl display c db := by
  rcases hq.handlers v with hidle | ⟨i, d, a, hv, hh⟩
  · simp [deliveryStep, hidle] at h
  cases hx : q.handlers (some v) with
  | idle => simp [deliveryStep, hx] at h
  | asked r request found reader =>
    rw [hx] at hh
    obtain ⟨rfl, rfl, ⟨e, he, rfl⟩ | ⟨b, hb, rfl⟩⟩ := hh
    · simp [deliveryStep, hx] at h
    · simp only [deliveryStep, hx, ReadResponse.event, ReadResponse.chunkReply,
        Option.map_eq_some_iff] at h
      obtain ⟨s', hst, rfl⟩ := h
      obtain ⟨t, hs⟩ := hq.steady
      have hhonest : (honestDownload H childUrl c.request n c.cache m parts).step q.pipeline
          (.worker v (.fetch (.reply (.response ⟨200, display 200⟩ (.ok b))))) s' := by
        refine ⟨?_, hst⟩
        simp only [Honest, hv]
        exact ⟨_, b, hb, rfl⟩
      rw [hq.found]
      refine hq.contents.advance hc.workers hq.row hs hq.cached hhonest
        ((downloadStep_move hst).not_starting hq.atWork.not_starting) ?_ fun u => ?_
      · rw [Function.update_of_ne (by simp)]
        exact hq.manifest
      · by_cases hu : u = v
        · subst hu
          exact .inl (Function.update_self ..)
        · rw [Function.update_of_ne (by simpa using hu)]
          refine .inr ⟨hq.handlers u, fun reply he => hu ?_⟩
          cases he
          rfl

theorem Working.step (hk : Kept H B x) (hB : H.CollisionFree {b | b ∈ B})
    (hc : c.Suits H B childUrl n) (hq : Working H B childUrl c x.1.db m parts q) (hcalm : Calm q e)
    (h : deliveryStep H site childUrl display c x.1.toShared q e = some q') :
    q'.Begun H B childUrl display c x.1.db := by
  cases e with
  | own event =>
    simp only [deliveryStep] at h
    split at h; · cases h
    rename_i hreply
    rw [Bool.not_eq_true] at hreply
    simp only [Option.map_eq_some_iff] at h
    obtain ⟨s', hst, rfl⟩ := h
    obtain ⟨t, hs⟩ := hq.steady
    rw [hq.found]
    refine hq.contents.advance hc.workers hq.row hs hq.cached ⟨Orderly.honest hcalm hreply, hst⟩
      ((downloadStep_move hst).not_starting hq.atWork.not_starting) hq.manifest fun u => ?_
    refine .inr ⟨hq.handlers u, fun reply he => ?_⟩
    subst he
    cases hreply
  | send who =>
    cases who with
    | none =>
      have hne := hq.atWork.not_starting
      simp only [deliveryStep, Pipeline.query] at h
      cases h
    | some v => exact .inl ⟨m, parts, hq.send h⟩
  | serve who =>
    cases who with
    | none => simp [deliveryStep, hq.manifest, exchangeStep] at h
    | some v => exact .inl ⟨m, parts, hq.serve hk hB h⟩
  | deliver who =>
    cases who with
    | none => simp [deliveryStep, hq.manifest] at h
    | some v => exact hq.deliver hc h
  | lose who error => exact hcalm.elim

/-! ## All interleavings -/

/-- A client relies on nothing but the row it downloads. -/
theorem Delivering.Ok.stable {db' : Db} (hq : q.Ok H B childUrl display c db)
    (hrow : ∀ o ∈ db.objects, q.busy = true → o.key = (c.repository, c.request.oid) →
      o ∈ db'.objects) : q.Ok H B childUrl display c db' := by
  rcases hq with hq | ⟨m, parts, hq⟩ | hq
  · refine .inl ⟨hq.pipeline, hq.workers, ?_⟩
    rcases hq.manifest with hidle | ⟨response, hasked, hmissing | ⟨hfound, o, ho, hkey, hm⟩⟩
    · exact .inl hidle
    · exact .inr ⟨response, hasked, .inl hmissing⟩
    · have hbusy : q.busy = true := by simp [Delivering.busy, hq.pipeline, Pipeline.initial, hasked]
      exact .inr ⟨response, hasked, .inr ⟨hfound, o, hrow o ho hbusy hkey, hkey, hm⟩⟩
  · have hbusy : q.busy = true := by
      have hat := hq.atWork
      unfold Delivering.busy
      split <;> simp_all [Coordinator.AtWork]
    obtain ⟨o, ho, hkey, hm⟩ := hq.row
    exact .inr (.inl ⟨m, parts, { hq with
      row := ⟨o, hrow o ho hbusy hkey, hkey, hm⟩
      found := hq.found }⟩)
  · exact .inr (.inr hq)

section System

variable {κ : Type} [DecidableEq ι] [DecidableEq κ] {cut : Cutter} {client : κ → Downloader}

omit [DecidableEq κ] in
theorem Smooth.keeps {x : (State ι × Sources ι) × (κ → Delivering n)} {l : Label ι} {s' : State ι}
    (hs : Smooth client x (.system l)) (hst : GitLfsDelta.step H cut x.1.1 l = some s') (k : κ) :
    ∀ o ∈ x.1.1.db.objects, (x.2 k).busy = true →
      o.key = ((client k).repository, (client k).request.oid) → o ∈ s'.db.objects := by
  intro o ho hbusy hkey
  obtain ⟨hr, hoid⟩ := Prod.mk.inj hkey
  rcases step_cases hst with ⟨δ, -, rfl⟩ | ⟨p, a, w, q, rfl, ht, rfl⟩
  · exact ho
  rcases ht.objects_kept with hkept | ⟨r, i, oid, hq, rfl, -, hdel⟩
  · exact hkept o ho
  · simp only [Smooth, hq] at hs
    rw [move_toShared, hdel, Table.mem_deleteWhere]
    refine ⟨ho, decide_eq_false fun hkey' => hs k hbusy ?_⟩
    rw [← hr, ← hoid]
    exact hkey'

/-- **Every client keeps its promise along every run.** -/
theorem delivery_ok (hcut : cut.Conforms) (hB : H.CollisionFree {b | b ∈ B})
    (hc : ∀ k, (client k).Suits H B childUrl n) :
    ((delivery H cut B site childUrl display n client).guard (Smooth client)).Inductive
      fun x : (State ι × Sources ι) × (κ → Delivering n) =>
        Kept H B x.1 ∧ ∀ k, (x.2 k).Ok H B childUrl display (client k) x.1.1.db := by
  apply (careful_kept hcut hB).clients fun k x (q : Delivering n) =>
    q.Ok H B childUrl display (client k) x.1.db
  · intro k s _
    exact .inl ⟨rfl, fun _ => rfl, .inl ⟨rfl, rfl⟩⟩
  · intro k x l s' _ hs hst hok
    exact hok.stable (hs.keeps hst.1.2 k)
  · intro k x e q hk hcalm hok h
    rcases hok with hq | ⟨m, parts, hq⟩ | hq
    · exact hq.step hk (hc k) hcalm h
    · exact .inr (hq.step hk hB (hc k) hcalm h)
    · rw [hq.step hcalm] at h
      cases h

end System

/-! ## Progress -/

/-- An upper bound on the steps of a handler, and the one that brings its answer. -/
def Exchange.cost : Exchange → Nat
  | .idle => 3
  | .asked _ _ _ q => q.left + 1

def Delivering.cost (m : ObjectManifest) (q : Delivering n) : Nat :=
  3 * stepsLeft m q.pipeline + ∑ who, (q.handlers who).cost

theorem cost_update {a : Option (Fin n) → Exchange} {who : Option (Fin n)} {y₀ : Exchange}
    (h : a who = y₀) (y : Exchange) :
    ∑ j, (Function.update a who y j).cost + y₀.cost = ∑ j, (a j).cost + y.cost :=
  h ▸ LTS.sum_update Exchange.cost a who y

theorem cost_idle : Exchange.idle.cost = 3 := rfl

/-- What an honest step that is no answer asks of the files. -/
theorem Honest.orderly (h : Honest m parts s l) (hl : l.isReply = false) : Orderly s l := by
  cases l with
  | disk cache => exact h.elim
  | coordinator event =>
    cases event with
    | manifest reply => cases hl
    | _ => exact h
  | worker w event =>
    cases event with
    | go => trivial
    | fetch event =>
      cases event with
      | reply reply => cases hl
      | _ =>
        simp only [Honest] at h
        simp only [Orderly]
        split at h <;> simp_all

/-- The request of a worker moves on. -/
theorem Working.request (hk : Kept H B x) (hq : Working H B childUrl c x.1.db m parts q) {v : Fin n}
    {i a : Nat} {d : ChunkDescriptor} (hn : 0 < n)
    (hv : q.pipeline.workers v = .fetching i d (.requesting a)) :
    ∃ e q', Calm q e ∧ deliveryStep H site childUrl display c x.1.toShared q e = some q' ∧
      q'.cost m < q.cost m := by
  obtain ⟨t, hs⟩ := hq.steady
  have hd := hs.1.workers v i d _ hv
  obtain ⟨o, ho, hkey, rfl⟩ := hq.row
  cases hx : q.handlers (some v) with
  | idle =>
    have hquery : q.pipeline.query c.request (some v) = some (.downloadCdcChunk c.request.oid i) := by
      simp [Pipeline.query, hv]
    have hload : loadManifest x.1.db c.repository c.request.oid = .ok o.manifest := by
      have := loadManifest_of_row ho
      obtain ⟨hr, hoid⟩ := Prod.mk.inj hkey
      rwa [hr, hoid] at this
    obtain ⟨y, hy⟩ : ∃ y, y = Exchange.asked c.repository (.downloadCdcChunk c.request.oid i)
        (ReadRequest.finds x.1.db c.repository (.downloadCdcChunk c.request.oid i))
        (.reading c.repository d) := ⟨_, rfl⟩
    have hsum := cost_update hx y
    have hfree : Exchange.Free .idle := trivial
    refine ⟨.send (some v), { q with handlers := Function.update q.handlers (some v) y }, trivial,
      ?_, ?_⟩
    · simp [deliveryStep, hquery, hx, exchangeStep, hfree, readStart, locateChunk, hload, hd, hy]
    · have hcost : y.cost = 2 := by rw [hy]; rfl
      rw [hcost, cost_idle] at hsum
      simp only [Delivering.cost]
      omega
  | asked r request found reader =>
    rcases hq.handlers v with hidle | ⟨j, d', k, hv', hh⟩
    · rw [hidle] at hx
      cases hx
    rw [hx] at hh
    rw [hv] at hv'
    cases hv'
    obtain ⟨rfl, rfl, ⟨e, he, rfl⟩ | ⟨b, hb, rfl⟩⟩ := hh
    · obtain ⟨b, -, hread⟩ := hk.chunk ho (List.mem_of_getElem? he)
      rw [(Prod.mk.inj hkey).1] at hread
      obtain ⟨y, hy⟩ : ∃ y, y = Exchange.asked c.repository (.downloadCdcChunk c.request.oid i) found
          (.done (.chunk b)) := ⟨_, rfl⟩
      have hsum := cost_update hx y
      refine ⟨.serve (some v), { q with handlers := Function.update q.handlers (some v) y }, trivial,
        ?_, ?_⟩
      · simp [deliveryStep, hx, exchangeStep, readNext, hread, hy]
      · have hcost : y.cost = 1 := by rw [hy]; rfl
        have hcost₀ : (Exchange.asked c.repository (.downloadCdcChunk c.request.oid i) found
          (.reading c.repository e)).cost = 2 := rfl
        rw [hcost, hcost₀] at hsum
        simp only [Delivering.cost]
        omega
    · -- the answer is there
      have hsum := cost_update hx .idle
      obtain ⟨s', hst⟩ : ∃ s', downloadStep H childUrl c.request q.pipeline
          (.worker v (.fetch (.reply (.response ⟨200, display 200⟩ (.ok b))))) = some s' := by
        simp only [downloadStep, workerStep, hv, fetchStep]
        exact ⟨_, rfl⟩
      have hhonest : (honestDownload H childUrl c.request n c.cache o.manifest parts).step q.pipeline
          (.worker v (.fetch (.reply (.response ⟨200, display 200⟩ (.ok b))))) s' := by
        refine ⟨?_, hst⟩
        simp only [Honest, hv]
        exact ⟨_, b, hb, rfl⟩
      have hlt := hs.stepsLeft_lt hn hhonest
      refine ⟨.deliver (some v), { q with
        pipeline := s'
        handlers := Function.update q.handlers (some v) .idle }, trivial, ?_, ?_⟩
      · simp [deliveryStep, hx, ReadResponse.event, ReadResponse.chunkReply, hst]
      · have hcost₀ : (Exchange.asked c.repository (.downloadCdcChunk c.request.oid i) found
          (.done (.chunk b))).cost = 1 := rfl
        rw [cost_idle, hcost₀] at hsum
        simp only [Delivering.cost]
        omega

/-- A client at work has a step that brings it nearer to the end. -/
theorem Working.progress (site : Site) (display : Nat → String) (hk : Kept H B x) (hn : 0 < n)
    (hq : Working H B childUrl c x.1.db m parts q) :
    ∃ e q', Calm q e ∧ deliveryStep H site childUrl display c x.1.toShared q e = some q' ∧
      q'.cost m < q.cost m := by
  obtain ⟨t, hs⟩ := hq.steady
  have hne : ∀ r, q.pipeline.coordinator ≠ .returned r := by
    intro r hr
    have hat := hq.atWork
    rw [hr] at hat
    exact hat
  obtain ⟨l, s', hhonest, hst⟩ : ∃ l s',
      (honestDownload H childUrl c.request n c.cache m parts).step q.pipeline l s' :=
    hs.1.enabled hq.contents.offer hs.2 hn hne
  cases hl : l.isReply with
  | false =>
    have hlt := hs.stepsLeft_lt hn ⟨hhonest, hst⟩
    refine ⟨.own l, { q with pipeline := s' }, hhonest.orderly hl, ?_, ?_⟩
    · have hst : downloadStep H childUrl c.request q.pipeline l = some s' := hst
      simp [deliveryStep, hl, hst]
    · simp only [Delivering.cost]
      omega
  | true =>
    have hst : downloadStep H childUrl c.request q.pipeline l = some s' := hst
    cases l with
    | disk cache => cases hl
    | coordinator event =>
      cases event with
      | manifest reply =>
        cases hco : q.pipeline.coordinator with
        | starting => exact absurd hco hq.atWork.not_starting
        | _ => simp [downloadStep, coordinatorStep, hco] at hst
      | _ => cases hl
    | worker v event =>
      cases event with
      | go => cases hl
      | fetch event =>
        cases event with
        | reply reply =>
          cases hv : q.pipeline.workers v with
          | fetching i d f =>
            cases f with
            | requesting a => exact hq.request hk hn hv
            | _ => simp [downloadStep, workerStep, hv, fetchStep] at hst
          | _ => simp [downloadStep, workerStep, hv] at hst
        | _ => cases hl

/-- A row has one manifest. -/
theorem Working.manifest_eq {q₁ q₂ : Delivering n} {m₁ m₂ : ObjectManifest} {parts₁ parts₂ : List Bytes}
    (h₁ : Working H B childUrl c db m₁ parts₁ q₁) (h₂ : Working H B childUrl c db m₂ parts₂ q₂) :
    m₁ = m₂ := by
  obtain ⟨o₁, ho₁, hkey₁, rfl⟩ := h₁.row
  obtain ⟨o₂, ho₂, hkey₂, rfl⟩ := h₂.row
  rw [Table.eq_of_key ho₁ ho₂ (hkey₁.trans hkey₂.symm)]

section Delivered

variable {κ : Type} [DecidableEq ι] [DecidableEq κ] {cut : Cutter} {client : κ → Downloader} {k : κ}
  {y : (State ι × Sources ι) × (κ → Delivering n)}

/-- A calm step of one client. -/
theorem delivery_step (cut : Cutter) (B : List Bytes) (client : κ → Downloader) {k : κ}
    {e : DeliveryEvent n} {q : Delivering n} (hcalm : Calm (y.2 k) e)
    (h : deliveryStep H site childUrl display (client k) y.1.1.toShared (y.2 k) e = some q) :
    ∃ y', ((delivery H cut B site childUrl display n client).guard (Smooth client)).step y
      (.client k e) y' ∧ y'.1 = y.1 ∧ y'.2 k = q :=
  ⟨(y.1, Function.update y.2 k q), ⟨hcalm, rfl, q, h, rfl⟩, rfl, Function.update_self ..⟩

/-- Left alone, a client at work gets to the end. -/
theorem working_completes (hcut : cut.Conforms) (hB : H.CollisionFree {b | b ∈ B})
    (hc : ∀ k, (client k).Suits H B childUrl n) : ∀ {N : Nat}
    {y : (State ι × Sources ι) × (κ → Delivering n)} {m : ObjectManifest} {parts : List Bytes},
    ((delivery H cut B site childUrl display n client).guard (Smooth client)).Reachable y →
    Working H B childUrl (client k) y.1.1.db m parts (y.2 k) → (y.2 k).cost m < N →
    ∃ ls y', ((delivery H cut B site childUrl display n client).guard (Smooth client)).Run y ls y' ∧
      (∀ l ∈ ls, ∃ e, l = .client k e) ∧ Finished H B display (client k) (y'.2 k) := by
  intro N
  induction N with
  | zero => intro y m parts _ _ hcost; omega
  | succ N ih =>
    intro y m parts hr hq hcost
    obtain ⟨hk, -⟩ := (delivery_ok hcut hB hc).reachable hr
    obtain ⟨e, q', hcalm, hst, hlt⟩ := hq.progress site display hk (hc k).workers
    obtain ⟨y₁, hstep, hsame, hself⟩ :=
      delivery_step cut B client hcalm hst
    rcases hq.step hk hB (hc k) hcalm hst with ⟨m', parts', hq'⟩ | hq'
    · obtain rfl := hq.manifest_eq hq'
      rw [← hself, ← hsame] at hq'
      obtain ⟨ls, y', hrun, hown, hfin⟩ := ih (hr.step hstep) hq' (by rw [hself]; omega)
      refine ⟨_, y', .cons hstep hrun, fun l hl => ?_, hfin⟩
      rcases List.mem_cons.1 hl with rfl | hl
      · exact ⟨e, rfl⟩
      · exact hown l hl
    · refine ⟨_, y₁, .cons hstep (.nil _), fun l hl => ⟨e, List.mem_singleton.1 hl⟩, ?_⟩
      rw [hself]
      exact hq'

/-- Left alone, a client that waits for its manifest gets it. -/
theorem starting_completes (hcut : cut.Conforms) (hB : H.CollisionFree {b | b ∈ B})
    (hc : ∀ k, (client k).Suits H B childUrl n)
    (hr : ((delivery H cut B site childUrl display n client).guard (Smooth client)).Reachable y)
    (hq : Starting (client k) y.1.1.db (y.2 k)) :
    ∃ ls y', ((delivery H cut B site childUrl display n client).guard (Smooth client)).Run y ls y' ∧
      (∀ l ∈ ls, ∃ e, l = .client k e) ∧
      (y'.2 k).Begun H B childUrl display (client k) y'.1.1.db := by
  have hdeliver : ∀ {y : (State ι × Sources ι) × (κ → Delivering n)} {response found},
      ((delivery H cut B site childUrl display n client).guard (Smooth client)).Reachable y →
      Starting (client k) y.1.1.db (y.2 k) →
      (y.2 k).handlers none = .asked (client k).repository
        (.downloadCdcManifest (client k).request.oid) found (.done response) →
      ∃ e y', ((delivery H cut B site childUrl display n client).guard (Smooth client)).step y
        (.client k e) y' ∧ (y'.2 k).Begun H B childUrl display (client k) y'.1.1.db := by
    intro y response found hr hq hasked
    obtain ⟨hk, -⟩ := (delivery_ok hcut hB hc).reachable hr
    obtain ⟨q', hst⟩ : ∃ q', deliveryStep H site childUrl display (client k) y.1.1.toShared (y.2 k)
        (.deliver none) = some q' := by
      obtain ⟨a, haction, -⟩ := (hc k).action
      simp only [deliveryStep, hasked, hq.pipeline, ReadResponse.event, downloadStep,
        coordinatorStep, Pipeline.initial, haction, Option.isNone_some, Bool.false_eq_true, if_false]
      split <;> exact ⟨_, rfl⟩
    obtain ⟨y', hstep, hsame, hself⟩ :=
      delivery_step cut B client (e := .deliver none) trivial hst
    refine ⟨_, y', hstep, ?_⟩
    rw [hself, hsame]
    exact hq.deliver hk (hc k) hst
  rcases hq.manifest with ⟨hidle, -⟩ | ⟨response, hasked, -⟩
  · -- ask first
    obtain ⟨q', hst⟩ : ∃ q', deliveryStep H site childUrl display (client k) y.1.1.toShared (y.2 k)
        (.send none) = some q' := by
      obtain ⟨a, haction, -⟩ := (hc k).action
      have hfree : Exchange.Free .idle := trivial
      have hquery : (y.2 k).pipeline.query (client k).request none =
          some (.downloadCdcManifest (client k).request.oid) := by
        simp [Pipeline.query, hq.pipeline, Pipeline.initial, haction]
      simp only [deliveryStep, hquery, hidle, exchangeStep, if_pos hfree, Option.map_some]
      exact ⟨_, rfl⟩
    obtain ⟨y₁, hstep, hsame, hself⟩ :=
      delivery_step cut B client (e := .send none) trivial hst
    have hq₁ : Starting (client k) y₁.1.1.db (y₁.2 k) := by
      rw [hself, hsame]
      exact hq.send hst
    have hasked : ∃ response found, (y₁.2 k).handlers none = .asked (client k).repository
        (.downloadCdcManifest (client k).request.oid) found (.done response) := by
      rcases hq₁.manifest with ⟨hidle₁, -⟩ | ⟨response, hasked, -⟩
      · rw [hself] at hidle₁
        simp only [deliveryStep, hidle] at hst
        split at hst
        · have hfree : Exchange.Free .idle := trivial
          simp only [exchangeStep, if_pos hfree, Option.map_some, Option.some.injEq] at hst
          rw [← hst] at hidle₁
          simp only [Function.update_self] at hidle₁
          cases hidle₁
        · cases hst
      · exact ⟨response, _, hasked⟩
    obtain ⟨response, found, hasked⟩ := hasked
    obtain ⟨e, y', hstep', hbegun⟩ := hdeliver (hr.step hstep) hq₁ hasked
    refine ⟨_, y', .cons hstep (.cons hstep' (.nil _)), fun l hl => ?_, hbegun⟩
    simp only [List.mem_cons, List.not_mem_nil, or_false] at hl
    rcases hl with rfl | rfl <;> exact ⟨_, rfl⟩
  · obtain ⟨e, y', hstep, hbegun⟩ := hdeliver hr hq hasked
    exact ⟨_, y', .cons hstep (.nil _), fun l hl => ⟨e, List.mem_singleton.1 hl⟩, hbegun⟩

/-- What a download that has returned ends with. -/
theorem delivery_returned (hcut : cut.Conforms) (hB : H.CollisionFree {b | b ∈ B})
    (hc : ∀ k, (client k).Suits H B childUrl n)
    (hr : ((delivery H cut B site childUrl display n client).guard (Smooth client)).Reachable y) {k : κ}
    {result : Except BackendError DownloadResult}
    (hret : (y.2 k).pipeline.coordinator = .returned result) :
    (y.2 k).Delivered H B display (client k) := by
  obtain ⟨-, hok⟩ := (delivery_ok hcut hB hc).reachable hr
  rcases hok k with hq | ⟨m, parts, hq⟩ | hq
  · rw [hq.pipeline] at hret
    cases hret
  · have hat := hq.atWork
    rw [hret] at hat
    exact hat.elim
  · exact hq.delivered

/-- A download can get to its end by its own steps. -/
theorem delivery_completes (hcut : cut.Conforms) (hB : H.CollisionFree {b | b ∈ B})
    (hc : ∀ k, (client k).Suits H B childUrl n)
    (hr : ((delivery H cut B site childUrl display n client).guard (Smooth client)).Reachable y) (k : κ) :
    ∃ ls y', ((delivery H cut B site childUrl display n client).guard (Smooth client)).Run y ls y' ∧
      (∀ l ∈ ls, ∃ e, l = .client k e) ∧ Finished H B display (client k) (y'.2 k) := by
  have hbegun : ∀ {y : (State ι × Sources ι) × (κ → Delivering n)},
      ((delivery H cut B site childUrl display n client).guard (Smooth client)).Reachable y →
      (y.2 k).Begun H B childUrl display (client k) y.1.1.db →
      ∃ ls y', ((delivery H cut B site childUrl display n client).guard (Smooth client)).Run y ls y' ∧
        (∀ l ∈ ls, ∃ e, l = .client k e) ∧ Finished H B display (client k) (y'.2 k) := by
    intro y hr hq
    rcases hq with ⟨m, parts, hq⟩ | hq
    · exact working_completes hcut hB hc hr hq (Nat.lt_succ_self _)
    · exact ⟨[], y, .nil y, by simp, hq⟩
  obtain ⟨-, hok⟩ := (delivery_ok hcut hB hc).reachable hr
  rcases hok k with hq | hq
  · obtain ⟨ls, y₁, hrun, hown, hq₁⟩ := starting_completes hcut hB hc hr hq
    obtain ⟨ls', y', hrun', hown', hfin⟩ := hbegun (hr.run hrun) hq₁
    refine ⟨ls ++ ls', y', hrun.append hrun', fun l hl => ?_, hfin⟩
    rcases List.mem_append.1 hl with hl | hl
    · exact hown l hl
    · exact hown' l hl
  · exact hbegun hr hq

/-- **Downloads are delivered.** Any number of clients download from a server that takes uploads,
collects and drains at the same time, in any interleaving in which drains spare verified chunks,
no object is collected while it is downloaded, no connection breaks and the clients' files are in
order. A client whose object was there when it asked for the manifest ends with the object, one
whose object was not there with an error and no file; and wherever a client is, it can get to
that end by its own steps. -/
theorem downloads_delivered (H : Hashes) (cut : Cutter) (hcut : cut.Conforms) (B : List Bytes)
    (hB : H.CollisionFree {b | b ∈ B}) (site : Site) (childUrl : String → Option String)
    (display : Nat → String) (n : Nat) (client : κ → Downloader)
    (hc : ∀ k, (client k).Suits H B childUrl n)
    (y : (State ι × Sources ι) × (κ → Delivering n))
    (hr : ((delivery H cut B site childUrl display n client).guard (Smooth client)).Reachable y)
    (k : κ) :
    (∀ result, (y.2 k).pipeline.coordinator = .returned result →
      (y.2 k).Delivered H B display (client k)) ∧
    ∃ ls y', ((delivery H cut B site childUrl display n client).guard (Smooth client)).Run y ls y' ∧
      (∀ l ∈ ls, ∃ e, l = .client k e) ∧ (y'.2 k).Delivered H B display (client k) := by
  refine ⟨fun result hret => delivery_returned hcut hB hc hr hret, ?_⟩
  obtain ⟨ls, y', hrun, hown, hfin⟩ := delivery_completes hcut hB hc hr k
  exact ⟨ls, y', hrun, hown, hfin.delivered⟩

end Delivered

instance (s : Pipeline n) (l : DownloadEvent n) : Decidable (Orderly s l) := by
  unfold Orderly
  split
  · infer_instance
  · rename_i directory file
    cases file with
    | ok path => exact decidable_of_iff (directory = .ok ()) (by simp)
    | error e => exact .isFalse (by simp)
  · infer_instance
  · infer_instance
  · split <;> infer_instance
  · infer_instance

instance (q : Delivering n) (e : DeliveryEvent n) : Decidable (Calm q e) := by
  unfold Calm
  split <;> infer_instance

instance {κ : Type} [Fintype κ] (client : κ → Downloader)
    (y : (State ι × Sources ι) × (κ → Delivering n))
    (l : LTS.ClientLabel (Label ι) κ (DeliveryEvent n)) : Decidable (Smooth client y l) := by
  unfold Smooth
  split
  · split <;> infer_instance
  · infer_instance
  · infer_instance

namespace Sample

/-- A client of repository 1 with an empty cache. -/
def downloader : Downloader := ⟨1, wanted, fun _ => none⟩

/-- Its only worker. -/
def sole : Fin 1 := Fin.last 0

/-- What the client does, one worker fetching byte `a`. -/
def fetches : List (DeliveryEvent 1) :=
  [.send none, .deliver none, .own (.coordinator (.create (.ok ()) (.ok [0x66]))),
    .own (.coordinator .go), .own (.coordinator .go), .own (.worker sole .go),
    .own (.worker sole (.fetch (.read true))), .send (some sole), .serve (some sole), .deliver (some sole),
    .own (.worker sole (.fetch (.persist .published))), .own (.worker sole .go), .own (.coordinator .go),
    .own (.coordinator (.write (.ok ()))), .own (.coordinator .go), .own (.coordinator .go),
    .own (.worker sole .go), .own (.coordinator .go), .own (.coordinator (.keep (.ok ())))]

/-- Byte `a` is uploaded, and a client with one worker downloads it. -/
def uploadsThenDownloads : List (LTS.ClientLabel (Label Unit) Unit (DeliveryEvent 1)) :=
  (uploads () 1 7 [0x61]).map .system ++ fetches.map (.client ())

theorem downloader_suits : downloader.Suits hashes [[0x61]] (fun _ => none) 1 := by
  refine ⟨by decide, ⟨_, rfl, rfl⟩, fun b hb _ => ?_, ?_, ?_⟩
  · rw [List.mem_singleton] at hb
    subst hb
    rfl
  · apply byte_collisionFree.mono
    rintro b (hb | ⟨i, hi⟩)
    · exact hb
    · cases hi
  · intro m b _ _ i d _ j d' _ _ _ _ b' hb'
    cases hb'

end Sample

open Sample in
/-- The byte arrives. -/
theorem downloads_delivered_byte : ∃ y : (State Unit × Sources Unit) × (Unit → Delivering 1),
    ((delivery hashes maximalCut [[0x61]] (fun _ => none) (fun _ => none) toString 1
      fun _ => downloader).guard (Smooth fun _ => downloader)).Reachable y ∧
    (y.2 ()).pipeline.temporary = some ⟨[0x66], [0x61]⟩ ∧
    (y.2 ()).Delivered hashes [[0x61]] toString downloader := by
  obtain ⟨y, hr, hfile, hret⟩ : ∃ y : (State Unit × Sources Unit) × (Unit → Delivering 1),
      ((delivery hashes maximalCut [[0x61]] (fun _ => none) (fun _ => none) toString 1
        fun _ => downloader).guard (Smooth fun _ => downloader)).Reachable y ∧
      (y.2 ()).pipeline.temporary = some ⟨[0x66], [0x61]⟩ ∧ (y.2 ()).busy = false := by
    unfold delivery careful
    rw [server, LTS.guard_ofFn, LTS.annotate_ofFn, LTS.clients_ofFn]
    exact LTS.exists_reachable_of_execGuard
      (s := ((.initial 0, .empty), fun _ => ⟨.initial 1 fun _ => none, fun _ => .idle, false⟩))
      uploadsThenDownloads ⟨⟨⟨0, rfl⟩, rfl⟩, rfl⟩ (by decide +kernel)
  refine ⟨y, hr, hfile, ?_⟩
  have hd := (downloads_delivered hashes maximalCut maximalCut_conforms _ byte_collisionFree
    (fun _ => none) _ toString 1 _ (fun _ => downloader_suits) y hr ()).1
  unfold Delivering.busy at hret
  split at hret
  · rename_i hstart
    have hok := (delivery_ok maximalCut_conforms byte_collisionFree fun _ => downloader_suits).reachable hr
    rcases hok.2 () with hq | ⟨m, parts, hq⟩ | hq
    · rw [hq.pipeline] at hfile
      cases hfile
    · exact absurd hstart hq.atWork.not_starting
    · exact hq.delivered
  · rename_i result hresult
    exact hd result hresult
  · cases hret

end GitLfsDelta
