import Mathlib.Data.Fintype.Option
import GitLfsDelta.Core.Callers
import GitLfsDelta.L4System.Acknowledged
import GitLfsDelta.L4System.Progress
import GitLfsDelta.L5Client.UploadOutcome

/-!
# Uploads to this server

The client's upload and the server's handlers, put together: any number of clients, each with its
own pool of workers, upload to a server that works on other requests, is collected and drained.
The producer's requests are served by `begin_cdc` and `finalize_cdc`, a worker's by
`upload_cdc_chunk`; each request is a process of the server, which may be killed, and may go on
after its client has given it up. Answers may be lost or replaced by a failure on the way.

* `SessionOf`: what a client knows of the session it uploads in, whoever else uses it.
* `uploads_deposited`: an upload that ends with `Ok` had its object published: the object was there
  at some moment between the client's `begin_cdc` and its end, and is there until it is deleted.
-/
namespace GitLfsDelta

/-- What a client uploads, and to which repository. -/
structure Depositor where
  repository : Uuid
  source : Bytes
  request : UploadRequest

/-- A client, and the processes that serve its requests: `none` is the producer's. -/
structure Depositing (ι : Type) (n : Nat) where
  pipeline : UploadState n
  serving : Option (Fin n) → Option ι
  /-- Ghost: the length of the journal when `begin_cdc` was last asked. -/
  since : Nat

inductive DepositEvent (ι : Type) (n : Nat)
  /-- A step of the client that needs no server. -/
  | own (event : UploadLabel n)
  /-- A request arrives, and process `p` starts on it. -/
  | send (who : Option (Fin n)) (p : ι) (newId : Uuid)
  /-- The answer of its process arrives at the client. -/
  | deliver (who : Option (Fin n))
  /-- The client gets another answer: a check before the handler fails, or something between. -/
  | refuse (who : Option (Fin n)) (status : StatusCode) (error : String)
  /-- The connection breaks. -/
  | lose (who : Option (Fin n)) (error : String)

variable {ι : Type} {n : Nat}

def UploadLabel.isReply : UploadLabel n → Bool
  | .producer (.begun _) | .producer (.finalized _) | .worker _ (.reply _) => true
  | _ => false

/-- What is wrong with the action's URL, if anything. -/
def Depositor.urlError (childUrl : String → Option String) (c : Depositor) : Option String :=
  c.request.action.bind fun a => childUrl a.href

/-- The request that is to be sent, up to the id the server will make.
mirrors crates/git-lfs-delta-client/src/backend.rs:57-64, 93-101, 236-245 -/
def Depositing.query (childUrl : String → Option String) (c : Depositor) (q : Depositing ι n) :
    Option (Fin n) → Option (Uuid → Request)
  | none =>
    match q.pipeline.producer, q.pipeline.plan with
    | .beginning m _, _ => some fun newId => .beginCdc c.repository c.request.oid 1 m newId
    | .finalizing _, some plan =>
      if (c.urlError childUrl).isSome then none
      else some fun _ => .finalizeCdc c.repository c.request.oid plan.uploadId
    | _, _ => none
  | some w =>
    match q.pipeline.workers w, q.pipeline.plan with
    | .putting i bytes _, some plan =>
      if (c.urlError childUrl).isSome then none
      else some fun _ => .uploadCdcChunk c.repository c.request.oid plan.uploadId i bytes
    | _, _ => none

/-- What the client sees of an answer; `display` is what `Display` prints for a status. -/
def Response.planReply (display : Nat → String) : Response → Reply BeginUploadResponse
  | .plan u missing => .response ⟨200, display 200⟩ (.ok ⟨1, u, missing.map UInt32.ofNat⟩)
  | .failed e => .response ⟨e.status, display e.status⟩ (.error e.message)
  | _ => .response ⟨204, display 204⟩ (.error "not a plan")

def Response.unitReply (display : Nat → String) : Response → Reply Unit
  | .failed e => .response ⟨e.status, display e.status⟩ (.error e.message)
  | _ => .response ⟨204, display 204⟩ (.ok ())

/-- An answer as an event of the client: `plan` to `begin_cdc`, `unit` to the others. -/
def answered (producer : Producer) (plan : Reply BeginUploadResponse) (unit : Reply Unit) :
    Option (Fin n) → UploadLabel n
  | none =>
    match producer with
    | .beginning .. => .producer (.begun plan)
    | _ => .producer (.finalized unit)
  | some w => .worker w (.reply unit)

section Step

variable [DecidableEq ι] (H : Hashes) (cut : Cutter) (childUrl : String → Option String)
  (display : Nat → String)

/-- The client goes on with an answer. -/
def Depositing.receive (c : Depositor) (q : Depositing ι n) (who : Option (Fin n))
    (plan : Reply BeginUploadResponse) (unit : Reply Unit) : Option (Depositing ι n) :=
  (uploadStep H cut c.source childUrl c.request q.pipeline
    (answered q.pipeline.producer plan unit who)).map fun s =>
      { q with pipeline := s, serving := Function.update q.serving who none }

/-- A step of a client beside a server with these processes and a journal of this length. -/
def depositStep (c : Depositor) (procs : ι → Proc) (length : Nat) (q : Depositing ι n) :
    DepositEvent ι n → Option (Depositing ι n)
  | .own event =>
    if event.isReply then none
    else (uploadStep H cut c.source childUrl c.request q.pipeline event).map fun s =>
      { q with pipeline := s }
  | .send who p _ =>
    match q.query childUrl c who, q.serving who with
    | some _, none => some { q with
        serving := Function.update q.serving who (some p)
        since := match q.pipeline.producer with
          | .beginning .. => length
          | _ => q.since }
    | _, _ => none
  | .deliver who =>
    match (q.serving who).map procs with
    | some (.done response) =>
      q.receive H cut childUrl c who (response.planReply display) (response.unitReply display)
    | _ => none
  | .refuse who status error =>
    if status.isSuccess then none
    else q.receive H cut childUrl c who (.response status (.error error)) (.response status (.error error))
  | .lose who error => q.receive H cut childUrl c who (.failed error) (.failed error)

/-- The step of the server behind it. -/
def depositCall (c : Depositor) (q : Depositing ι n) : DepositEvent ι n → Option (Label ι)
  | .send who p newId => (q.query childUrl c who).map fun request => .act p (.start (request newId))
  | _ => none

end Step

section System

variable {κ : Type} [DecidableEq ι] [DecidableEq κ]

/-- A process whose answer a client waits for takes no other request. -/
def Unclaimed (x : (State ι × Journal ι) × (κ → Depositing ι n)) :
    LTS.ClientLabel (Label ι) κ (DepositEvent ι n) → Prop
  | .system (.act p (.start _)) | .client _ (.send _ p _) => ∀ k who, (x.2 k).serving who ≠ some p
  | _ => True

/-- Every interleaving of the server, its clients and the network between them. -/
def deposits (H : Hashes) (cut : Cutter) (childUrl : String → Option String)
    (display : Nat → String) (n : Nat) (client : κ → Depositor) :
    LTS ((State ι × Journal ι) × (κ → Depositing ι n))
      (LTS.ClientLabel (Label ι) κ (DepositEvent ι n)) :=
  (((server H cut).record retentionEvent).callers (fun _ => ⟨.initial n, fun _ => none, 0⟩)
    (fun k _ => depositCall childUrl (client k))
    fun k x => depositStep H cut childUrl display (client k) x.1.procs x.2.length).guard Unclaimed

end System

/-! ## What a step does to the producer -/

section Client

variable {H : Hashes} {cut : Cutter} {source : Bytes} {childUrl : String → Option String}
  {request : UploadRequest} {s s' : UploadState n} {l : UploadLabel n}

def Producer.Failed (p : Producer) : Prop := ∃ e, p = .returned (.error e)

/-- Between its two requests. -/
def Producer.Busy : Producer → Prop
  | .starting | .beginning .. | .finalizing _ | .returned _ => False
  | _ => True

/-- Past the first request. -/
def Producer.Later : Producer → Prop
  | .starting | .beginning .. | .returned _ => False
  | _ => True

/-- The source has the object id the client announces. -/
def Depositor.Honest (H : Hashes) (c : Depositor) : Prop := H.sha256 c.source = c.request.oid

theorem acceptSource_oid (hcut : cut.Conforms) {opened read : Except String Unit} {m : ObjectManifest}
    (h : acceptSource H cut source request opened read = .ok m) : H.sha256 source = request.oid := by
  have hfinish := acceptSource_ok h
  unfold acceptSource at h
  split at h
  · cases h
  · cases h
  rw [hfinish] at h
  simp only at h
  split at h
  · cases h
  rename_i hmatch
  obtain ⟨cs, hchunk⟩ : ∃ cs, chunkObject H cut source = .ok (cs, m) := by
    unfold ChunkStream.finish at hfinish
    unfold chunkObject
    simp only
    cases hall : ChunkStream.pullAll H (ChunkStream.new cut source .fastCdcV1).inner
        (ChunkStream.new cut source .fastCdcV1) with
    | error e =>
      rw [hall] at hfinish
      cases hfinish
    | ok pulled =>
      rw [hall] at hfinish
      cases hfinish
      exact ⟨pulled.1, rfl⟩
  obtain ⟨-, -, hsha, hdata⟩ := chunkObject_spec hchunk
  rw [hdata, hcut.whole] at hsha
  rw [← hsha]
  by_contra hne
  exact hmatch (.inl hne)

theorem pull_producer (H : Hashes) (s : UploadState n) (stream : ChunkStream) (i : Nat) :
    (s.pull H stream i).plan = s.plan ∧ (s.pull H stream i).producer.Later := by
  unfold UploadState.pull
  split
  · exact ⟨rfl, trivial⟩
  · exact ⟨rfl, trivial⟩
  · split
    · exact ⟨rfl, trivial⟩
    split <;> exact ⟨rfl, trivial⟩

theorem settle_producer (s : UploadState n) :
    s.settle.plan = s.plan ∧ (s.settle.producer.Failed ∨ s.settle.producer.Later) := by
  unfold UploadState.settle
  split
  · exact ⟨rfl, .inl ⟨_, rfl⟩⟩
  · exact ⟨rfl, .inl ⟨_, rfl⟩⟩
  · exact ⟨rfl, .inr trivial⟩

/-- Without an answer of its own the producer stays, gives up, or gets to the next request. -/
theorem uploadStep_own (hcut : cut.Conforms)
    (h : uploadStep H cut source childUrl request s l = some s')
    (hbegun : ∀ reply, l ≠ .producer (.begun reply)) (hfinal : ∀ reply, l ≠ .producer (.finalized reply)) :
    s'.plan = s.plan ∧ (s'.producer = s.producer ∨ s'.producer.Failed ∨
      (s.producer = .starting ∧ H.sha256 source = request.oid ∧ ∃ m, s'.producer = .beginning m 0) ∨
      s.producer.Busy ∧ s'.producer.Later) := by
  cases l with
  | worker w event =>
    simp only [uploadStep] at h
    have hsame : s'.plan = s.plan ∧ s'.producer = s.producer := by
      cases hw : s.workers w <;> cases event <;> simp only [hw, putterStep, reduceCtorEq] at h
      · split at h
        · cases h; exact ⟨rfl, rfl⟩
        · split at h <;> cases h
          exact ⟨rfl, rfl⟩
      · split at h <;> cases h
        exact ⟨rfl, rfl⟩
      · split at h <;> cases h
        exact ⟨rfl, rfl⟩
      · cases h; exact ⟨rfl, rfl⟩
      · cases h; exact ⟨rfl, rfl⟩
    exact ⟨hsame.1, .inl hsame.2⟩
  | producer event =>
    simp only [uploadStep] at h
    cases hp : s.producer with
    | starting =>
      rw [hp] at h
      cases event <;> simp only [producerStep, reduceCtorEq] at h
      · split at h <;> cases h
        exact ⟨rfl, .inr (.inl ⟨_, rfl⟩)⟩
      · split at h
        · cases h
        split at h
        · cases h
          exact ⟨rfl, .inr (.inl ⟨_, rfl⟩)⟩
        · rename_i m hsource
          cases h
          exact ⟨rfl, .inr (.inr (.inl ⟨rfl, acceptSource_oid hcut hsource, m, rfl⟩))⟩
    | beginning m attempt =>
      rw [hp] at h
      cases event with
      | begun reply => exact absurd rfl (hbegun reply)
      | _ => simp only [producerStep, reduceCtorEq] at h
    | reopening m plan =>
      rw [hp] at h
      cases event <;> simp only [producerStep, reduceCtorEq] at h
      split at h
      · cases h
        exact ⟨rfl, .inr (.inl ⟨_, rfl⟩)⟩
      split at h
      · cases h
        exact ⟨rfl, .inr (.inl ⟨_, rfl⟩)⟩
      · cases h
        exact ⟨rfl, .inr (.inr (.inr ⟨trivial, trivial⟩))⟩
    | pulling stream i =>
      rw [hp] at h
      cases event <;> simp only [producerStep, reduceCtorEq, Option.some.injEq] at h
      · subst h
        obtain ⟨hplan, hlater⟩ := pull_producer H s stream i
        exact ⟨hplan, .inr (.inr (.inr ⟨trivial, hlater⟩))⟩
      · subst h
        exact ⟨rfl, .inr (.inr (.inr ⟨trivial, trivial⟩))⟩
    | sending stream i bytes =>
      rw [hp] at h
      cases event <;> simp only [producerStep, reduceCtorEq] at h
      split at h
      · cases h
        exact ⟨rfl, .inr (.inr (.inr ⟨trivial, trivial⟩))⟩
      · split at h <;> cases h
        exact ⟨rfl, .inr (.inr (.inr ⟨trivial, trivial⟩))⟩
    | polling stream i =>
      rw [hp] at h
      cases event <;> simp only [producerStep, reduceCtorEq] at h
      split at h <;> cases h
      · exact ⟨rfl, .inr (.inr (.inr ⟨trivial, trivial⟩))⟩
      · exact ⟨rfl, .inr (.inr (.inr ⟨trivial, trivial⟩))⟩
    | joining =>
      rw [hp] at h
      cases event <;> simp only [producerStep, reduceCtorEq] at h
      split at h <;> cases h
      obtain ⟨hplan, hfailed | hlater⟩ := settle_producer s
      · exact ⟨hplan, .inr (.inl hfailed)⟩
      · exact ⟨hplan, .inr (.inr (.inr ⟨trivial, hlater⟩))⟩
    | finalizing attempt =>
      rw [hp] at h
      cases event with
      | finalized reply => exact absurd rfl (hfinal reply)
      | go =>
        simp only [producerStep] at h
        split at h <;> cases h
        exact ⟨rfl, .inr (.inl ⟨_, rfl⟩)⟩
      | _ => simp only [producerStep, reduceCtorEq] at h
    | returned r =>
      rw [hp] at h
      cases event <;> simp only [producerStep, reduceCtorEq] at h

/-- What the producer makes of an answer to `begin_cdc`. -/
theorem uploadStep_begun {reply : Reply BeginUploadResponse}
    (h : uploadStep H cut source childUrl request s (.producer (.begun reply)) = some s') :
    (∃ m a, s.producer = .beginning m a ∧ s'.plan = s.plan ∧
      (s'.producer.Failed ∨ ∃ a', s'.producer = .beginning m a')) ∨
    ∃ status plan, reply = .response status (.ok plan) ∧ s'.plan = some plan ∧
      (s'.producer.Failed ∨ ∃ m, s'.producer = .reopening m plan) := by
  simp only [uploadStep] at h
  cases hp : s.producer <;> simp only [hp, producerStep, reduceCtorEq] at h
  rename_i m a
  split at h
  · cases h
    exact .inl ⟨m, a, rfl, rfl, .inr ⟨_, rfl⟩⟩
  · cases h
    exact .inl ⟨m, a, rfl, rfl, .inl ⟨_, rfl⟩⟩
  · rename_i plan hdone
    obtain ⟨status, rfl⟩ : ∃ status, reply = .response status (.ok plan) := by
      unfold beginUpload receivePost at hdone
      split at hdone
      · split at hdone <;> cases hdone
      · rename_i status body
        split at hdone
        · cases body <;> cases hdone
          exact ⟨_, rfl⟩
        · split at hdone <;> cases hdone
    split at h <;> cases h
    · exact .inr ⟨status, plan, rfl, rfl, .inl ⟨_, rfl⟩⟩
    · exact .inr ⟨status, plan, rfl, rfl, .inr ⟨m, rfl⟩⟩

/-- What the producer makes of an answer to `finalize_cdc`. -/
theorem uploadStep_finalized {reply : Reply Unit}
    (h : uploadStep H cut source childUrl request s (.producer (.finalized reply)) = some s') :
    ∃ a, s.producer = .finalizing a ∧ s'.plan = s.plan ∧
      (s'.producer.Failed ∨ (∃ a', s'.producer = .finalizing a') ∨
        s'.producer = .returned (.ok request.size) ∧
          ∃ status body, reply = .response status body ∧ status.isSuccess = true) := by
  simp only [uploadStep] at h
  cases hp : s.producer <;> simp only [hp, producerStep, reduceCtorEq] at h
  rename_i a
  refine ⟨a, rfl, ?_⟩
  split at h
  · cases h
  split at h
  · cases h
    exact ⟨rfl, .inr (.inl ⟨_, rfl⟩)⟩
  · cases h
    exact ⟨rfl, .inl ⟨_, rfl⟩⟩
  · rename_i hdone
    cases h
    exact ⟨rfl, .inr (.inr ⟨rfl, receivePost_ok hdone⟩)⟩

end Client

/-! ## What a client is promised -/

section Promise

variable [DecidableEq ι] {H : Hashes} {cut : Cutter} {childUrl : String → Option String}
  {display : Nat → String} {c : Depositor} {x x' : State ι × Journal ι} {q q' : Depositing ι n}

/-- What the process of the producer's request is, by what the producer is at. -/
def Depositing.Served (c : Depositor) (x : State ι × Journal ι) (q : Depositing ι n) : Prop :=
  match q.pipeline.producer with
  | .beginning .. => q.pipeline.plan = none ∧ ∀ p, q.serving none = some p →
    (x.1.procs p).Begins (SessionOf x.1 x.2 q.since c.repository c.request.oid)
  | .finalizing _ => ∀ p, q.serving none = some p → ∃ plan, q.pipeline.plan = some plan ∧
    (x.1.procs p).Finalizes c.repository plan.uploadId
      (WasPresent x.2 q.since c.repository c.request.oid)
  | .returned (.ok size) => size = c.request.size ∧
    WasPresent x.2 q.since c.repository c.request.oid
  | .returned (.error _) => True
  | .starting => q.pipeline.plan = none ∧ q.serving none = none
  | _ => q.serving none = none

structure Depositing.Ok (H : Hashes) (c : Depositor) (x : State ι × Journal ι) (q : Depositing ι n) :
    Prop where
  since : q.since ≤ x.2.length
  honest : q.pipeline.producer = .starting ∨ q.pipeline.producer.Failed ∨ c.Honest H
  session : ∀ plan, q.pipeline.plan = some plan →
    SessionOf x.1 x.2 q.since c.repository c.request.oid plan.uploadId
  served : q.Served c x

/-- The server is in a state of one of its runs, and this is the journal of it. -/
structure Journalled (H : Hashes) (x : State ι × Journal ι) : Prop where
  owned : Owned x.1
  shared : SharedInv H x.1.toShared
  chronicle : Chronicle x.1 x.2

theorem journalled_inv (H : Hashes) (cut : Cutter) :
    ((server H cut : LTS (State ι) (Label ι)).record retentionEvent).Inductive (Journalled H) := by
  have hinv : ((server H cut : LTS (State ι) (Label ι)).record retentionEvent).Inductive
      fun x => Owned x.1 ∧ SharedInv H x.1.toShared := (server_inv H cut).annotate
  have hkept := chronicle_kept (ι := ι) H cut
  exact ⟨fun x hx => ⟨(hinv.init x hx).1, (hinv.init x hx).2, hkept.init x hx⟩,
    fun x l x' hx hst => by
      obtain ⟨ho, hs⟩ := hinv.step x l x' ⟨hx.owned, hx.shared⟩ hst
      exact ⟨ho, hs, hkept.step x l x' hx.chronicle hst⟩⟩

/-- The server's steps, for whichever client, keep the promise. -/
theorem Depositing.Ok.stable {l : Label ι} (hq : q.Ok H c x) (hx : Journalled H x) (hx' : Journalled H x')
    (hst : ((server H cut).record retentionEvent).step x l x')
    (hl : ∀ p, q.serving none = some p → ¬ l.Starts p) : q.Ok H c x' := by
  obtain ⟨s', j'⟩ := x'
  obtain ⟨hst, rfl⟩ : step H cut x.1 l = some s' ∧ j' = x.2 ++ (retentionEvent x.1 l s').toList := hst
  have hsession : ∀ {u : Uuid}, SessionOf x.1 x.2 q.since c.repository c.request.oid u →
      SessionOf s' (x.2 ++ (retentionEvent x.1 l s').toList) q.since c.repository c.request.oid u :=
    fun hu => hu.step hq.since hx.owned hx'.chronicle hst
  refine ⟨?_, hq.honest, fun plan hplan => hsession (hq.session plan hplan), ?_⟩
  · have hlen := hq.since
    simp only [List.length_append]
    omega
  have hserved := hq.served
  unfold Depositing.Served at hserved ⊢
  generalize q.pipeline.producer = producer at hserved ⊢
  cases producer with
  | beginning m attempt =>
    refine ⟨hserved.1, fun p hp => ?_⟩
    exact (hserved.2 p hp).step (fun u hu => hsession hu) hst (hl p hp)
  | finalizing attempt =>
    intro p hp
    obtain ⟨plan, hplan, hfin⟩ := hserved p hp
    exact ⟨plan, hplan, hfin.step (hq.session plan hplan) hq.since hx'.chronicle hst (hl p hp)⟩
  | returned result =>
    cases result with
    | ok size => exact ⟨hserved.1, hserved.2.append _⟩
    | error e => trivial
  | _ => exact hserved

omit [DecidableEq ι] in
/-- The producer is where it was, and its request where that was. -/
theorem Depositing.Ok.same (hq : q.Ok H c x) (hproducer : q'.pipeline.producer = q.pipeline.producer)
    (hplan : q'.pipeline.plan = q.pipeline.plan) (hserving : q'.serving none = q.serving none)
    (hsince : q'.since = q.since) : q'.Ok H c x := by
  obtain ⟨hle, hhonest, hsession, hserved⟩ := hq
  refine ⟨hsince ▸ hle, hproducer ▸ hhonest, fun plan h => ?_, ?_⟩
  · rw [hsince]
    exact hsession plan (hplan ▸ h)
  · unfold Depositing.Served at hserved ⊢
    rwa [hproducer, hplan, hserving, hsince]

omit [DecidableEq ι] in
/-- The producer has given up. -/
theorem Depositing.Ok.failed (hq : q.Ok H c x) (hfailed : q'.pipeline.producer.Failed)
    (hplan : ∀ plan, q'.pipeline.plan = some plan →
      SessionOf x.1 x.2 q.since c.repository c.request.oid plan.uploadId)
    (hsince : q'.since = q.since) : q'.Ok H c x := by
  refine ⟨hsince ▸ hq.since, .inr (.inl hfailed), hsince ▸ hplan, ?_⟩
  obtain ⟨e, he⟩ := hfailed
  unfold Depositing.Served
  rw [he]
  trivial

omit [DecidableEq ι] in
/-- The producer goes on without a request. -/
theorem Depositing.Ok.later (hq : q.Ok H c x) (hlater : q'.pipeline.producer.Later)
    (hhonest : c.Honest H) (hplan : ∀ plan, q'.pipeline.plan = some plan →
      SessionOf x.1 x.2 q.since c.repository c.request.oid plan.uploadId)
    (hserving : q'.serving none = none) (hsince : q'.since = q.since) : q'.Ok H c x := by
  refine ⟨hsince ▸ hq.since, .inr (.inr hhonest), hsince ▸ hplan, ?_⟩
  unfold Depositing.Served
  generalize q'.pipeline.producer = producer at hlater ⊢
  cases producer with
  | starting | beginning | returned => exact hlater.elim
  | finalizing attempt => simp [hserving]
  | _ => exact hserving

omit [DecidableEq ι] in
theorem Depositing.Ok.honest_of_busy (hq : q.Ok H c x) (hne : q.pipeline.producer ≠ .starting)
    (hfail : ¬ q.pipeline.producer.Failed) : c.Honest H :=
  (hq.honest.resolve_left hne).resolve_left hfail

omit [DecidableEq ι] in
/-- A step of the client without an answer to the producer. -/
theorem Depositing.Ok.own (hcut : cut.Conforms) (hq : q.Ok H c x) {l : UploadLabel n}
    (hbegun : ∀ reply, l ≠ .producer (.begun reply)) (hfinal : ∀ reply, l ≠ .producer (.finalized reply))
    (h : uploadStep H cut c.source childUrl c.request q.pipeline l = some q'.pipeline)
    (hserving : q'.serving none = q.serving none) (hsince : q'.since = q.since) : q'.Ok H c x := by
  obtain ⟨hplan, hsame | hfailed | ⟨hp, hsha, m, hp'⟩ | ⟨hbusy, hlater⟩⟩ :=
    uploadStep_own hcut h hbegun hfinal
  · exact hq.same hsame hplan hserving hsince
  · exact hq.failed hfailed (fun plan h => hq.session plan (hplan ▸ h)) hsince
  · have hserved := hq.served
    unfold Depositing.Served at hserved
    rw [hp] at hserved
    refine ⟨hsince ▸ hq.since, .inr (.inr hsha), fun plan h => ?_, ?_⟩
    · rw [hsince]
      exact hq.session plan (hplan ▸ h)
    · unfold Depositing.Served
      rw [hp']
      exact ⟨hplan.trans hserved.1, by simp [hserving, hserved.2]⟩
  · have hserved := hq.served
    unfold Depositing.Served at hserved
    have hhonest : c.Honest H := by
      apply hq.honest_of_busy
      · intro he
        rw [he] at hbusy
        exact hbusy
      · rintro ⟨e, he⟩
        rw [he] at hbusy
        exact hbusy
    refine hq.later hlater hhonest (fun plan h => hq.session plan (hplan ▸ h)) (hserving.trans ?_) hsince
    revert hserved hbusy
    cases q.pipeline.producer <;> intro hbusy hserved <;> first | exact hserved | exact hbusy.elim

omit [DecidableEq ι] in
/-- The client goes on with an answer that means what it says. -/
theorem Depositing.Ok.receive (hcut : cut.Conforms) (hq : q.Ok H c x) {who : Option (Fin n)}
    {plan : Reply BeginUploadResponse} {unit : Reply Unit}
    (hplan : who = none → ∀ m a, q.pipeline.producer = .beginning m a → ∀ status p,
      plan = .response status (.ok p) →
      SessionOf x.1 x.2 q.since c.repository c.request.oid p.uploadId)
    (hunit : who = none → ∀ a, q.pipeline.producer = .finalizing a → ∀ status body,
      unit = .response status body → status.isSuccess = true →
      WasPresent x.2 q.since c.repository c.request.oid)
    (h : q.receive H cut childUrl c who plan unit = some q') : q'.Ok H c x := by
  simp only [Depositing.receive, Option.map_eq_some_iff] at h
  obtain ⟨s, hst, rfl⟩ := h
  cases who with
  | some w =>
    have hserving : (Function.update q.serving (some w) none : Option (Fin n) → Option ι) none =
        q.serving none := Function.update_of_ne (Option.some_ne_none w).symm _ _
    exact hq.own hcut (by simp [answered]) (by simp [answered]) hst hserving rfl
  | none =>
    have hfree : (Function.update q.serving none none : Option (Fin n) → Option ι) none = none :=
      Function.update_self ..
    have hhonest : ∀ {p : Producer}, q.pipeline.producer = p → p ≠ .starting → ¬ p.Failed →
        c.Honest H := by
      rintro p rfl hne hfail
      exact hq.honest_of_busy hne hfail
    cases hp : q.pipeline.producer with
    | beginning m a =>
      rw [hp] at hst
      have hserved := hq.served
      unfold Depositing.Served at hserved
      rw [hp] at hserved
      have hh := hhonest hp (by simp) (by simp [Producer.Failed])
      rcases uploadStep_begun hst with ⟨m', a', -, hsame, hfailed | ⟨a'', hp'⟩⟩ |
          ⟨status, p, rfl, hnew, hcase⟩
      · exact hq.failed hfailed (fun p h => hq.session p (hsame ▸ h)) rfl
      · refine ⟨hq.since, .inr (.inr hh), fun p h => hq.session p (hsame ▸ h), ?_⟩
        unfold Depositing.Served
        rw [hp']
        exact ⟨hsame.trans hserved.1, by simp⟩
      · have hsession : ∀ p', s.plan = some p' →
            SessionOf x.1 x.2 q.since c.repository c.request.oid p'.uploadId := by
          intro p' h
          rw [hnew] at h
          cases h
          exact hplan rfl m a hp status p rfl
        rcases hcase with hfailed | ⟨m', hp'⟩
        · exact hq.failed hfailed hsession rfl
        · exact hq.later (by rw [hp']; trivial) hh hsession hfree rfl
    | finalizing a =>
      rw [hp] at hst
      have hh := hhonest hp (by simp) (by simp [Producer.Failed])
      obtain ⟨-, -, hsame, hfailed | ⟨a', hp'⟩ | ⟨hp', status, body, hunit', hsuccess⟩⟩ :=
        uploadStep_finalized hst
      · exact hq.failed hfailed (fun p h => hq.session p (hsame ▸ h)) rfl
      · exact hq.later (by rw [hp']; trivial) hh (fun p h => hq.session p (hsame ▸ h)) hfree rfl
      · refine ⟨hq.since, .inr (.inr hh), fun p h => hq.session p (hsame ▸ h), ?_⟩
        unfold Depositing.Served
        rw [hp']
        exact ⟨rfl, hunit rfl a hp status body hunit' hsuccess⟩
    | _ =>
      rw [hp] at hst
      obtain ⟨a, hp', -⟩ := uploadStep_finalized hst
      rw [hp] at hp'
      cases hp'

/-- A request starts. -/
theorem Depositing.Ok.send (hq : q.Ok H c x) (hx : Journalled H x) (hx' : Journalled H x')
    {who : Option (Fin n)} {p : ι} {newId : Uuid} {request : Uuid → Request}
    (hquery : q.query childUrl c who = some request)
    (hst : ((server H cut).record retentionEvent).step x (.act p (.start (request newId))) x')
    (hfree : ∀ who, q.serving who ≠ some p)
    (h : depositStep H cut childUrl display c x.1.procs x.2.length q (.send who p newId) = some q') :
    q'.Ok H c x' := by
  have hq' : q.Ok H c x' := by
    refine hq.stable hx hx' hst fun p' hp' => ?_
    rintro rfl
    exact hfree none hp'
  obtain ⟨s', j'⟩ := x'
  obtain ⟨hstep, rfl⟩ : step H cut x.1 (.act p (.start (request newId))) = some s' ∧
    j' = x.2 ++ (retentionEvent x.1 (.act p (.start (request newId))) s').toList := hst
  have hserved := hq.served
  have hserved' := hq'.served
  unfold Depositing.Served at hserved hserved'
  simp only [depositStep, hquery] at h
  split at h
  · rename_i hnone
    cases h
    cases who with
    | some w =>
      have hserving : (Function.update q.serving (some w) (some p) : Option (Fin n) → Option ι) none =
          q.serving none := Function.update_of_ne (Option.some_ne_none w).symm _ _
      refine hq'.same rfl rfl hserving ?_
      -- a worker has something to send when there is a plan
      cases hp : q.pipeline.producer with
      | beginning m a =>
        rw [hp] at hserved
        simp [Depositing.query, hserved.1] at hquery
      | _ => rfl
    | none =>
      cases hp : q.pipeline.producer with
      | beginning m a =>
        rw [hp] at hserved
        simp only [Depositing.query, hp, Option.some.injEq] at hquery
        subst hquery
        refine ⟨by simp, by simpa [hp] using hq.honest, fun plan hplan => ?_, ?_⟩
        · exact absurd (hserved.1.symm.trans hplan) (by simp)
        · unfold Depositing.Served
          simp only [hp]
          refine ⟨hserved.1, fun p' hp' => ?_⟩
          rw [Function.update_self, Option.some.injEq] at hp'
          subst hp'
          exact start_begins hx'.shared hstep
      | finalizing a =>
        rw [hp] at hserved'
        cases hplan : q.pipeline.plan with
        | none => simp [Depositing.query, hp, hplan] at hquery
        | some plan =>
          simp only [Depositing.query, hp, hplan] at hquery
          split at hquery
          · cases hquery
          simp only [Option.some.injEq] at hquery
          subst hquery
          refine ⟨hq'.since, by simpa [hp] using hq.honest, fun plan' hplan' => ?_, ?_⟩
          · simpa [hp] using hq'.session plan' hplan'
          · unfold Depositing.Served
            simp only [hp]
            intro p' hp'
            rw [Function.update_self, Option.some.injEq] at hp'
            subst hp'
            exact ⟨plan, hplan, (start_finalizes (hq.session plan hplan) hstep).append _⟩
      | _ => simp [Depositing.query, hp] at hquery
  · cases h

/-- A step of the client, with what the server does in it. -/
theorem Depositing.Ok.step (hcut : cut.Conforms) {e : DepositEvent ι n} (hq : q.Ok H c x)
    (hx : Journalled H x) (hx' : Journalled H x')
    (hfree : ∀ who p newId, e = .send who p newId → ∀ who', q.serving who' ≠ some p)
    (htake : ((server H cut).record retentionEvent).Takes x (depositCall childUrl c q e) x')
    (h : depositStep H cut childUrl display c x.1.procs x.2.length q e = some q') : q'.Ok H c x' := by
  cases e with
  | own event =>
    obtain rfl : x' = x := htake
    simp only [depositStep] at h
    split at h
    · cases h
    rename_i hreply
    simp only [Option.map_eq_some_iff] at h
    obtain ⟨s, hst, rfl⟩ := h
    refine hq.own hcut ?_ ?_ hst rfl rfl <;> rintro reply rfl <;> exact hreply rfl
  | send who p newId =>
    cases hquery : q.query childUrl c who with
    | none => simp [depositStep, hquery] at h
    | some request =>
      simp only [depositCall, hquery, Option.map_some, LTS.Takes] at htake
      exact hq.send hx hx' hquery htake (hfree who p newId rfl) h
  | deliver who =>
    obtain rfl : x' = x := htake
    simp only [depositStep] at h
    split at h
    · rename_i response hproc
      simp only [Option.map_eq_some_iff] at hproc
      obtain ⟨p, hserving, hdone⟩ := hproc
      have hserved := hq.served
      unfold Depositing.Served at hserved
      refine hq.receive hcut ?_ ?_ h
      · rintro rfl m a hp status plan hreply
        rw [hp] at hserved
        have hbegins := hserved.2 p hserving
        rw [hdone] at hbegins
        cases response <;> simp only [Response.planReply] at hreply <;> cases hreply
        exact hbegins
      · rintro rfl a hp status body hreply hsuccess
        rw [hp] at hserved
        obtain ⟨plan, -, hfin⟩ := hserved p hserving
        rw [hdone] at hfin
        cases response with
        | noContent => exact hfin
        | failed e =>
          simp only [Response.unitReply, Reply.response.injEq] at hreply
          obtain ⟨rfl, -⟩ := hreply
          have hlt : e.status < 300 := (by simpa [StatusCode.isSuccess] using hsuccess : _ ∧ _).2
          have hge : 400 ≤ e.status := hfin
          omega
        | _ => exact hfin.elim
    · cases h
  | refuse who status error =>
    obtain rfl : x' = x := htake
    simp only [depositStep] at h
    split at h
    · cases h
    rename_i hfail
    refine hq.receive hcut ?_ ?_ h
    · intro _ m a _ status' plan hreply
      cases hreply
    · intro _ a _ status' body hreply hsuccess
      cases hreply
      exact absurd hsuccess hfail
  | lose who error =>
    obtain rfl : x' = x := htake
    refine hq.receive hcut ?_ ?_ h
    · intro _ m a _ status' plan hreply
      cases hreply
    · intro _ a _ status' body hreply _
      cases hreply

variable {κ : Type} [DecidableEq κ] {client : κ → Depositor}

theorem deposit_ok (hcut : cut.Conforms) :
    (deposits H cut childUrl display n client : LTS ((State ι × Journal ι) × _) _).Inductive
      fun x => Journalled H x.1 ∧ ∀ k, (x.2 k).Ok H (client k) x.1 := by
  refine (journalled_inv H cut).callers (fun k x (q : Depositing ι n) => q.Ok H (client k) x) ?_ ?_ ?_
  · intro k x hx
    refine ⟨Nat.zero_le _, .inl rfl, by simp [UploadState.initial], ?_⟩
    exact ⟨rfl, rfl⟩
  · intro k x l a x' hx hx' hfree hl hother hst hq
    refine hq.stable hx hx' hst fun p hp hstarts => ?_
    -- no step starts anything on a process that is waited for
    cases l with
    | system l =>
      simp only [LTS.called, Option.some.injEq] at hl
      subst hl
      cases l with
      | advance δ => exact hstarts
      | act p' action =>
        cases action with
        | start request =>
          obtain rfl : p' = p := hstarts
          exact hfree k none hp
        | _ => exact hstarts
    | client k' e =>
      cases e with
      | send who p' newId =>
        simp only [LTS.called, depositCall, Option.map_eq_some_iff] at hl
        obtain ⟨request, -, rfl⟩ := hl
        obtain rfl : p' = p := hstarts
        exact hfree k none hp
      | _ => cases hl
  · intro k x e x' q hx hx' hfree htake hq h
    refine hq.step hcut hx hx' ?_ htake h
    rintro who p newId rfl who'
    exact hfree k who'

omit [DecidableEq ι] in
/-- What a client knows that has returned `Ok`. -/
theorem Depositing.Ok.returned {size : UInt64} (hq : q.Ok H c x)
    (hret : q.pipeline.producer = .returned (.ok size)) : size = c.request.size ∧ c.Honest H ∧
      WasPresent x.2 q.since c.repository c.request.oid := by
  have hserved := hq.served
  unfold Depositing.Served at hserved
  rw [hret] at hserved
  refine ⟨hserved.1, hq.honest_of_busy ?_ ?_, hserved.2⟩
  · simp [hret]
  · simp [Producer.Failed, hret]

omit [DecidableEq ι] in
/-- An object that was there and has not been deleted since is there. -/
theorem Journalled.there {a b : Journal ι} {r : Uuid} {oid : ObjectOid} (hx : Journalled H x)
    (hj : x.2 = a ++ b) (hp : PresentIn a r oid) (hb : Undeleted b r oid) :
    ∃ o ∈ x.1.db.objects, o.key = (r, oid) := by
  have hthere := presentIn_append hp hb
  rw [← hj] at hthere
  exact (hx.chronicle.objects _ _).2 hthere

/-- **An upload that succeeds has published its object.** Any number of clients upload to a server
that is collected and drained, over connections that break; a request may be killed, may go on
without its client, and may be repeated. When the upload of client `k` returns `Ok`, the source has
the announced object id, and the object was in its repository at some moment since the client's
last `begin_cdc`; from then on it is there until a collection deletes it. -/
theorem uploads_deposited (H : Hashes) (cut : Cutter) (hcut : cut.Conforms)
    (childUrl : String → Option String) (display : Nat → String) (n : Nat) (client : κ → Depositor)
    (x : (State ι × Journal ι) × (κ → Depositing ι n))
    (hr : (deposits H cut childUrl display n client).Reachable x) (k : κ) (size : UInt64)
    (hret : (x.2 k).pipeline.producer = .returned (.ok size)) :
    size = (client k).request.size ∧ H.sha256 (client k).source = (client k).request.oid ∧
      ∃ a b, x.1.2 = a ++ b ∧ (x.2 k).since ≤ a.length ∧
        PresentIn a (client k).repository (client k).request.oid ∧
        (Undeleted b (client k).repository (client k).request.oid →
          x.1.1.db.objects.get? ((client k).repository, (client k).request.oid) ≠ none) := by
  obtain ⟨hx, hok⟩ := (deposit_ok hcut).reachable hr
  obtain ⟨rfl, hhonest, a, b, hj, hlen, hp⟩ := (hok k).returned hret
  refine ⟨rfl, hhonest, a, b, hj, hlen, hp, fun hb => ?_⟩
  exact Table.get?_ne_none.2 (hx.there hj hp hb)

end Promise

/-! ## A run -/

section Decidable

variable {κ : Type} [DecidableEq ι] [Fintype κ]

instance (x : (State ι × Journal ι) × (κ → Depositing ι n)) : DecidablePred (Unclaimed x)
  | .system (.act p (.start _)) | .client _ (.send _ p _) =>
    inferInstanceAs (Decidable (∀ k who, (x.2 k).serving who ≠ some p))
  | .system (.advance _) | .system (.act _ .kill) | .system (.act _ (.next _))
  | .client _ (.own _) | .client _ (.deliver _) | .client _ (.refuse ..) | .client _ (.lose ..) =>
    .isTrue trivial

end Decidable

namespace Sample

/-- The only worker. -/
def uploader : Fin 1 := Fin.last 0

/-- A client of repository 1 with byte `a`. -/
def depositor : Depositor := ⟨1, [0x61], uploaded⟩

section

variable {ι κ : Type} (k : κ) (p : Nat → ι)

/-- The answer to the first `begin_cdc` of client `k` is lost, so it begins again; `p i` serves its
request number `i`. -/
def planned (u u' : Uuid) : List (LTS.ClientLabel (Label ι) κ (DepositEvent ι 1)) :=
  [.client k (.own (.producer (.source (.ok ()) (.ok ())))),
    .client k (.send none (p 0) u)] ++ (run (p 0) 2).map .system ++
    [.client k (.lose none "connection reset"), .client k (.send none (p 1) u')] ++
    (run (p 1) 2).map .system

/-- The `PUT` of the chunk that is missing. -/
def delivered : List (LTS.ClientLabel (Label ι) κ (DepositEvent ι 1)) :=
  [.deliver none, .own (.producer (.reopen (.ok ()))), .own (.producer .go), .own (.producer .go),
      .own (.worker uploader .go), .send (some uploader) (p 2) 9].map (.client k) ++
    (run (p 2) 2).map .system

/-- `finalize_cdc` is asked for. -/
def finalizing : List (LTS.ClientLabel (Label ι) κ (DepositEvent ι 1)) :=
  [.deliver (some uploader), .own (.producer .go), .own (.producer .go), .own (.worker uploader .go),
      .own (.producer .go), .send none (p 3) 9].map (.client k)

/-- It publishes the object and its answer is lost; the second one finds the session finalized. -/
def published : List (LTS.ClientLabel (Label ι) κ (DepositEvent ι 1)) :=
  (run (p 3) 2).map .system ++
    [.lose none "connection reset", .send none (p 4) 9, .deliver none].map (.client k)

def deposited : List (LTS.ClientLabel (Label ι) κ (DepositEvent ι 1)) :=
  planned k p 7 8 ++ delivered k p ++ finalizing k p ++ published k p

end

/-- Two clients deposit one object in turns: the second finds the session of the first, stores the
chunk before it, and has its `finalize_cdc` overtaken. -/
def depositedTwice : List (LTS.ClientLabel (Label Nat) Bool (DepositEvent Nat 1)) :=
  let q : Nat → Nat := (· + 10)
  planned false id 7 8 ++ planned true q 17 18 ++ delivered true q ++ delivered false id ++
    finalizing true q ++ (run (q 3) 1).map .system ++ finalizing false id ++ published false id ++
    (run (q 3) 1).map .system ++ [.client true (.deliver none)]

end Sample

open Sample in
/-- Both calls return `Ok`, and the object is there. -/
theorem uploads_deposited_byte : ∃ x : (State Nat × Journal Nat) × (Bool → Depositing Nat 1),
    (deposits hashes maximalCut (fun _ => none) toString 1 fun _ => depositor).Reachable x ∧
      (∀ k, (x.2 k).pipeline.producer = .returned (.ok 1)) ∧
      x.1.1.db.objects.get? (1, hashes.sha256 [0x61]) ≠ none := by
  obtain ⟨x, hr, hret, hj⟩ : ∃ x : (State Nat × Journal Nat) × (Bool → Depositing Nat 1),
      (deposits hashes maximalCut (fun _ => none) toString 1 fun _ => depositor).Reachable x ∧
      (∀ k, (x.2 k).pipeline.producer = .returned (.ok 1)) ∧
      x.1.2 = [.published 1 (hashes.sha256 [0x61])] := by
    unfold deposits LTS.record
    rw [server, LTS.annotate_ofFn, LTS.callers_ofFn]
    exact LTS.exists_reachable_of_execGuard
      (s := ((.initial 0, []), fun _ => ⟨.initial 1, fun _ => none, 0⟩))
      depositedTwice ⟨⟨⟨0, rfl⟩, rfl⟩, rfl⟩ (by decide +kernel)
  refine ⟨x, hr, hret, ?_⟩
  obtain ⟨-, -, a, b, hab, -, -, hkept⟩ := uploads_deposited hashes maximalCut maximalCut_conforms
    (fun _ => none) toString 1 (fun _ => depositor) x hr true 1 (hret true)
  apply hkept
  intro time hdel
  rw [hj] at hab
  have hmem : RetentionEvent.deleted 1 (hashes.sha256 [0x61]) time ∈
      [RetentionEvent.published (ι := Nat) 1 (hashes.sha256 [0x61])] :=
    hab ▸ List.mem_append_right a hdel
  simp at hmem

end GitLfsDelta
