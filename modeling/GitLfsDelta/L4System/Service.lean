import GitLfsDelta.L4System.Endpoints

/-!
# The service

The whole server: the transfer system, the lock system, the requests that only read, the
directory of repositories and the authorization cache, over one database, one store and one
clock. A call is admitted or refused in one step (`handle`); an admitted call becomes a process
of the system that carries it out. Administrative commands start processes of the transfer
system, or change the directory.

A step may produce a `Answer`: a refusal, or the answer of a process that has just finished.

* `service_parts`: a run of the service is a run of the systems it is made of, so what holds
  of their reachable states holds here.
* `denied_inert`: a call without the access it needs changes nothing and reveals nothing.
-/
namespace GitLfsDelta

/-- What is fixed when a server is set up. -/
structure Installation where
  H : Hashes
  cut : Cutter
  site : Site
  mode : Authentication

structure Service (ι : Type) where
  transfers : State ι
  locking : LockState ι
  readers : ι → Reader
  directory : Directory
  cache : ForgejoAuthorizationCache

inductive Kind
  | transfer | read | lock
  deriving DecidableEq, Repr

inductive ServiceLabel (ι : Type)
  | advance (δ : Nat)
  | call (p : ι) (caller : Caller) (call : Call) (up : Upstream)
  | admin (p : ι) (request : Request)
  | repositoryAdd (owner name : Text) (newId : Uuid)
  | grant (r : Uuid) (subject : Text) (write admin : Bool)
  /-- The next step of a process. -/
  | transfer (p : ι) (choice : Choice)
  | read (p : ι)
  | lock (p : ι) (newId : Uuid)
  /-- A process is cut off. -/
  | stop (kind : Kind) (p : ι)
  deriving DecidableEq, Repr

inductive Answer
  | refused (e : ApiError)
  | transfer (response : Response)
  | read (response : ReadResponse)
  | lock (response : LockResponse)
  | repository (result : Except DbError Uuid)
  | granted (result : Except DbError Unit)

/-- The answer of a process that has finished. -/
def Proc.reply : Proc → Option Answer
  | .done response => some (.transfer response)
  | _ => none

def Reader.reply : Reader → Option Answer
  | .done response => some (.read response)
  | _ => none

def LockProc.reply : LockProc → Option Answer
  | .done response => some (.lock response)
  | _ => none

/-- The requests that are administrative commands. -/
def Request.administrative : Request → Bool
  | .submitSnapshot .. | .stage .. | .collectDue .. | .reclaimExpiredUploads .. => true
  | _ => false

/-- A snapshot of an unknown repository: the foreign key of `reachability_epochs` rejects it. -/
def Request.orphaned (dir : Directory) : Request → Bool
  | .submitSnapshot r _ _ _ => (dir.repositories.get? r).isNone
  | _ => false

section Step

variable {ι : Type} [DecidableEq ι] (inst : Installation) (s : Service ι)

def Service.transfer (p : ι) (action : Action) : Option (Service ι × Option Answer) :=
  (step inst.H inst.cut s.transfers (.act p action)).map fun t =>
    ({ s with transfers := t }, (t.procs p).reply)

def Service.read (p : ι) (q : Reader) : Service ι × Option Answer :=
  ({ s with readers := Function.update s.readers p q }, q.reply)

def Service.lock (p : ι) (l : LockLabel ι) : Option (Service ι × Option Answer) :=
  (lockStep s.locking l).map fun t => ({ s with locking := t }, (t.procs p).reply)

/-- The first step of an admitted call. -/
def Service.enter (p : ι) : Admission → Option (Service ι × Option Answer)
  | .transfer request => s.transfer inst p (.start request)
  | .read r request =>
    if (s.readers p).Free then some (s.read p (readStart s.transfers.db r request)) else none
  | .lock r identity request => s.lock p (.start p r identity request)

/-- One step, and what it answers. -/
def serviceAct : ServiceLabel ι → Option (Service ι × Option Answer)
  | .advance δ =>
    (step inst.H inst.cut s.transfers (.advance δ)).bind fun t =>
      (lockStep s.locking (.advance δ)).map fun l => ({ s with transfers := t, locking := l }, none)
  | .call p caller call up =>
    match handle inst.H inst.mode s.directory up caller call s.cache with
    | (.error e, cache) => some ({ s with cache := cache }, some (.refused e))
    | (.ok admission, cache) => { s with cache := cache }.enter inst p admission
  | .admin p request =>
    if ¬ request.administrative then none
    else if request.orphaned s.directory then
      some (s, some (.transfer (.adminFailed (.database .foreignKey))))
    else s.transfer inst p (.start request)
  | .repositoryAdd owner name newId =>
    match s.directory.repositoryAdd owner name newId with
    | .error e => some (s, some (.repository (.error e)))
    | .ok (r, dir) => some ({ s with directory := dir }, some (.repository (.ok r)))
  | .grant r subject write admin =>
    match s.directory.addGrant r subject write admin with
    | .error e => some (s, some (.granted (.error e)))
    | .ok dir => some ({ s with directory := dir }, some (.granted (.ok ())))
  | .transfer p choice => s.transfer inst p (.next choice)
  | .read p =>
    (readNext inst.H inst.site s.transfers.db s.transfers.store (s.readers p)).map fun q =>
      s.read p q
  | .lock p newId => s.lock p (.next p newId)
  | .stop .transfer p => s.transfer inst p .kill
  | .stop .read p => some (s.read p .stopped)
  | .stop .lock p => s.lock p (.kill p)

def serviceStep (l : ServiceLabel ι) : Option (Service ι) := (serviceAct inst s l).map (·.1)

end Step

variable {ι : Type} [DecidableEq ι] {inst : Installation}

/-- A new server: repositories, but no grants, no contents and no locks. -/
def Service.initial (clock : Nat) (dir : Directory) (cache : ForgejoAuthorizationCache) :
    Service ι :=
  ⟨.initial clock, ⟨⟨.empty, [], clock⟩, fun _ => .idle⟩, fun _ => .idle,
    { dir with grants := .empty }, cache⟩

/-- Every interleaving of calls, commands and the steps of their processes. -/
def service (inst : Installation) : LTS (Service ι) (ServiceLabel ι) :=
  LTS.ofFn (fun s => ∃ clock dir cache, s = .initial clock dir cache) (serviceStep inst)

/-! ## The systems it is made of -/

variable {s s' : Service ι} {l : ServiceLabel ι} {p : ι} {reply : Option Answer}

/-- The parts of a service move as their systems do, or not at all. -/
structure Moves (inst : Installation) (s s' : Service ι) : Prop where
  transfers : s'.transfers = s.transfers ∨
    ∃ l, step inst.H inst.cut s.transfers l = some s'.transfers
  locking : s'.locking = s.locking ∨ ∃ l, lockStep s.locking l = some s'.locking

theorem moves_transfer {action : Action} (h : s.transfer inst p action = some (s', reply)) :
    Moves inst s s' := by
  simp only [Service.transfer, Option.map_eq_some_iff, Prod.mk.injEq] at h
  obtain ⟨t, ht, rfl, -⟩ := h
  exact ⟨.inr ⟨_, ht⟩, .inl rfl⟩

theorem moves_lock {lbl : LockLabel ι} (h : s.lock p lbl = some (s', reply)) : Moves inst s s' := by
  simp only [Service.lock, Option.map_eq_some_iff, Prod.mk.injEq] at h
  obtain ⟨t, ht, rfl, -⟩ := h
  exact ⟨.inl rfl, .inr ⟨_, ht⟩⟩

theorem moves_enter {admission : Admission} (h : s.enter inst p admission = some (s', reply)) :
    Moves inst s s' := by
  cases admission with
  | transfer request => exact moves_transfer h
  | read r request =>
    simp only [Service.enter] at h
    split at h
    · cases h
      exact ⟨.inl rfl, .inl rfl⟩
    · cases h
  | lock r identity request => exact moves_lock h

theorem serviceAct_moves (h : serviceAct inst s l = some (s', reply)) : Moves inst s s' := by
  cases l with
  | advance δ =>
    simp only [serviceAct, Option.bind_eq_some_iff, Option.map_eq_some_iff, Prod.mk.injEq] at h
    obtain ⟨t, ht, k, hk, rfl, -⟩ := h
    exact ⟨.inr ⟨_, ht⟩, .inr ⟨_, hk⟩⟩
  | call p caller call up =>
    simp only [serviceAct] at h
    split at h
    · cases h
      exact ⟨.inl rfl, .inl rfl⟩
    · obtain ⟨ht, hl⟩ := moves_enter h
      exact ⟨ht, hl⟩
  | admin p request =>
    simp only [serviceAct] at h
    split at h; · cases h
    split at h
    · cases h
      exact ⟨.inl rfl, .inl rfl⟩
    · exact moves_transfer h
  | repositoryAdd owner name newId =>
    simp only [serviceAct] at h
    split at h <;> cases h <;> exact ⟨.inl rfl, .inl rfl⟩
  | grant r subject write admin =>
    simp only [serviceAct] at h
    split at h <;> cases h <;> exact ⟨.inl rfl, .inl rfl⟩
  | transfer p choice => exact moves_transfer h
  | read p =>
    simp only [serviceAct, Option.map_eq_some_iff] at h
    obtain ⟨q, -, hq⟩ := h
    cases hq
    exact ⟨.inl rfl, .inl rfl⟩
  | lock p newId => exact moves_lock h
  | stop kind p =>
    cases kind with
    | transfer => exact moves_transfer h
    | read =>
      cases h
      exact ⟨.inl rfl, .inl rfl⟩
    | lock => exact moves_lock h

theorem serviceStep_act (h : serviceStep inst s l = some s') :
    ∃ reply, serviceAct inst s l = some (s', reply) := by
  simp only [serviceStep, Option.map_eq_some_iff] at h
  obtain ⟨⟨t, reply⟩, hact, rfl⟩ := h
  exact ⟨reply, hact⟩

/-- A run of the service is a run of the transfer system and one of the lock system. -/
theorem service_parts (inst : Installation) : (service (ι := ι) inst).Inductive fun s =>
    (server inst.H inst.cut).Reachable s.transfers ∧ lockSystem.Reachable s.locking where
  init s hs := by
    obtain ⟨clock, dir, cache, rfl⟩ := hs
    exact ⟨⟨_, [], ⟨clock, rfl⟩, .nil _⟩, ⟨_, [], ⟨clock, rfl⟩, .nil _⟩⟩
  step s l s' hs hst := by
    obtain ⟨reply, hact⟩ := serviceStep_act hst
    obtain ⟨ht, hl⟩ := serviceAct_moves hact
    constructor
    · rcases ht with ht | ⟨l', ht⟩
      · exact ht ▸ hs.1
      · exact hs.1.step ht
    · rcases hl with hl | ⟨l', hl⟩
      · exact hl ▸ hs.2
      · exact hs.2.step hl

/-! ## Calls without access -/

/-- `authenticate` does not grant the call the access it needs. -/
def Denies (inst : Installation) (s : Service ι) (caller : Caller) (call : Call) (up : Upstream) :
    Prop :=
  ∀ identity, (authenticate inst.H inst.mode s.directory s.cache up caller.header caller.owner
    caller.repository call.needed).1 ≠ .ok identity

/-- The call is refused with `e` and over: nothing but the authorization cache has changed. -/
def Refuses (inst : Installation) (s : Service ι) (p : ι) (caller : Caller) (call : Call)
    (up : Upstream) (e : ApiError) : Prop :=
  ∃ cache, serviceAct inst s (.call p caller call up) =
    some ({ s with cache := cache }, some (.refused e))

variable {caller : Caller} {call : Call} {up up' : Upstream} {e : ApiError}

omit [DecidableEq ι] in
theorem Denies.outcome (h : Denies inst s caller call up) :
    ∃ e, (authenticate inst.H inst.mode s.directory s.cache up caller.header caller.owner
      caller.repository call.needed).1 = .error e := by
  cases hout : (authenticate inst.H inst.mode s.directory s.cache up caller.header caller.owner
    caller.repository call.needed).1 with
  | error e => exact ⟨e, rfl⟩
  | ok identity => exact absurd hout (h identity)

theorem refuses_of_outcome
    (h : (authenticate inst.H inst.mode s.directory s.cache up caller.header caller.owner
      caller.repository call.needed).1 = .error e) :
    Refuses inst s p caller call up (call.denial e) := by
  have hauth : caller.authenticate inst.H inst.mode s.directory up call.needed s.cache =
      (.error e, (caller.authenticate inst.H inst.mode s.directory up call.needed s.cache).2) :=
    Prod.ext h rfl
  obtain ⟨cache, hcache⟩ := handle_denied hauth
  refine ⟨cache, ?_⟩
  simp only [serviceAct, hcache]

/-- **A call without the access it needs is inert.** In any state of the server it is refused
at once and leaves all tables, the store and every process as they are; the refusal is the
same in any two states in which `authenticate` comes to the same, and that is so in any two
that deny the call and agree on the authorization cache: it tells nothing of what they hold. -/
theorem denied_inert (hdenied : Denies inst s caller call up) (p : ι) :
    ∃ e, Refuses inst s p caller call up e ∧
      (∀ (s' : Service ι) (p' : ι) (up' : Upstream),
        (authenticate inst.H inst.mode s'.directory s'.cache up' caller.header caller.owner
          caller.repository call.needed).1 =
        (authenticate inst.H inst.mode s.directory s.cache up caller.header caller.owner
          caller.repository call.needed).1 → Refuses inst s' p' caller call up' e) ∧
      ∀ (s' : Service ι) (p' : ι), s'.cache = s.cache → Denies inst s' caller call up →
        Refuses inst s' p' caller call up e := by
  obtain ⟨e, he⟩ := hdenied.outcome
  refine ⟨call.denial e, refuses_of_outcome he, ?_, ?_⟩
  · intro s' p' up' hsame
    exact refuses_of_outcome (hsame.trans he)
  · intro s' p' hcache hdenied'
    obtain ⟨e', he'⟩ := hdenied'.outcome
    have heq : e' = e := authenticate_denied he (hcache ▸ he')
    exact refuses_of_outcome (heq ▸ he')

namespace Sample

theorem named_none (a : RepositoryRow) (ha : a ∈ (Table.empty : Table RepositoryRow.id))
    (b : RepositoryRow) (_ : b ∈ (Table.empty : Table RepositoryRow.id)) (_ : a.owner = b.owner)
    (_ : a.name = b.name) : a = b := by
  cases ha

def noRepositories : Directory := ⟨.empty, named_none, .empty⟩

/-- The directory with one repository. -/
def oneRepository (r : Uuid) (owner name : Text) : Directory :=
  match noRepositories.repositoryAdd owner name r with
  | .error _ => noRepositories
  | .ok (_, dir) => dir

def noCache : ForgejoAuthorizationCache := ⟨.empty, 60, 100⟩

/-- A server with a development token. -/
def installation : Installation :=
  ⟨hashes, maximalCut, fun segments => some segments.flatten, .developmentToken (hashes.sha256 [7])⟩

def silence : Upstream := ⟨0, .unreachable, .unreachable⟩

/-- A caller that sends no credentials. -/
def stranger : Caller := ⟨none, "o".toList, "n".toList⟩

end Sample

/-- A request without credentials is refused alike whether there is a repository or not. -/
theorem denied_inert_stranger :
    Denies Sample.installation
      (.initial 0 (Sample.oneRepository 1 "o".toList "n".toList) Sample.noCache : Service Unit)
      Sample.stranger (.verifyLocks none none) Sample.silence ∧
    ∃ e, Refuses Sample.installation
        (.initial 0 (Sample.oneRepository 1 "o".toList "n".toList) Sample.noCache : Service Unit) ()
        Sample.stranger (.verifyLocks none none) Sample.silence e ∧
      Refuses Sample.installation
        (.initial 0 Sample.noRepositories Sample.noCache : Service Unit) ()
        Sample.stranger (.verifyLocks none none) Sample.silence e := by
  have hdenied : Denies Sample.installation
      (.initial 0 (Sample.oneRepository 1 "o".toList "n".toList) Sample.noCache : Service Unit)
      Sample.stranger (.verifyLocks none none) Sample.silence := by
    intro identity h
    cases h
  obtain ⟨e, he, -, hother⟩ := denied_inert hdenied ()
  refine ⟨hdenied, e, he, hother _ () rfl ?_⟩
  intro identity h
  cases h

end GitLfsDelta
