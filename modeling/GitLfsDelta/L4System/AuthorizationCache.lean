import GitLfsDelta.Core.LTS
import GitLfsDelta.L3Server.AuthorizationKeys

/-!
# Concurrent calls of `authenticate_forgejo`

A call looks its key up under the cache's lock, releases the lock, asks Forgejo for the user
and then for the repository, and takes the lock again to insert what it was granted. Any
number of calls run at once; each keeps what it received and what it inserted, so that a
later hit can be traced to the call that earned it. A call may be dropped wherever it waits.

`HashMap` may be walked in any order: among entries that expire first at the same time the
insertion removes any (`storeEvicting`; `store_evicting` says that `store` is one choice).

* `forgejoIdentity_iff`: the replies that grant an access.
* `authStep_cases`: what a step can do.
* `AuthInv`, `authorizing_inv`: every entry was inserted by a call that earned it.
* `authorization_sound`: hits are backed by replies less than `ttl` old, errors insert
  nothing, and the cache stays within its capacity.
* `authenticateForgejo_run`: the undisturbed call is a run of the system.
-/
namespace GitLfsDelta

/-! ## Replies -/

/-- The first check.
mirrors crates/git-lfs-delta-server/src/lib.rs:1360-1374 -/
def forgejoUser : ForgejoReply Text → Except ApiError Text
  | .unreachable => .error .authentication
  | .response status login =>
    if ¬(200 ≤ status ∧ status < 300) then .error .unauthorized
    else match login with
    | none => .error .authentication
    | some login => .ok login

/-- The second check, of the user who passed the first.
mirrors crates/git-lfs-delta-server/src/lib.rs:1375-1413 -/
def forgejoRepository (authorization : Text) (access : Access) (login : Text) :
    ForgejoReply ForgejoPermissions → Except ApiError Identity
  | .unreachable => .error .authentication
  | .response status permissions =>
    if status = 401 then .error .unauthorized
    else if status = 404 then .error .repositoryNotFound
    else if 400 ≤ status ∧ status < 600 then .error .authentication
    else match permissions with
    | none => .error .authentication
    | some permissions =>
      if permissions.allow access then .ok ⟨authorization, login, permissions.admin⟩
      else .error .accessDenied

/-- A user reply and a repository reply that grant the access to the subject. -/
structure Grants (access : Access) (user : ForgejoReply Text)
    (repository : ForgejoReply ForgejoPermissions) (subject : Text) (administrator : Bool) : Prop where
  user : ∃ status, 200 ≤ status ∧ status < 300 ∧ user = .response status (some subject)
  repository : ∃ status permissions, ¬ (400 ≤ status ∧ status < 600) ∧
    repository = .response status (some permissions) ∧ permissions.allow access = true ∧
    permissions.admin = administrator

theorem forgejoUser_ok {user : ForgejoReply Text} {login : Text} :
    forgejoUser user = .ok login ↔
      ∃ status, 200 ≤ status ∧ status < 300 ∧ user = .response status (some login) := by
  constructor
  · intro h
    unfold forgejoUser at h
    split at h; · cases h
    rename_i status login'
    split at h; · cases h
    rename_i hstatus
    rw [not_not] at hstatus
    split at h; · cases h
    cases h
    exact ⟨status, hstatus.1, hstatus.2, rfl⟩
  · intro h
    obtain ⟨status, hlow, hhigh, rfl⟩ := h
    simp [forgejoUser, hlow, hhigh]

theorem forgejoRepository_ok {authorization login : Text} {access : Access}
    {repository : ForgejoReply ForgejoPermissions} {identity : Identity} :
    forgejoRepository authorization access login repository = .ok identity ↔
      ∃ status permissions, ¬ (400 ≤ status ∧ status < 600) ∧
        repository = .response status (some permissions) ∧ permissions.allow access = true ∧
        identity = ⟨authorization, login, permissions.admin⟩ := by
  constructor
  · intro h
    unfold forgejoRepository at h
    split at h; · cases h
    rename_i status permissions
    split at h; · cases h
    split at h; · cases h
    split at h; · cases h
    rename_i hstatus
    split at h; · cases h
    rename_i permissions
    split at h
    · rename_i hallow
      cases h
      exact ⟨status, permissions, hstatus, rfl, hallow, rfl⟩
    · cases h
  · intro h
    obtain ⟨status, permissions, hstatus, rfl, hallow, rfl⟩ := h
    have hnot : status ≠ 401 ∧ status ≠ 404 := by omega
    simp only [forgejoRepository, if_neg hnot.1, if_neg hnot.2, if_neg hstatus, if_pos hallow]

/-- The two checks are made one after the other. -/
theorem forgejoIdentity_eq (authorization : Text) (access : Access) (user : ForgejoReply Text)
    (repository : ForgejoReply ForgejoPermissions) :
    forgejoIdentity authorization access user repository =
      match forgejoUser user with
      | .error e => .error e
      | .ok login => forgejoRepository authorization access login repository := by
  unfold forgejoIdentity forgejoUser
  cases user with
  | unreachable => rfl
  | response status login =>
    simp only
    split
    · rfl
    cases login <;> rfl

/-! ## The insertion, whatever entry is removed -/

namespace ForgejoAuthorizationCache

variable {cache cache' : ForgejoAuthorizationCache} {entry : CachedForgejoIdentity} {now : Nat}
  {victim : Option (BitVec 256)}

/-- What is left once stale entries are dropped and, if the cache is full, one that expires
first. -/
def evict (cache : ForgejoAuthorizationCache) (now : Nat) (victim : Option (BitVec 256)) :
    Option (Table CachedForgejoIdentity.key) :=
  let kept := cache.entries.deleteWhere fun e => e.expiresAt ≤ now
  if kept.rows.length < cache.capacity then some kept
  else match victim.bind kept.get? with
  | none => if kept.rows = [] then some kept else none
  | some oldest =>
    if kept.rows.all fun e => oldest.expiresAt ≤ e.expiresAt then
      some (kept.deleteWhere fun e => e.key = oldest.key)
    else none

/-- The insertion with a choice of the entry that makes room.
mirrors crates/git-lfs-delta-server/src/lib.rs:1414-1432 -/
def storeEvicting (cache : ForgejoAuthorizationCache) (entry : CachedForgejoIdentity) (now : Nat)
    (victim : Option (BitVec 256)) : Option ForgejoAuthorizationCache :=
  (cache.evict now victim).map fun room =>
    { cache with entries := (room.deleteWhere fun e => e.key = entry.key).insert entry }

theorem evict_some {room : Table CachedForgejoIdentity.key} (h : cache.evict now victim = some room) :
    (∀ e ∈ room, e ∈ cache.entries) ∧
      (1 ≤ cache.capacity → cache.entries.rows.length ≤ cache.capacity →
        room.rows.length < cache.capacity) := by
  have hkept : ∀ e ∈ cache.entries.deleteWhere fun e => e.expiresAt ≤ now, e ∈ cache.entries :=
    fun e he => (Table.mem_deleteWhere.1 he).1
  have hlength : (cache.entries.deleteWhere fun e => e.expiresAt ≤ now).rows.length ≤
      cache.entries.rows.length := List.length_filter_le _ _
  unfold evict at h
  simp only at h
  split at h
  · rename_i hroom
    cases h
    exact ⟨hkept, fun _ _ => hroom⟩
  split at h
  · split at h
    · rename_i hempty
      cases h
      exact ⟨hkept, fun hcap _ => by rw [hempty]; exact hcap⟩
    · cases h
  · rename_i oldest hold
    split at h
    · cases h
      refine ⟨fun e he => hkept e (Table.mem_deleteWhere.1 he).1, fun _ hfull => ?_⟩
      obtain ⟨k, -, hget⟩ := Option.bind_eq_some_iff.1 hold
      have hmem := (Table.get?_some.1 hget).1
      refine Nat.lt_of_lt_of_le ?_ (Nat.le_trans hlength hfull)
      refine List.length_filter_lt_length_iff_exists.2 ⟨oldest, Table.mem_rows.2 hmem, ?_⟩
      simp
    · cases h

theorem storeEvicting_some (h : cache.storeEvicting entry now victim = some cache') :
    cache'.ttl = cache.ttl ∧ cache'.capacity = cache.capacity ∧
      (∀ e ∈ cache'.entries, e = entry ∨ e ∈ cache.entries) ∧
      (1 ≤ cache.capacity → cache.entries.rows.length ≤ cache.capacity →
        cache'.entries.rows.length ≤ cache.capacity) := by
  unfold storeEvicting at h
  obtain ⟨room, hroom, rfl⟩ := Option.map_eq_some_iff.1 h
  obtain ⟨hsub, hlength⟩ := evict_some hroom
  refine ⟨rfl, rfl, fun e he => ?_, fun hcap hfull => ?_⟩
  · rcases Table.mem_insert.1 he with he | ⟨rfl, -⟩
    · exact .inr (hsub e (Table.mem_deleteWhere.1 he).1)
    · exact .inl rfl
  · have hnew := hlength hcap hfull
    have hdelete : (room.deleteWhere fun e => e.key = entry.key).rows.length ≤ room.rows.length :=
      List.length_filter_le _ _
    have hinsert : ((room.deleteWhere fun e => e.key = entry.key).insert entry).rows.length ≤
        (room.deleteWhere fun e => e.key = entry.key).rows.length + 1 := by
      rw [Table.rows_insert_of_none]
      · simp
      · rw [Table.get?_none]
        intro e he
        simpa using (Table.mem_deleteWhere.1 he).2
    exact Nat.le_trans hinsert (by omega)

end ForgejoAuthorizationCache

/-! ## The calls -/

def AuthRequest.key (H : Hashes) (x : AuthRequest) : BitVec 256 := (H.sha256 x.keyInput).digest

/-- Where a call stands. -/
inductive AuthPhase
  | lookup
  | awaitUser
  | awaitRepository (login : Text)
  | insert (identity : Identity)
  | returned (at_ : Nat) (result : Except ApiError Identity)
  | dropped
  deriving DecidableEq

/-- A call, with a record of what it received and of what it inserted, and when. -/
structure AuthCall where
  request : AuthRequest
  phase : AuthPhase
  user : Option (ForgejoReply Text)
  repository : Option (ForgejoReply ForgejoPermissions)
  inserted : Option (Nat × CachedForgejoIdentity)
  deriving DecidableEq

structure AuthState (ι : Type) where
  cache : ForgejoAuthorizationCache
  clock : Nat
  calls : ι → Option AuthCall

inductive AuthLabel (ι : Type)
  | advance (δ : Nat)
  | call (c : ι) (x : AuthRequest)
  | lookup (c : ι)
  | user (c : ι) (reply : ForgejoReply Text)
  | repository (c : ι) (reply : ForgejoReply ForgejoPermissions)
  | insert (c : ι) (victim : Option (BitVec 256))
  | drop (c : ι)

section System

variable {ι : Type} [DecidableEq ι]

def AuthState.put (s : AuthState ι) (c : ι) (call : AuthCall) : AuthState ι :=
  { s with calls := Function.update s.calls c (some call) }

/-- The lookup of a call.
mirrors crates/git-lfs-delta-server/src/lib.rs:1326-1344 -/
def AuthState.lookUp (H : Hashes) (s : AuthState ι) (c : ι) (call : AuthCall) : AuthState ι :=
  match s.cache.lookup (call.request.key H) s.clock with
  | (some cached, cache) =>
    let identity := ⟨call.request.authorization, cached.subject, cached.administrator⟩
    { s with cache := cache }.put c { call with phase := .returned s.clock (.ok identity) }
  | (none, cache) => { s with cache := cache }.put c { call with phase := .awaitUser }

/-- Where the user reply leaves a call. -/
def AuthPhase.afterUser (now : Nat) (reply : ForgejoReply Text) : AuthPhase :=
  match forgejoUser reply with
  | .error e => .returned now (.error e)
  | .ok login => .awaitRepository login

/-- Where the repository reply leaves a call. -/
def AuthPhase.afterRepository (now : Nat) (x : AuthRequest) (login : Text)
    (reply : ForgejoReply ForgejoPermissions) : AuthPhase :=
  match forgejoRepository x.authorization x.access login reply with
  | .error e => .returned now (.error e)
  | .ok identity => .insert identity

/-- mirrors crates/git-lfs-delta-server/src/lib.rs:1306-1434, one step at a time. -/
def authStep (H : Hashes) (s : AuthState ι) : AuthLabel ι → Option (AuthState ι)
  | .advance δ => some { s with clock := s.clock + δ }
  | .call c x => if s.calls c = none then some (s.put c ⟨x, .lookup, none, none, none⟩) else none
  | .lookup c =>
    match s.calls c with
    | some call => if call.phase = .lookup then some (s.lookUp H c call) else none
    | none => none
  | .user c reply =>
    match s.calls c with
    | some call =>
      if call.phase = .awaitUser then
        some (s.put c { call with user := some reply, phase := .afterUser s.clock reply })
      else none
    | none => none
  | .repository c reply =>
    match s.calls c with
    | some call =>
      match call.phase with
      | .awaitRepository login =>
        some (s.put c { call with
          repository := some reply
          phase := .afterRepository s.clock call.request login reply })
      | _ => none
    | none => none
  | .insert c victim =>
    match s.calls c with
    | some call =>
      match call.phase with
      | .insert identity =>
        let entry : CachedForgejoIdentity :=
          ⟨call.request.key H, identity.subject, identity.administrator, s.clock + s.cache.ttl⟩
        (s.cache.storeEvicting entry s.clock victim).map fun cache =>
          { s with cache := cache }.put c { call with
            inserted := some (s.clock, entry)
            phase := .returned s.clock (.ok identity) }
      | _ => none
    | none => none
  | .drop c =>
    match s.calls c with
    | some call =>
      match call.phase with
      | .returned .. => none
      | _ => some (s.put c { call with phase := .dropped })
    | none => none

/-- Any number of calls on a cache that is empty at the start. -/
def authorizing (H : Hashes) (ttl capacity : Nat) : LTS (AuthState ι) (AuthLabel ι) :=
  LTS.ofFn (fun s => s.cache = ⟨.empty, ttl, capacity⟩ ∧ ∀ c, s.calls c = none) (authStep H)

/-! ## What a step can do -/

variable {H : Hashes} {s s' : AuthState ι} {l : AuthLabel ι}

/-- The replies a call received grant it the identity. -/
def AuthCall.Earned (call : AuthCall) (identity : Identity) : Prop :=
  ∃ user repository, call.user = some user ∧ call.repository = some repository ∧
    Grants call.request.access user repository identity.subject identity.administrator

/-- A decision for the call's key that a call inserted within `ttl` before `t`, with the replies that
earned it. -/
def AuthState.Backed (H : Hashes) (s : AuthState ι) (ttl : Nat) (call : AuthCall) (t : Nat)
    (identity : Identity) : Prop :=
  ∃ c' call' t' e granted, s.calls c' = some call' ∧ call'.inserted = some (t', e) ∧
    t' ≤ t ∧ t < t' + ttl ∧ e.key = call.request.key H ∧ call'.request.key H = call.request.key H ∧
    call'.Earned granted ∧ granted.subject = identity.subject ∧
    granted.administrator = identity.administrator

/-- One call's own step: what it read off the cache, or was told, or inserted. -/
inductive CallStep (H : Hashes) (s s' : AuthState ι) : AuthCall → AuthCall → Prop
  | hit {call cached identity} : call.phase = .lookup → cached ∈ s.cache.entries →
      cached.key = call.request.key H → s.clock < cached.expiresAt →
      identity = ⟨call.request.authorization, cached.subject, cached.administrator⟩ →
      s'.cache = s.cache →
      CallStep H s s' call { call with phase := .returned s.clock (.ok identity) }
  | miss {call} : call.phase = .lookup → s'.cache.ttl = s.cache.ttl →
      s'.cache.capacity = s.cache.capacity → s'.cache.entries.rows.Sublist s.cache.entries.rows →
      CallStep H s s' call { call with phase := .awaitUser }
  | noUser {call reply e} : call.phase = .awaitUser → s'.cache = s.cache →
      CallStep H s s' call { call with
        user := some reply, phase := .returned s.clock (.error e) }
  | user {call reply login} : call.phase = .awaitUser → forgejoUser reply = .ok login →
      s'.cache = s.cache →
      CallStep H s s' call { call with user := some reply, phase := .awaitRepository login }
  | refused {call login reply e} : call.phase = .awaitRepository login → s'.cache = s.cache →
      CallStep H s s' call { call with
        repository := some reply, phase := .returned s.clock (.error e) }
  | granted {call login reply identity} : call.phase = .awaitRepository login →
      forgejoRepository call.request.authorization call.request.access login reply = .ok identity →
      s'.cache = s.cache →
      CallStep H s s' call { call with repository := some reply, phase := .insert identity }
  | insert {call identity entry victim} : call.phase = .insert identity →
      entry = ⟨call.request.key H, identity.subject, identity.administrator, s.clock + s.cache.ttl⟩ →
      s.cache.storeEvicting entry s.clock victim = some s'.cache →
      CallStep H s s' call { call with
        inserted := some (s.clock, entry), phase := .returned s.clock (.ok identity) }
  | drop {call} : (∀ t result, call.phase ≠ .returned t result) → s'.cache = s.cache →
      CallStep H s s' call { call with phase := .dropped }

theorem lookup_none {cache cache' : ForgejoAuthorizationCache} {key : BitVec 256} {now : Nat}
    (h : cache.lookup key now = (none, cache')) :
    cache'.ttl = cache.ttl ∧ cache'.capacity = cache.capacity ∧
      cache'.entries.rows.Sublist cache.entries.rows := by
  unfold ForgejoAuthorizationCache.lookup at h
  split at h
  · cases h
    exact ⟨rfl, rfl, .refl _⟩
  split at h
  · cases h
  · cases h
    exact ⟨rfl, rfl, List.filter_sublist⟩

theorem lookup_some_cache {cache cache' : ForgejoAuthorizationCache} {key : BitVec 256} {now : Nat}
    {e : CachedForgejoIdentity} (h : cache.lookup key now = (some e, cache')) : cache' = cache := by
  unfold ForgejoAuthorizationCache.lookup at h
  split at h; · cases h
  split at h
  · cases h; rfl
  · cases h

/-- The clock advances, a new call begins, or one call takes a step of its own. -/
theorem authStep_cases (h : authStep H s l = some s') :
    (s'.cache = s.cache ∧ s.clock ≤ s'.clock ∧ s'.calls = s.calls) ∨
    (s'.cache = s.cache ∧ s'.clock = s.clock ∧ ∃ c x, s.calls c = none ∧
      s'.calls = Function.update s.calls c (some ⟨x, .lookup, none, none, none⟩)) ∨
    ∃ c call call', s.calls c = some call ∧ s'.clock = s.clock ∧
      s'.calls = Function.update s.calls c (some call') ∧ CallStep H s s' call call' := by
  cases l with
  | advance δ =>
    simp only [authStep, Option.some.injEq] at h
    subst h
    exact .inl ⟨rfl, Nat.le_add_right _ _, rfl⟩
  | call c x =>
    simp only [authStep] at h
    split at h
    · rename_i hnone
      cases h
      exact .inr (.inl ⟨rfl, rfl, c, x, hnone, rfl⟩)
    · cases h
  | lookup c =>
    simp only [authStep] at h
    split at h
    · rename_i call hcall
      split at h
      · rename_i hphase
        cases h
        right; right
        unfold AuthState.lookUp
        split
        · rename_i cached cache hlookup
          obtain ⟨hmem, hkey, hfresh⟩ := lookup_some hlookup
          exact ⟨c, call, _, hcall, rfl, rfl, .hit hphase hmem hkey hfresh rfl
            (lookup_some_cache hlookup)⟩
        · rename_i cache hlookup
          obtain ⟨httl, hcapacity, hsub⟩ := lookup_none hlookup
          exact ⟨c, call, _, hcall, rfl, rfl, .miss hphase httl hcapacity hsub⟩
      · cases h
    · cases h
  | user c reply =>
    simp only [authStep] at h
    split at h
    · rename_i call hcall
      split at h
      · rename_i hphase
        cases h
        refine .inr (.inr ⟨c, call, _, hcall, rfl, rfl, ?_⟩)
        unfold AuthPhase.afterUser
        split
        · exact .noUser hphase rfl
        · rename_i login hlogin
          exact .user hphase hlogin rfl
      · cases h
    · cases h
  | repository c reply =>
    simp only [authStep] at h
    split at h
    · rename_i call hcall
      split at h
      · rename_i login hphase
        cases h
        refine .inr (.inr ⟨c, call, _, hcall, rfl, rfl, ?_⟩)
        unfold AuthPhase.afterRepository
        split
        · exact .refused hphase rfl
        · rename_i identity hidentity
          exact .granted hphase hidentity rfl
      · cases h
    · cases h
  | insert c victim =>
    simp only [authStep] at h
    split at h
    · rename_i call hcall
      split at h
      · rename_i identity hphase
        obtain ⟨cache, hstore, rfl⟩ := Option.map_eq_some_iff.1 h
        exact .inr (.inr ⟨c, call, _, hcall, rfl, rfl, .insert hphase rfl hstore⟩)
      · cases h
    · cases h
  | drop c =>
    simp only [authStep] at h
    split at h
    · rename_i call hcall
      split at h
      · cases h
      · rename_i hphase
        cases h
        exact .inr (.inr ⟨c, call, _, hcall, rfl, rfl, .drop (fun t result heq => hphase t result heq) rfl⟩)
    · cases h

/-! ## The invariant -/

/-- What a call's phase says of its record. -/
def AuthState.Sound (H : Hashes) (ttl : Nat) (s : AuthState ι) (call : AuthCall) : Prop :=
  match call.phase with
  | .awaitRepository login => call.inserted = none ∧ ∃ user, call.user = some user ∧
      forgejoUser user = .ok login
  | .insert identity => call.inserted = none ∧ call.Earned identity
  | .returned t (.ok identity) => call.Earned identity ∨ s.Backed H ttl call t identity
  | _ => call.inserted = none

structure AuthInv (H : Hashes) (ttl capacity : Nat) (s : AuthState ι) : Prop where
  settings : s.cache.ttl = ttl ∧ s.cache.capacity = capacity
  bound : s.cache.entries.rows.length ≤ capacity
  sound : ∀ c call, s.calls c = some call → s.Sound H ttl call
  /-- An inserted entry has the call's key and the identity it earned. -/
  recorded : ∀ c call t e, s.calls c = some call → call.inserted = some (t, e) →
    t ≤ s.clock ∧ e.key = call.request.key H ∧ e.expiresAt = t + ttl ∧
      ∃ identity, call.Earned identity ∧ e.subject = identity.subject ∧
        e.administrator = identity.administrator
  entries : ∀ e ∈ s.cache.entries, ∃ c call t, s.calls c = some call ∧ call.inserted = some (t, e)

variable {ttl capacity : Nat} {call call' : AuthCall}

omit [DecidableEq ι] in
/-- A call that takes a step has not inserted anything yet. -/
theorem CallStep.fresh (h : CallStep H s s' call call') (hs : s.Sound H ttl call) :
    call.inserted = none := by
  cases h with
  | hit hphase => simpa [AuthState.Sound, hphase] using hs
  | miss hphase => simpa [AuthState.Sound, hphase] using hs
  | noUser hphase => simpa [AuthState.Sound, hphase] using hs
  | user hphase => simpa [AuthState.Sound, hphase] using hs
  | refused hphase =>
    simp only [AuthState.Sound, hphase] at hs
    exact hs.1
  | granted hphase =>
    simp only [AuthState.Sound, hphase] at hs
    exact hs.1
  | insert hphase =>
    simp only [AuthState.Sound, hphase] at hs
    exact hs.1
  | drop hphase =>
    unfold AuthState.Sound at hs
    split at hs
    · exact hs.1
    · exact hs.1
    · rename_i t identity heq
      exact absurd heq (hphase t _)
    · exact hs

omit [DecidableEq ι] in
/-- Evidence stays: a call that has inserted an entry is over. -/
theorem AuthState.Backed.mono {t : Nat} {identity : Identity} (h : s.Backed H ttl call t identity)
    (hkept : ∀ c call e, s.calls c = some call → call.inserted = some e → s'.calls c = some call) :
    s'.Backed H ttl call t identity := by
  obtain ⟨c', call', t', e, granted, hcall, hins, hrest⟩ := h
  exact ⟨c', call', t', e, granted, hkept c' call' _ hcall hins, hins, hrest⟩

omit [DecidableEq ι] in
theorem AuthState.Sound.mono (h : s.Sound H ttl call)
    (hkept : ∀ c call e, s.calls c = some call → call.inserted = some e → s'.calls c = some call) :
    s'.Sound H ttl call := by
  cases hphase : call.phase with
  | returned t result =>
    cases result with
    | error e => simpa [AuthState.Sound, hphase] using h
    | ok identity =>
      simp only [AuthState.Sound, hphase] at h ⊢
      rcases h with h | h
      · exact .inl h
      · exact .inr (h.mono hkept)
  | _ => simpa [AuthState.Sound, hphase] using h

omit [DecidableEq ι] in
/-- The record of a call after its own step. -/
theorem CallStep.sound (h : CallStep H s s' call call') (hi : AuthInv H ttl capacity s)
    (hs : s.Sound H ttl call)
    (hkept : ∀ c call e, s.calls c = some call → call.inserted = some e → s'.calls c = some call) :
    s'.Sound H ttl call' := by
  have hfresh := h.fresh hs
  cases h with
  | @hit cached identity hphase hmem hkey htime hid hcache =>
    -- the entry leads back to the call that inserted it
    obtain ⟨c', call', t', hcall', hins⟩ := hi.entries cached hmem
    obtain ⟨hle, hkey', hexpires, granted, hearned, hsubject, hadmin⟩ :=
      hi.recorded c' call' t' cached hcall' hins
    subst hid
    refine .inr ⟨c', call', t', cached, granted, hkept c' call' _ hcall' hins, hins, hle, ?_, hkey,
      hkey'.symm.trans hkey, hearned, hsubject.symm, hadmin.symm⟩
    rw [← hexpires]
    exact htime
  | miss => exact hfresh
  | noUser => exact hfresh
  | user _ hlogin => exact ⟨hfresh, _, rfl, hlogin⟩
  | refused => exact hfresh
  | granted hphase hgranted =>
    simp only [AuthState.Sound, hphase] at hs
    obtain ⟨-, user, huser, hlogin⟩ := hs
    obtain ⟨status, permissions, hstatus, hreply, hallow, rfl⟩ := forgejoRepository_ok.1 hgranted
    exact ⟨hfresh, user, _, huser, rfl, forgejoUser_ok.1 hlogin, status, permissions, hstatus, hreply,
      hallow, rfl⟩
  | insert hphase =>
    simp only [AuthState.Sound, hphase] at hs
    exact .inl hs.2
  | drop => exact hfresh

omit [DecidableEq ι] in
/-- The cache after a call's own step. -/
theorem CallStep.cache (h : CallStep H s s' call call') :
    s'.cache.ttl = s.cache.ttl ∧ s'.cache.capacity = s.cache.capacity ∧
      (1 ≤ s.cache.capacity → s.cache.entries.rows.length ≤ s.cache.capacity →
        s'.cache.entries.rows.length ≤ s.cache.capacity) ∧
      ∀ e ∈ s'.cache.entries, e ∈ s.cache.entries ∨ call'.inserted = some (s.clock, e) := by
  have hsame : s'.cache = s.cache → _ := fun heq => show s'.cache.ttl = s.cache.ttl ∧
      s'.cache.capacity = s.cache.capacity ∧
      (1 ≤ s.cache.capacity → s.cache.entries.rows.length ≤ s.cache.capacity →
        s'.cache.entries.rows.length ≤ s.cache.capacity) ∧
      ∀ e ∈ s'.cache.entries, e ∈ s.cache.entries ∨ call'.inserted = some (s.clock, e) by
    rw [heq]
    exact ⟨rfl, rfl, fun _ h => h, fun e he => .inl he⟩
  cases h with
  | hit _ _ _ _ _ heq => exact hsame heq
  | miss _ httl hcapacity hsub =>
    refine ⟨httl, hcapacity, fun _ hfull => Nat.le_trans hsub.length_le hfull, fun e he => .inl ?_⟩
    exact Table.mem_rows.1 (hsub.subset (Table.mem_rows.2 he))
  | noUser _ heq => exact hsame heq
  | user _ _ heq => exact hsame heq
  | refused _ heq => exact hsame heq
  | granted _ _ heq => exact hsame heq
  | insert _ _ hstore =>
    obtain ⟨httl, hcapacity, hmem, hlength⟩ := ForgejoAuthorizationCache.storeEvicting_some hstore
    refine ⟨httl, hcapacity, hlength, fun e he => ?_⟩
    rcases hmem e he with rfl | he
    · exact .inr rfl
    · exact .inl he
  | drop _ heq => exact hsame heq

omit [DecidableEq ι] in
/-- What a call has inserted it has earned. -/
theorem CallStep.recorded (h : CallStep H s s' call call') (hi : AuthInv H ttl capacity s)
    (hs : s.Sound H ttl call) {t : Nat} {e : CachedForgejoIdentity}
    (hins : call'.inserted = some (t, e)) :
    t ≤ s.clock ∧ e.key = call'.request.key H ∧ e.expiresAt = t + ttl ∧
      ∃ identity, call'.Earned identity ∧ e.subject = identity.subject ∧
        e.administrator = identity.administrator := by
  have hfresh := h.fresh hs
  cases h with
  | @insert identity entry victim hphase hentry =>
    cases hins
    subst hentry
    simp only [AuthState.Sound, hphase] at hs
    refine ⟨Nat.le_refl _, rfl, ?_, identity, hs.2, rfl, rfl⟩
    rw [← hi.settings.1]
  | _ =>
    exact absurd (hins.symm.trans hfresh) (by simp)

/-- **Every entry was earned, along every run.** -/
theorem authorizing_inv (H : Hashes) (ttl : Nat) {capacity : Nat} (hcap : 1 ≤ capacity) :
    (authorizing H ttl capacity : LTS (AuthState ι) (AuthLabel ι)).Inductive
      (AuthInv H ttl capacity) where
  init s hs := by
    obtain ⟨hcache, hcalls⟩ := hs
    refine ⟨by rw [hcache]; exact ⟨rfl, rfl⟩, by rw [hcache]; exact Nat.zero_le _, ?_, ?_, ?_⟩
    · intro c call hcall
      rw [hcalls c] at hcall
      cases hcall
    · intro c call t e hcall
      rw [hcalls c] at hcall
      cases hcall
    · intro e he
      rw [hcache] at he
      exact absurd he (Table.not_mem_empty e)
  step s l s' hi hst := by
    rcases authStep_cases hst with ⟨hcache, hclock, hcalls⟩ | ⟨hcache, hclock, c, x, hnone, hcalls⟩ |
      ⟨c, call, call', hcall, hclock, hcalls, hstep⟩
    · -- the clock
      have hkept : ∀ c call e, s.calls c = some call → call.inserted = some e →
          s'.calls c = some call := by
        intro c call e hcall _
        rw [hcalls]
        exact hcall
      refine ⟨hcache ▸ hi.settings, hcache ▸ hi.bound, ?_, ?_, ?_⟩
      · intro c call hcall
        rw [hcalls] at hcall
        exact (hi.sound c call hcall).mono hkept
      · intro c call t e hcall hins
        rw [hcalls] at hcall
        obtain ⟨hle, hrest⟩ := hi.recorded c call t e hcall hins
        exact ⟨Nat.le_trans hle hclock, hrest⟩
      · intro e he
        rw [hcache] at he
        rw [hcalls]
        exact hi.entries e he
    · -- a new call
      have hother : ∀ c' call, s.calls c' = some call → s'.calls c' = some call := by
        intro c' call hcall
        rw [hcalls, Function.update_of_ne]
        · exact hcall
        · rintro rfl
          rw [hnone] at hcall
          cases hcall
      have hold : ∀ c' call, s'.calls c' = some call → s.calls c' = some call ∨
          call = ⟨x, .lookup, none, none, none⟩ := by
        intro c' call hcall
        rw [hcalls] at hcall
        by_cases hc : c' = c
        · subst hc
          rw [Function.update_self] at hcall
          exact .inr (Option.some.inj hcall).symm
        · rw [Function.update_of_ne hc] at hcall
          exact .inl hcall
      refine ⟨hcache ▸ hi.settings, hcache ▸ hi.bound, ?_, ?_, ?_⟩
      · intro c' call hcall
        rcases hold c' call hcall with hcall | rfl
        · exact (hi.sound c' call hcall).mono fun c' call _ hcall _ => hother c' call hcall
        · rfl
      · intro c' call t e hcall hins
        rcases hold c' call hcall with hcall | rfl
        · rw [hclock]
          exact hi.recorded c' call t e hcall hins
        · cases hins
      · intro e he
        rw [hcache] at he
        obtain ⟨c', call, t, hcall, hins⟩ := hi.entries e he
        exact ⟨c', call, t, hother c' call hcall, hins⟩
    · -- a call's own step
      have hs := hi.sound c call hcall
      have hkept : ∀ c' call'' e, s.calls c' = some call'' → call''.inserted = some e →
          s'.calls c' = some call'' := by
        intro c' call'' e hcall' hins
        rw [hcalls, Function.update_of_ne]
        · exact hcall'
        · rintro rfl
          rw [hcall] at hcall'
          cases hcall'
          rw [hstep.fresh hs] at hins
          cases hins
      have hold : ∀ c' call'', s'.calls c' = some call'' → s.calls c' = some call'' ∨ call'' = call' := by
        intro c' call'' hcall'
        rw [hcalls] at hcall'
        by_cases hc : c' = c
        · subst hc
          rw [Function.update_self] at hcall'
          exact .inr (Option.some.inj hcall').symm
        · rw [Function.update_of_ne hc] at hcall'
          exact .inl hcall'
      obtain ⟨httl, hcapacity, hlength, hmem⟩ := hstep.cache
      rw [hi.settings.2] at hlength hcapacity
      refine ⟨⟨httl.trans hi.settings.1, hcapacity⟩, hlength hcap hi.bound, ?_, ?_, ?_⟩
      · intro c' call'' hcall'
        rcases hold c' call'' hcall' with hcall' | rfl
        · exact (hi.sound c' call'' hcall').mono hkept
        · exact hstep.sound hi hs hkept
      · intro c' call'' t e hcall' hins
        rw [hclock]
        rcases hold c' call'' hcall' with hcall' | rfl
        · exact hi.recorded c' call'' t e hcall' hins
        · exact hstep.recorded hi hs hins
      · intro e he
        rcases hmem e he with he | hins
        · obtain ⟨c', call'', t, hcall', hins⟩ := hi.entries e he
          exact ⟨c', call'', t, hkept c' call'' _ hcall' hins, hins⟩
        · exact ⟨c, call', s.clock, by rw [hcalls, Function.update_self], hins⟩

/-! ## Results -/

/-- The key input ends with the access: two requests with one key and different access are a
collision of SHA-256. -/
theorem AuthRequest.access_of_key {x y : AuthRequest} (h : x.key H = y.key H) :
    x.access = y.access ∨ (x.keyInput ≠ y.keyInput ∧ H.sha256 x.keyInput = H.sha256 y.keyInput) := by
  by_cases hinput : x.keyInput = y.keyInput
  · exact .inl (AuthRequest.keyInput_eq_iff.1 hinput).2
  · refine .inr ⟨hinput, ?_⟩
    unfold AuthRequest.key at h
    cases hx : H.sha256 x.keyInput
    cases hy : H.sha256 y.keyInput
    rw [hx, hy] at h
    exact congrArg _ h

/-- **The authorization cache is sound and bounded**, for any number of concurrent calls. A call
that returned an identity was granted the access by its own two replies, or found under its
key a decision a call had inserted at most `ttl` before, after replies that granted the
access of its own request: the same access, unless the two requests are a collision of
SHA-256. Subject and administrator flag are those of the replies. A call that returned an
error has inserted nothing, and there are never more entries than the capacity. -/
theorem authorization_sound {capacity : Nat} (hcap : 1 ≤ capacity) {s : AuthState ι}
    (hr : (authorizing H ttl capacity).Reachable s) :
    (∀ c call t identity, s.calls c = some call → call.phase = .returned t (.ok identity) →
      call.Earned identity ∨
      ∃ c' call' t' e granted, s.calls c' = some call' ∧ call'.inserted = some (t', e) ∧
        t' ≤ t ∧ t < t' + ttl ∧ e.key = call.request.key H ∧ call'.Earned granted ∧
        granted.subject = identity.subject ∧ granted.administrator = identity.administrator ∧
        (call'.request.access = call.request.access ∨
          (call'.request.keyInput ≠ call.request.keyInput ∧
            H.sha256 call'.request.keyInput = H.sha256 call.request.keyInput))) ∧
    (∀ c call t e, s.calls c = some call → call.phase = .returned t (.error e) →
      call.inserted = none) ∧
    s.cache.entries.rows.length ≤ capacity := by
  have hi := (authorizing_inv H ttl hcap).reachable hr
  refine ⟨fun c call t identity hcall hphase => ?_, fun c call t e hcall hphase => ?_, hi.bound⟩
  · have hs := hi.sound c call hcall
    simp only [AuthState.Sound, hphase] at hs
    rcases hs with hearned | ⟨c', call', t', e, granted, hcall', hins, hle, hlt, hkey, hsame, hearned, hid⟩
    · exact .inl hearned
    · exact .inr ⟨c', call', t', e, granted, hcall', hins, hle, hlt, hkey, hearned, hid.1, hid.2,
        AuthRequest.access_of_key hsame⟩
  · have hs := hi.sound c call hcall
    simpa only [AuthState.Sound, hphase] using hs

end System

namespace Sample

/-- SHA-256 on the key input of the sample. -/
def keyHashes : Hashes where
  blake3 _ := ⟨0⟩
  sha256 b :=
    if b = [0x74, 0, 0x6f, 0, 0x6e, 0] then ⟨0xd378cacfa9f9add91cdf724a88a474ffa6b863594c73a38ea144b283ba7d8eea⟩
    else ⟨0⟩

/-- What the first of two calls earns. -/
def granted : Identity := ⟨"t".toList, "alice".toList, false⟩

/-- One call asks Forgejo and inserts the decision, another one finds it three ticks later. -/
def hitAfterMiss : List (AuthLabel Bool) :=
  [.call false plainRequest, .call true plainRequest, .lookup false,
    .user false (.response 200 (some "alice".toList)),
    .repository false (.response 200 (some ⟨true, false, false⟩)), .insert false none, .advance 3,
    .lookup true]

end Sample

open Sample in
/-- The second call returns what the first one earned. -/
theorem authorization_sound_hit : ∃ s : AuthState Bool, (authorizing keyHashes 10 1).Reachable s ∧
    (∃ call, s.calls true = some call ∧ call.phase = .returned 3 (.ok granted) ∧ ¬ call.Earned granted) ∧
    ∃ c' call' t' e, s.calls c' = some call' ∧ call'.inserted = some (t', e) ∧ t' ≤ 3 ∧ 3 < t' + 10 := by
  obtain ⟨s, hs, hcall⟩ : ∃ s : AuthState Bool, (authorizing keyHashes 10 1).Reachable s ∧
      s.calls true = some ⟨plainRequest, .returned 3 (.ok granted), none, none, none⟩ :=
    LTS.exists_reachable_of_exec hitAfterMiss (s := ⟨⟨.empty, 10, 1⟩, 0, fun _ => none⟩)
      ⟨rfl, fun _ => rfl⟩ (by decide +kernel)
  have hnot : ¬ (⟨plainRequest, .returned 3 (.ok granted), none, none, none⟩ : AuthCall).Earned granted := by
    intro h
    obtain ⟨user, repository, huser, -⟩ := h
    cases huser
  refine ⟨s, hs, ⟨_, hcall, rfl, hnot⟩, ?_⟩
  rcases (authorization_sound (by decide) hs).1 true _ 3 granted hcall rfl with h |
    ⟨c', call', t', e, _, hcall', hins, hle, hlt, -⟩
  · exact absurd h hnot
  · exact ⟨c', call', t', e, hcall', hins, hle, hlt⟩

section System

variable {ι : Type} [DecidableEq ι] {H : Hashes} {s : AuthState ι} {ttl capacity : Nat} {call : AuthCall}

/-! ## The undisturbed call -/

theorem earliest_some {es : List CachedForgejoIdentity} : ∀ {oldest : CachedForgejoIdentity},
    earliest es = some oldest → oldest ∈ es ∧ ∀ e ∈ es, oldest.expiresAt ≤ e.expiresAt := by
  induction es with
  | nil => intro oldest h; cases h
  | cons e es ih =>
    intro oldest h
    unfold earliest at h
    split at h
    · rename_i hnone
      cases h
      cases es with
      | nil => simp
      | cons e' es =>
        unfold earliest at hnone
        split at hnone
        · cases hnone
        · split at hnone <;> cases hnone
    · rename_i e' hsome
      obtain ⟨hmem, hmin⟩ := ih hsome
      split at h
      · rename_i hle
        cases h
        refine ⟨List.mem_cons_self, List.forall_mem_cons.2 ⟨Nat.le_refl _, fun a ha => ?_⟩⟩
        exact Nat.le_trans hle (hmin a ha)
      · rename_i hle
        cases h
        exact ⟨List.mem_cons_of_mem _ hmem, List.forall_mem_cons.2 ⟨by omega, hmin⟩⟩

theorem earliest_none {es : List CachedForgejoIdentity} (h : earliest es = none) : es = [] := by
  cases es with
  | nil => rfl
  | cons e es =>
    unfold earliest at h
    split at h
    · cases h
    · split at h <;> cases h

/-- `store` removes one of the entries it may remove. -/
theorem store_evicting (cache : ForgejoAuthorizationCache) (entry : CachedForgejoIdentity) (now : Nat) :
    ∃ victim, cache.storeEvicting entry now victim = some (cache.store entry now) := by
  unfold ForgejoAuthorizationCache.storeEvicting ForgejoAuthorizationCache.evict
    ForgejoAuthorizationCache.store
  simp only
  split
  · exact ⟨none, rfl⟩
  cases hearliest : earliest (cache.entries.deleteWhere fun e => e.expiresAt ≤ now).rows with
  | none =>
    refine ⟨none, ?_⟩
    simp only [Option.bind_none, if_pos (earliest_none hearliest), Option.map_some]
  | some oldest =>
    obtain ⟨hmem, hmin⟩ := earliest_some hearliest
    refine ⟨some oldest.key, ?_⟩
    have hget : (cache.entries.deleteWhere fun e => e.expiresAt ≤ now).get? oldest.key = some oldest :=
      Table.get?_some.2 ⟨Table.mem_rows.1 hmem, rfl⟩
    have hall : (cache.entries.deleteWhere fun e => e.expiresAt ≤ now).rows.all
        (fun e => oldest.expiresAt ≤ e.expiresAt) = true := by
      simpa using hmin
    simp only [Option.bind_some, hget, if_pos hall, Option.map_some]

@[simp] theorem AuthState.put_calls (s : AuthState ι) (c : ι) (call : AuthCall) :
    (s.put c call).calls c = some call := by
  simp [AuthState.put]

@[simp] theorem AuthState.put_clock (s : AuthState ι) (c : ι) (call : AuthCall) :
    (s.put c call).clock = s.clock := rfl

@[simp] theorem AuthState.put_cache (s : AuthState ι) (c : ι) (call : AuthCall) :
    (s.put c call).cache = s.cache := rfl

/-- The insertion of a call, with the entry `store` removes. -/
theorem insert_run {c : ι} (hcall : s.calls c = some call) {identity : Identity}
    (hphase : call.phase = .insert identity) :
    ∃ l s' call', authStep H s l = some s' ∧ s'.calls c = some call' ∧
      call'.phase = .returned s.clock (.ok identity) ∧
      s'.cache = s.cache.store ⟨call.request.key H, identity.subject, identity.administrator,
        s.clock + s.cache.ttl⟩ s.clock := by
  obtain ⟨victim, hvictim⟩ := store_evicting s.cache
    ⟨call.request.key H, identity.subject, identity.administrator, s.clock + s.cache.ttl⟩ s.clock
  generalize hentry : (⟨call.request.key H, identity.subject, identity.administrator,
    s.clock + s.cache.ttl⟩ : CachedForgejoIdentity) = entry at hvictim
  have hstep : authStep H s (.insert c victim) =
      some ({ s with cache := s.cache.store entry s.clock }.put c { call with
        inserted := some (s.clock, entry), phase := .returned s.clock (.ok identity) }) := by
    simp only [authStep, hcall, hphase, hentry, hvictim, Option.map_some]
  exact ⟨_, _, _, hstep, AuthState.put_calls _ _ _, rfl, rfl⟩

/-- The two replies to a call that missed, and its insertion. -/
theorem replies_run (ttl capacity : Nat) {c : ι} (hcall : s.calls c = some call) (hphase : call.phase = .awaitUser)
    (user : ForgejoReply Text) (repository : ForgejoReply ForgejoPermissions) :
    ∃ ls s' call' result, (authorizing H ttl capacity).Run s ls s' ∧ s'.calls c = some call' ∧
      call'.phase = .returned s.clock result ∧
      result = forgejoIdentity call.request.authorization call.request.access user repository ∧
      s'.cache = match result with
        | .error _ => s.cache
        | .ok identity => s.cache.store ⟨call.request.key H, identity.subject,
            identity.administrator, s.clock + s.cache.ttl⟩ s.clock := by
  have huser : authStep H s (.user c user) = some (s.put c { call with
      user := some user, phase := .afterUser s.clock user }) := by
    simp [authStep, hcall, hphase]
  simp only [forgejoIdentity_eq]
  cases hu : forgejoUser user with
  | error e =>
    refine ⟨_, _, _, .error e, .cons huser (.nil _), AuthState.put_calls _ _ _, ?_, rfl, rfl⟩
    simp only [AuthPhase.afterUser, hu]
  | ok login =>
    generalize hs₁ : s.put c { call with user := some user, phase := .afterUser s.clock user } = s₁ at huser
    have hcall₁ : s₁.calls c = some { call with
        user := some user, phase := .awaitRepository login } := by
      rw [← hs₁, AuthState.put_calls, AuthPhase.afterUser, hu]
    have hclock₁ : s₁.clock = s.clock := by rw [← hs₁]; rfl
    have hcache₁ : s₁.cache = s.cache := by rw [← hs₁]; rfl
    have hrepository : authStep H s₁ (.repository c repository) = some (s₁.put c { call with
        user := some user, repository := some repository,
        phase := .afterRepository s.clock call.request login repository }) := by
      simp [authStep, hcall₁, hclock₁]
    cases hr : forgejoRepository call.request.authorization call.request.access login repository with
    | error e =>
      refine ⟨_, _, _, .error e, .cons huser (.cons hrepository (.nil _)), AuthState.put_calls _ _ _, ?_,
        hr.symm, hcache₁⟩
      simp only [AuthPhase.afterRepository, hr]
    | ok identity =>
      generalize hs₂ : s₁.put c { call with
        user := some user, repository := some repository,
        phase := .afterRepository s.clock call.request login repository } = s₂ at hrepository
      have hcall₂ : s₂.calls c = some { call with
          user := some user, repository := some repository, phase := .insert identity } := by
        rw [← hs₂, AuthState.put_calls, AuthPhase.afterRepository, hr]
      have hclock₂ : s₂.clock = s.clock := by rw [← hs₂]; exact hclock₁
      have hcache₂ : s₂.cache = s.cache := by rw [← hs₂]; exact hcache₁
      obtain ⟨l, s', call', hstep, hcall', hphase', hcache'⟩ := insert_run (H := H) hcall₂ rfl
      refine ⟨_, s', call', .ok identity, .cons huser (.cons hrepository (.cons hstep (.nil _))), hcall',
        hclock₂ ▸ hphase', hr.symm, ?_⟩
      rw [hcache', hclock₂, hcache₂]

/-- **A call no other one disturbs is `authenticate_forgejo`**: the same answer and the same cache. -/
theorem authenticateForgejo_run {c : ι} (hnone : s.calls c = none) (x : AuthRequest)
    (user : ForgejoReply Text) (repository : ForgejoReply ForgejoPermissions) :
    ∃ ls s' call result, (authorizing H ttl capacity).Run s ls s' ∧ s'.calls c = some call ∧
      call.phase = .returned s.clock result ∧
      authenticateForgejo H s.cache ⟨s.clock, user, repository⟩ x.authorization x.owner x.repository
        x.access = (result, s'.cache) := by
  have hcall : authStep H s (.call c x) = some (s.put c ⟨x, .lookup, none, none, none⟩) := by
    simp [authStep, hnone]
  have hlookup : authStep H (s.put c ⟨x, .lookup, none, none, none⟩) (.lookup c) =
      some ((s.put c ⟨x, .lookup, none, none, none⟩).lookUp H c ⟨x, .lookup, none, none, none⟩) := by
    simp [authStep]
  have hkey : (H.sha256 (cacheKeyInput x.authorization x.owner x.repository x.access)).digest = x.key H :=
    rfl
  simp only [authenticateForgejo, hkey]
  rcases hl : s.cache.lookup (x.key H) s.clock with ⟨_ | cached, cache⟩
  · generalize hs₂ : (s.put c ⟨x, .lookup, none, none, none⟩).lookUp H c
      ⟨x, .lookup, none, none, none⟩ = s₂ at hlookup
    simp only [AuthState.lookUp, AuthState.put_cache, AuthState.put_clock, hl] at hs₂
    have hcall₂ : s₂.calls c = some ⟨x, .awaitUser, none, none, none⟩ := by
      rw [← hs₂, AuthState.put_calls]
    have hclock₂ : s₂.clock = s.clock := by rw [← hs₂]; rfl
    have hcache₂ : s₂.cache = cache := by rw [← hs₂]; rfl
    obtain ⟨ls, s', call, result, hrun, hcall', hphase, hresult, hcache⟩ :=
      replies_run (H := H) ttl capacity hcall₂ rfl user repository
    refine ⟨_, s', call, result, .cons hcall (.cons hlookup hrun), hcall', hclock₂ ▸ hphase, ?_⟩
    rw [hcache, hclock₂, hcache₂]
    simp only at hresult
    rw [← hresult]
    cases result <;> rfl
  · simp only [AuthState.lookUp, AuthState.put_cache, AuthState.put_clock, hl] at hlookup
    exact ⟨_, _, _, _, .cons hcall (.cons hlookup (.nil _)), AuthState.put_calls _ _ _, rfl, rfl⟩

end System
end GitLfsDelta
