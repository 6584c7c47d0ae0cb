import GitLfsDelta.L3Server.Reconcile
import GitLfsDelta.L4System.Locking
import GitLfsDelta.L4System.Readers
import GitLfsDelta.L4System.Server

/-!
# The HTTP endpoints (`git-lfs-delta-server/src/lib.rs`)

Every repository-scoped handler up to its first query of its own: the checks it makes, the
call of `authenticate` and the repository lookup, in the source's order. A handler that gets
that far is `Admission`, the request the rest of the server carries out.

`authenticate` may change its cache also when it refuses, so a handler is a computation that
may fail over the cache. The body limit and the extractors of the framework come before all
of this and read no state.

`Call.needed` is the access level an operation needs. `handle_denied`: a call without it is
answered from the call and the outcome of `authenticate` alone. `authenticate_denied`: that
outcome does not depend on the tables either. `handle_same`: what becomes of a call depends on
the call, that outcome and the repository lookup; `handle_repository`: an admitted call is for
the repository found.
-/
namespace GitLfsDelta

/-! ## Paths and object ids -/

/-- `{:?}` of a character below `U+0100`. -/
def debugChar (c : Char) : String :=
  if c = '\x00' then "\\0" else if c = '\t' then "\\t" else if c = '\r' then "\\r"
  else if c = '\n' then "\\n" else if c = '\x27' then "\\'" else if c = '\\' then "\\\\"
  else if c.toNat < 0x20 ∨ (0x7f ≤ c.toNat ∧ c.toNat ≤ 0xa0) ∨ c.toNat = 0xad then
    "\\u\x7b" ++ String.ofList (Nat.toDigits 16 c.toNat) ++ "\x7d"
  else c.toString

/-- The text of `hex::FromHexError::InvalidHexCharacter` for the first byte that is no digit,
which is `position` bytes from the beginning. -/
def hexError (position : Nat) : Bytes → String
  | [] => ""
  | b :: bs =>
    let c := Char.ofNat b.toNat
    if (hexValue c).isSome then hexError (position + 1) bs
    else "Invalid character '" ++ debugChar c ++ "' at position " ++ toString position

/-- mirrors crates/git-lfs-delta-core/src/digest.rs:82-89 -/
def digestError (t : Text) : String :=
  if (encode t).length ≠ 64 then
    s!"digest must contain 64 hexadecimal characters, received {(encode t).length}"
  else "digest is not valid hexadecimal: " ++ hexError 0 (encode t)

/-- `parse_oid`.
mirrors crates/git-lfs-delta-server/src/lib.rs:1538-1541 -/
def pathOid (t : Text) : Except ApiError ObjectOid :=
  match parseOid t with
  | none => .error ⟨400, digestError t⟩
  | some oid => .ok oid

/-! ## Calls -/

/-- What every endpoint is called with: the `Authorization` header, if it is a text, and the
two path segments. -/
structure Caller where
  header : Option Text
  owner : Text
  repository : Text
  deriving DecidableEq, Repr

/-- The endpoints, each with its own parameters. `contentLength` is the header, if it is a
number; `newId` is what `Uuid::new_v4()` will return.
mirrors crates/git-lfs-delta-server/src/lib.rs:450-493 -/
inductive Call
  | batch (request : BatchRequest)
  | uploadBasic (oid : Text) (contentLength : Option Nat) (body : Bytes) (newId : Uuid)
  | downloadBasic (oid : Text)
  | beginCdc (oid : Text) (protocolVersion : Nat) (m : ObjectManifest) (newId : Uuid)
  | uploadCdcChunk (oid : Text) (u : Uuid) (index : Nat) (bytes : Bytes)
  | finalizeCdc (oid : Text) (u : Uuid)
  | downloadCdcManifest (oid : Text)
  | downloadCdcChunk (oid : Text) (index : Nat)
  | createLock (path : Text)
  | listLocks (query : LockListQuery)
  | verifyLocks (cursor : Option Uuid) (limit : Option Nat)
  | unlock (lockId : Uuid) (force : Bool)
  deriving DecidableEq, Repr

/-- What an admitted call goes on with. -/
inductive Admission
  | transfer (request : Request)
  | read (r : Uuid) (request : ReadRequest)
  | lock (r : Uuid) (identity : Identity) (request : LockRequest)
  deriving DecidableEq, Repr

def Admission.repository : Admission → Uuid
  | .transfer request => request.repository
  | .read r _ | .lock r _ _ => r

/-! ## Handlers -/

abbrev Handler := ExceptT ApiError (StateM ForgejoAuthorizationCache)

section Handlers

variable (H : Hashes) (mode : Authentication) (dir : Directory) (up : Upstream) (caller : Caller)

def Caller.authenticate (access : Access) : Handler Identity := fun cache =>
  GitLfsDelta.authenticate H mode dir cache up caller.header caller.owner caller.repository access

def Caller.repositoryId : Except ApiError Uuid := dir.repositoryId caller.owner caller.repository

/-- mirrors crates/git-lfs-delta-server/src/lib.rs:569-577 -/
def handleCreateLock (path : Text) : Handler Admission := do
  let identity ← caller.authenticate H mode dir up .write
  validateLockPath path
  let r ← caller.repositoryId dir
  return .lock r identity (.create path)

/-- mirrors crates/git-lfs-delta-server/src/lib.rs:619-626 -/
def handleListLocks (query : LockListQuery) : Handler Admission := do
  let identity ← caller.authenticate H mode dir up .read
  let r ← caller.repositoryId dir
  return .lock r identity (.list query)

/-- mirrors crates/git-lfs-delta-server/src/lib.rs:685-692 -/
def handleVerifyLocks (cursor : Option Uuid) (limit : Option Nat) : Handler Admission := do
  let identity ← caller.authenticate H mode dir up .write
  let r ← caller.repositoryId dir
  return .lock r identity (.verify cursor limit)

/-- mirrors crates/git-lfs-delta-server/src/lib.rs:712-719 -/
def handleUnlock (lockId : Uuid) (force : Bool) : Handler Admission := do
  let identity ← caller.authenticate H mode dir up .write
  let r ← caller.repositoryId dir
  return .lock r identity (.unlock lockId force)

/-- mirrors crates/git-lfs-delta-server/src/lib.rs:772-791 -/
def handleUploadBasic (oid : Text) (contentLength : Option Nat) (body : Bytes) (newId : Uuid) :
    Handler Admission := do
  let _ ← caller.authenticate H mode dir up .write
  let oid ← pathOid oid
  let r ← caller.repositoryId dir
  if contentLength.any (maxObjectSize < ·) then
    throw ⟨413, "object exceeds the 100 GiB production limit"⟩
  return .transfer (.uploadBasic r oid body newId)

/-- mirrors crates/git-lfs-delta-server/src/lib.rs:877-890 -/
def handleDownloadBasic (oid : Text) : Handler Admission := do
  let _ ← caller.authenticate H mode dir up .read
  let oid ← pathOid oid
  let r ← caller.repositoryId dir
  return .read r (.downloadBasic oid)

/-- The checks `begin_cdc` makes before the lookup.
mirrors crates/git-lfs-delta-server/src/lib.rs:944-960 -/
def checkBegin (oid : ObjectOid) (protocolVersion : Nat) (m : ObjectManifest) :
    Except ApiError Unit :=
  if protocolVersion ≠ 1 then .error ⟨400, "unsupported CDC protocol version"⟩
  else match m.validate with
  | .error e => .error ⟨422, e.text⟩
  | .ok () =>
    if m.objectOid ≠ oid then
      .error ⟨422, "manifest OID does not match the requested object OID"⟩
    else .ok ()

/-- mirrors crates/git-lfs-delta-server/src/lib.rs:938-961 -/
def handleBeginCdc (oid : Text) (protocolVersion : Nat) (m : ObjectManifest) (newId : Uuid) :
    Handler Admission := do
  let _ ← caller.authenticate H mode dir up .write
  let oid ← pathOid oid
  checkBegin oid protocolVersion m
  let r ← caller.repositoryId dir
  return .transfer (.beginCdc r oid protocolVersion m newId)

/-- mirrors crates/git-lfs-delta-server/src/lib.rs:1034-1046 -/
def handleUploadCdcChunk (oid : Text) (u : Uuid) (index : Nat) (bytes : Bytes) :
    Handler Admission := do
  let _ ← caller.authenticate H mode dir up .write
  let oid ← pathOid oid
  let r ← caller.repositoryId dir
  return .transfer (.uploadCdcChunk r oid u index bytes)

/-- mirrors crates/git-lfs-delta-server/src/lib.rs:1066-1077 -/
def handleFinalizeCdc (oid : Text) (u : Uuid) : Handler Admission := do
  let _ ← caller.authenticate H mode dir up .write
  let oid ← pathOid oid
  let r ← caller.repositoryId dir
  return .transfer (.finalizeCdc r oid u)

/-- mirrors crates/git-lfs-delta-server/src/lib.rs:1119-1126 -/
def handleDownloadCdcManifest (oid : Text) : Handler Admission := do
  let _ ← caller.authenticate H mode dir up .read
  let oid ← pathOid oid
  let r ← caller.repositoryId dir
  return .read r (.downloadCdcManifest oid)

/-- mirrors crates/git-lfs-delta-server/src/lib.rs:1130-1141 -/
def handleDownloadCdcChunk (oid : Text) (index : Nat) : Handler Admission := do
  let _ ← caller.authenticate H mode dir up .read
  let oid ← pathOid oid
  let r ← caller.repositoryId dir
  return .read r (.downloadCdcChunk oid index)

/-- The limit is checked first; `select_transfer`, which follows the lookup, is the first step
of the admitted request.
mirrors crates/git-lfs-delta-server/src/lib.rs:1159-1184 -/
def handleBatch (request : BatchRequest) : Handler Admission := do
  if 1000 < request.objects.length then
    throw ⟨413, "batch contains more than 1,000 objects"⟩
  let access : Access := match request.operation with
    | .upload => .write
    | .download => .read
  let identity ← caller.authenticate H mode dir up access
  let r ← caller.repositoryId dir
  return .read r (.batch caller.owner caller.repository identity request)

/-- The router. -/
def handle : Call → Handler Admission
  | .batch request => handleBatch H mode dir up caller request
  | .uploadBasic oid length body newId => handleUploadBasic H mode dir up caller oid length body newId
  | .downloadBasic oid => handleDownloadBasic H mode dir up caller oid
  | .beginCdc oid v m newId => handleBeginCdc H mode dir up caller oid v m newId
  | .uploadCdcChunk oid u index bytes => handleUploadCdcChunk H mode dir up caller oid u index bytes
  | .finalizeCdc oid u => handleFinalizeCdc H mode dir up caller oid u
  | .downloadCdcManifest oid => handleDownloadCdcManifest H mode dir up caller oid
  | .downloadCdcChunk oid index => handleDownloadCdcChunk H mode dir up caller oid index
  | .createLock path => handleCreateLock H mode dir up caller path
  | .listLocks query => handleListLocks H mode dir up caller query
  | .verifyLocks cursor limit => handleVerifyLocks H mode dir up caller cursor limit
  | .unlock lockId force => handleUnlock H mode dir up caller lockId force

end Handlers

/-! ## The access an operation needs -/

/-- Uploads, batches of uploads and everything about locks but their listing need write
access. -/
def Call.needed : Call → Access
  | .batch request => match request.operation with | .upload => .write | .download => .read
  | .uploadBasic .. | .beginCdc .. | .uploadCdcChunk .. | .finalizeCdc .. => .write
  | .downloadBasic .. | .downloadCdcManifest .. | .downloadCdcChunk .. => .read
  | .createLock .. | .verifyLocks .. | .unlock .. => .write
  | .listLocks .. => .read

/-- The call is refused before `authenticate`. -/
def Call.oversized : Call → Bool
  | .batch request => 1000 < request.objects.length
  | _ => false

/-- The answer to a call that is not granted its access: `outcome` is what `authenticate`
came to. -/
def Call.denial (call : Call) (outcome : ApiError) : ApiError :=
  if call.oversized then ⟨413, "batch contains more than 1,000 objects"⟩ else outcome

/-! ## Refusals -/

variable {H : Hashes} {mode : Authentication} {dir : Directory} {up : Upstream} {caller : Caller}
  {call : Call} {cache cache' : ForgejoAuthorizationCache} {e : ApiError}

theorem Handler.bind_error {α β : Type} {m : Handler α} {k : α → Handler β}
    (h : m cache = (.error e, cache')) : (m >>= k) cache = (.error e, cache') := by
  simp only [bind, ExceptT.bind, ExceptT.mk, StateT.bind, h]
  rfl

/-- **A denied call is answered from the call and the outcome alone.** -/
theorem handle_denied (h : caller.authenticate H mode dir up call.needed cache = (.error e, cache')) :
    ∃ cache', handle H mode dir up caller call cache = (.error (call.denial e), cache') := by
  cases call with
  | batch request =>
    by_cases hlen : 1000 < request.objects.length
    · refine ⟨cache, ?_⟩
      simp [handle, handleBatch, Call.denial, Call.oversized, hlen]
      rfl
    · refine ⟨cache', ?_⟩
      simp only [handle, handleBatch, Call.denial, Call.oversized, hlen]
      exact Handler.bind_error h
  | uploadBasic oid length body newId => exact ⟨cache', Handler.bind_error h⟩
  | downloadBasic oid => exact ⟨cache', Handler.bind_error h⟩
  | beginCdc oid v m newId => exact ⟨cache', Handler.bind_error h⟩
  | uploadCdcChunk oid u index bytes => exact ⟨cache', Handler.bind_error h⟩
  | finalizeCdc oid u => exact ⟨cache', Handler.bind_error h⟩
  | downloadCdcManifest oid => exact ⟨cache', Handler.bind_error h⟩
  | downloadCdcChunk oid index => exact ⟨cache', Handler.bind_error h⟩
  | createLock path => exact ⟨cache', Handler.bind_error h⟩
  | listLocks query => exact ⟨cache', Handler.bind_error h⟩
  | verifyLocks cursor limit => exact ⟨cache', Handler.bind_error h⟩
  | unlock lockId force => exact ⟨cache', Handler.bind_error h⟩

/-- A token the library accepts is denied with one error, whatever the tables hold. -/
theorem authenticateOidc_denied {verify : Text → Option Text} {authorization owner repository : Text}
    {access : Access} {subject : Text} (hsub : (bearerToken authorization).bind verify = some subject)
    (h : authenticateOidc verify dir authorization owner repository access = .error e) :
    e = .accessDenied := by
  simp only [authenticateOidc, hsub] at h
  split at h
  · cases h; rfl
  · split at h
    · cases h
    · cases h; rfl

/-- **A refusal says nothing about the tables.** -/
theorem authenticate_denied {dir' : Directory} {header : Option Text} {owner repository : Text}
    {access : Access} {e' : ApiError}
    (h : (authenticate H mode dir cache up header owner repository access).1 = .error e)
    (h' : (authenticate H mode dir' cache up header owner repository access).1 = .error e') :
    e' = e := by
  cases header with
  | none =>
    cases h; cases h'; rfl
  | some value =>
    cases mode with
    | developmentToken hash => exact Except.error.inj (h'.symm.trans h)
    | forgejo => exact Except.error.inj (h'.symm.trans h)
    | oidc verify =>
      change authenticateOidc verify dir value owner repository access = .error e at h
      change authenticateOidc verify dir' value owner repository access = .error e' at h'
      cases hsub : (bearerToken value).bind verify with
      | none =>
        simp only [authenticateOidc, hsub] at h h'
        cases h; cases h'; rfl
      | some subject => rw [authenticateOidc_denied hsub h, authenticateOidc_denied hsub h']

/-! ## Admissions -/

variable {dir' : Directory} {up' : Upstream}

theorem Handler.bind_ok {α β : Type} {m : Handler α} {k : α → Handler β} {a : α}
    (h : (m cache).1 = .ok a) : (m >>= k) cache = k a (m cache).2 := by
  simp only [bind, ExceptT.bind, ExceptT.mk, StateT.bind]
  cases hm : m cache with
  | mk x c =>
    rw [hm] at h
    cases h
    rfl

theorem Handler.fst_error {α β : Type} {m : Handler α} {k : α → Handler β}
    (h : (m cache).1 = .error e) : ((m >>= k) cache).1 = .error e := by
  rw [Handler.bind_error (Prod.ext h rfl)]

/-- Two computations that agree step by step, whatever the cache, come to the same. -/
theorem Handler.bind_fst {α β : Type} {m m' : Handler α} {k k' : α → Handler β}
    (hm : (m cache).1 = (m' cache').1) (hk : ∀ a c c', (k a c).1 = (k' a c').1) :
    ((m >>= k) cache).1 = ((m' >>= k') cache').1 := by
  cases h : (m cache).1 with
  | error e => rw [Handler.fst_error h, Handler.fst_error (hm.symm.trans h)]
  | ok a => rw [Handler.bind_ok h, Handler.bind_ok (hm.symm.trans h), hk]

/-- A step that does not look at the cache. -/
theorem Handler.lift_bind_fst {α β : Type} {x x' : Except ApiError α} {k k' : α → Handler β}
    (hx : x = x') (hk : ∀ a c c', (k a c).1 = (k' a c').1) :
    (((x : Handler α) >>= k) cache).1 = (((x' : Handler α) >>= k') cache').1 := by
  subst hx
  refine Handler.bind_fst ?_ hk
  cases x <;> rfl

theorem Handler.bind_inv {α β : Type} {m : Handler α} {k : α → Handler β} {b : β}
    (h : ((m >>= k) cache).1 = .ok b) : ∃ a c, (m cache).1 = .ok a ∧ (k a c).1 = .ok b := by
  cases hm : (m cache).1 with
  | error e =>
    rw [Handler.fst_error hm] at h
    cases h
  | ok a =>
    rw [Handler.bind_ok hm] at h
    exact ⟨a, _, rfl, h⟩

/-- A call is decided by the call, the outcome of `authenticate` and the lookup of its
repository. -/
theorem handle_same (hid : caller.repositoryId dir = caller.repositoryId dir')
    (hauth : ¬ call.oversized → (caller.authenticate H mode dir up call.needed cache).1 =
      (caller.authenticate H mode dir' up' call.needed cache').1) :
    (handle H mode dir up caller call cache).1 = (handle H mode dir' up' caller call cache').1 := by
  cases call with
  | batch request =>
    by_cases hlen : 1000 < request.objects.length
    · simp [handle, handleBatch, hlen]
      rfl
    · simp only [handle, handleBatch, hlen]
      refine Handler.bind_fst (hauth (by simp [Call.oversized, hlen])) fun identity c c' => ?_
      exact Handler.lift_bind_fst hid fun r c c' => rfl
  | uploadBasic oid length body newId =>
    refine Handler.bind_fst (hauth nofun) fun identity c c' => ?_
    refine Handler.lift_bind_fst rfl fun oid c c' => ?_
    refine Handler.lift_bind_fst hid fun r c c' => ?_
    split <;> rfl
  | beginCdc oid v m newId =>
    refine Handler.bind_fst (hauth nofun) fun identity c c' => ?_
    refine Handler.lift_bind_fst rfl fun oid c c' => ?_
    refine Handler.lift_bind_fst rfl fun _ c c' => ?_
    exact Handler.lift_bind_fst hid fun r c c' => rfl
  | downloadBasic | uploadCdcChunk | finalizeCdc | downloadCdcManifest | downloadCdcChunk | createLock =>
    refine Handler.bind_fst (hauth nofun) fun identity c c' => ?_
    refine Handler.lift_bind_fst rfl fun _ c c' => ?_
    exact Handler.lift_bind_fst hid fun r c c' => rfl
  | listLocks | verifyLocks | unlock =>
    refine Handler.bind_fst (hauth nofun) fun identity c c' => ?_
    exact Handler.lift_bind_fst hid fun r c c' => rfl

/-- An admitted call is for the repository its path names. -/
theorem handle_repository {admission : Admission}
    (h : (handle H mode dir up caller call cache).1 = .ok admission) :
    caller.repositoryId dir = .ok admission.repository := by
  cases call with
  | batch request =>
    by_cases hlen : 1000 < request.objects.length
    · simp [handle, handleBatch, hlen] at h
      cases h
    · simp only [handle, handleBatch, hlen] at h
      obtain ⟨identity, c, -, h⟩ := Handler.bind_inv h
      obtain ⟨r, c, hr, h⟩ := Handler.bind_inv h
      cases h
      exact hr
  | uploadBasic oid length body newId =>
    obtain ⟨identity, c, -, h⟩ := Handler.bind_inv h
    obtain ⟨oid, c, -, h⟩ := Handler.bind_inv h
    obtain ⟨r, c, hr, h⟩ := Handler.bind_inv h
    split at h <;> cases h
    exact hr
  | beginCdc oid v m newId =>
    obtain ⟨identity, c, -, h⟩ := Handler.bind_inv h
    obtain ⟨oid, c, -, h⟩ := Handler.bind_inv h
    obtain ⟨_, c, -, h⟩ := Handler.bind_inv h
    obtain ⟨r, c, hr, h⟩ := Handler.bind_inv h
    cases h
    exact hr
  | downloadBasic | uploadCdcChunk | finalizeCdc | downloadCdcManifest | downloadCdcChunk | createLock =>
    obtain ⟨identity, c, -, h⟩ := Handler.bind_inv h
    obtain ⟨_, c, -, h⟩ := Handler.bind_inv h
    obtain ⟨r, c, hr, h⟩ := Handler.bind_inv h
    cases h
    exact hr
  | listLocks | verifyLocks | unlock =>
    obtain ⟨identity, c, -, h⟩ := Handler.bind_inv h
    obtain ⟨r, c, hr, h⟩ := Handler.bind_inv h
    cases h
    exact hr

end GitLfsDelta
