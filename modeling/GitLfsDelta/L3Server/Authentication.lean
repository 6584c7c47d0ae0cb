import GitLfsDelta.Core.Text
import GitLfsDelta.L3Server.Uploads

/-!
# Authentication (`git-lfs-delta-server/src/lib.rs`)

`authenticate` turns the `Authorization` header into an `Identity` with the access level a
handler asks for, or into the error the handler answers with. There are three modes: one
development token, Forgejo (two upstream requests behind a cache) and OIDC (a token verified
by a library and a row of `repository_grants`).

What the program does not compute is given: what Forgejo answers (`Upstream`), and the
subject a token library reads from a token it accepts (`Authentication.oidc`). A text is a
list of characters; `utf8` is its encoding.

`authenticate_ok` says what a granted identity rests on in each mode.
-/
namespace GitLfsDelta

/-- mirrors crates/git-lfs-delta-server/src/lib.rs:112-116 -/
inductive Access
  | read | write
  deriving DecidableEq, Repr

/-- mirrors crates/git-lfs-delta-server/src/lib.rs:118-122 -/
structure Identity where
  authorization : Text
  subject : Text
  administrator : Bool
  deriving DecidableEq, Repr

namespace ApiError

def unauthorized : ApiError := ⟨401, "authentication required"⟩

def authentication : ApiError := ⟨502, "authentication provider unavailable"⟩

def accessDenied : ApiError := ⟨403, "repository access denied"⟩

def repositoryNotFound : ApiError := ⟨404, "repository not found"⟩

end ApiError

/-! ## Repositories and grants -/

/-- mirrors migrations/202607170001_initial.sql:1-7 -/
structure RepositoryRow where
  id : Uuid
  owner : Text
  name : Text
  deriving DecidableEq, Repr

/-- mirrors migrations/202607170002_oidc_grants.sql:1-11 -/
structure GrantRow where
  repositoryId : Uuid
  subject : Text
  canRead : Bool
  canWrite : Bool
  canAdmin : Bool
  deriving DecidableEq, Repr

def GrantRow.key (g : GrantRow) : Uuid × Text := (g.repositoryId, g.subject)

/-- The tables only an operator changes. -/
structure Directory where
  repositories : Table RepositoryRow.id
  /-- `UNIQUE (owner, name)`. -/
  named : ∀ a ∈ repositories, ∀ b ∈ repositories, a.owner = b.owner → a.name = b.name → a = b
  grants : Table GrantRow.key

/-- mirrors crates/git-lfs-delta-server/src/lib.rs:1543-1551 -/
def Directory.repositoryId (dir : Directory) (owner name : Text) : Except ApiError Uuid :=
  match dir.repositories.find? fun x => x.owner = owner ∧ x.name = name with
  | none => .error .repositoryNotFound
  | some x => .ok x.id

/-- `SELECT ... FROM repository_grants g JOIN repositories r ...`. -/
def Directory.grant? (dir : Directory) (owner name subject : Text) : Option GrantRow :=
  match dir.repositoryId owner name with
  | .error _ => none
  | .ok r => dir.grants.get? (r, subject)

/-- The row of a repository, if it has one. -/
def Directory.named? (dir : Directory) (owner name : Text) : Option RepositoryRow :=
  dir.repositories.find? fun x => x.owner = owner ∧ x.name = name

theorem Directory.named_insert {dir : Directory} {row : RepositoryRow}
    (hnew : dir.named? row.owner row.name = none) (a : RepositoryRow)
    (ha : a ∈ dir.repositories.insert row) (b : RepositoryRow)
    (hb : b ∈ dir.repositories.insert row) (ho : a.owner = b.owner) (hn : a.name = b.name) :
    a = b := by
  have hfree : ∀ x ∈ dir.repositories, x.owner = row.owner → x.name = row.name → False := by
    intro x hx hxo hxn
    have := Table.find?_none.1 hnew x hx
    simp [hxo, hxn] at this
  rcases Table.mem_insert.1 ha with ha' | ⟨rfl, -⟩ <;>
    rcases Table.mem_insert.1 hb with hb' | ⟨rfl, -⟩
  · exact dir.named a ha' b hb' ho hn
  · exact (hfree a ha' ho hn).elim
  · exact (hfree b hb' ho.symm hn.symm).elim
  · rfl

/-- `RepositoryAdd`: an upsert on `(owner, name)` that leaves an existing row as it is; `newId`
is `Uuid::new_v4()`.
mirrors crates/git-lfs-delta-server/src/bin/git-lfs-delta-admin.rs:109-122 -/
def Directory.repositoryAdd (dir : Directory) (owner name : Text) (newId : Uuid) :
    Except DbError (Uuid × Directory) :=
  match h : dir.named? owner name with
  | some x => .ok (x.id, dir)
  | none =>
    if dir.repositories.get? newId ≠ none then .error .unique
    else .ok (newId,
      { dir with
        repositories := dir.repositories.insert ⟨newId, owner, name⟩
        named := Directory.named_insert h })

/-- `Grant`: an upsert on `(repository_id, subject)`.
mirrors crates/git-lfs-delta-server/src/bin/git-lfs-delta-admin.rs:123-142 -/
def Directory.addGrant (dir : Directory) (r : Uuid) (subject : Text) (write admin : Bool) :
    Except DbError Directory :=
  if dir.repositories.get? r = none then .error .foreignKey
  else match dir.grants.get? (r, subject) with
  | none => .ok { dir with grants := dir.grants.insert ⟨r, subject, true, write || admin, admin⟩ }
  | some _ => .ok { dir with
      grants := dir.grants.updateWhere (fun g => g.repositoryId = r ∧ g.subject = subject)
        (fun g => { g with canRead := true, canWrite := write || admin, canAdmin := admin })
        fun _ => rfl }

/-! ## Forgejo -/

/-- mirrors crates/git-lfs-delta-server/src/lib.rs:1501-1509 -/
structure ForgejoPermissions where
  pull : Bool
  push : Bool
  admin : Bool
  deriving DecidableEq, Repr

/-- What an upstream request came to: no response (also when its URL cannot be built), or a
status and the decoded body, if it decodes. -/
inductive ForgejoReply (α : Type)
  | unreachable
  | response (status : Nat) (body : Option α)
  deriving DecidableEq, Repr

/-- The clock and the answers one call of `authenticate_forgejo` meets. -/
structure Upstream where
  now : Nat
  user : ForgejoReply Text
  repository : ForgejoReply ForgejoPermissions
  deriving DecidableEq, Repr

/-- mirrors crates/git-lfs-delta-server/src/lib.rs:105-110 -/
structure CachedForgejoIdentity where
  key : BitVec 256
  subject : Text
  administrator : Bool
  expiresAt : Nat
  deriving DecidableEq, Repr

/-- mirrors crates/git-lfs-delta-server/src/lib.rs:98-103 -/
structure ForgejoAuthorizationCache where
  entries : Table CachedForgejoIdentity.key
  ttl : Nat
  capacity : Nat

/-- What is fed to SHA-256 for the cache key.
mirrors crates/git-lfs-delta-server/src/lib.rs:1316-1325 -/
def cacheKeyInput (authorization owner repository : Text) (access : Access) : Bytes :=
  utf8 authorization ++ [0] ++ utf8 owner ++ [0] ++ utf8 repository ++
    [match access with | .read => (0 : UInt8) | .write => 1]

/-- The lookup under the lock: a fresh entry is used, a stale one removed.
mirrors crates/git-lfs-delta-server/src/lib.rs:1327-1343 -/
def ForgejoAuthorizationCache.lookup (cache : ForgejoAuthorizationCache) (key : BitVec 256)
    (now : Nat) : Option CachedForgejoIdentity × ForgejoAuthorizationCache :=
  match cache.entries.get? key with
  | none => (none, cache)
  | some cached =>
    if now < cached.expiresAt then (some cached, cache)
    else (none, { cache with entries := cache.entries.deleteWhere fun e => e.key = key })

/-- `Iterator::min_by_key`; a `HashMap` may be walked in any order. -/
def earliest : List CachedForgejoIdentity → Option CachedForgejoIdentity
  | [] => none
  | e :: es =>
    match earliest es with
    | none => some e
    | some e' => if e.expiresAt ≤ e'.expiresAt then some e else some e'

/-- The insertion under the lock: drop what is stale, make room, insert or replace.
mirrors crates/git-lfs-delta-server/src/lib.rs:1414-1432 -/
def ForgejoAuthorizationCache.store (cache : ForgejoAuthorizationCache)
    (entry : CachedForgejoIdentity) (now : Nat) : ForgejoAuthorizationCache :=
  let kept := cache.entries.deleteWhere fun e => e.expiresAt ≤ now
  let room :=
    if kept.rows.length < cache.capacity then kept
    else match earliest kept.rows with
    | none => kept
    | some oldest => kept.deleteWhere fun e => e.key = oldest.key
  { cache with entries := (room.deleteWhere fun e => e.key = entry.key).insert entry }

/-- mirrors crates/git-lfs-delta-server/src/lib.rs:1395-1402 -/
def ForgejoPermissions.allow (p : ForgejoPermissions) : Access → Bool
  | .read => p.pull || p.push || p.admin
  | .write => p.push || p.admin

/-- The two fail-closed checks.
mirrors crates/git-lfs-delta-server/src/lib.rs:1360-1413 -/
def forgejoIdentity (authorization : Text) (access : Access) (user : ForgejoReply Text)
    (repository : ForgejoReply ForgejoPermissions) : Except ApiError Identity :=
  match user with
  | .unreachable => .error .authentication
  | .response status login =>
    if ¬(200 ≤ status ∧ status < 300) then .error .unauthorized
    else match login with
    | none => .error .authentication
    | some login =>
      match repository with
      | .unreachable => .error .authentication
      | .response status permissions =>
        if status = 401 then .error .unauthorized
        else if status = 404 then .error .repositoryNotFound
        else if 400 ≤ status ∧ status < 600 then .error .authentication
        else match permissions with
        | none => .error .authentication
        | some permissions =>
          if permissions.allow access then .ok ⟨authorization, login, permissions.admin⟩
          else .error .accessDenied

/-- mirrors crates/git-lfs-delta-server/src/lib.rs:1306-1434 -/
def authenticateForgejo (H : Hashes) (cache : ForgejoAuthorizationCache) (up : Upstream)
    (authorization owner repository : Text) (access : Access) :
    Except ApiError Identity × ForgejoAuthorizationCache :=
  let key := (H.sha256 (cacheKeyInput authorization owner repository access)).digest
  match cache.lookup key up.now with
  | (some cached, cache) => (.ok ⟨authorization, cached.subject, cached.administrator⟩, cache)
  | (none, cache) =>
    match forgejoIdentity authorization access up.user up.repository with
    | .error e => (.error e, cache)
    | .ok identity =>
      (.ok identity, cache.store ⟨key, identity.subject, identity.administrator, up.now + cache.ttl⟩
        up.now)

/-! ## OIDC and the development token -/

/-- mirrors crates/git-lfs-delta-server/src/lib.rs:81-96; `verify` is what `decode_header`,
the key set and `decode` make of a token: its subject, or nothing. -/
inductive Authentication
  | developmentToken (hash : ObjectOid)
  | forgejo
  | oidc (verify : Text → Option Text)

/-- `value.strip_prefix("Bearer ")`. -/
def bearerToken (authorization : Text) : Option Text :=
  dropBeginning "Bearer ".toList authorization

def GrantRow.allow (g : GrantRow) : Access → Bool
  | .read => g.canRead
  | .write => g.canWrite

/-- mirrors crates/git-lfs-delta-server/src/lib.rs:1442-1490 -/
def authenticateOidc (verify : Text → Option Text) (dir : Directory)
    (authorization owner repository : Text) (access : Access) : Except ApiError Identity :=
  match (bearerToken authorization).bind verify with
  | none => .error .unauthorized
  | some subject =>
    match dir.grant? owner repository subject with
    | none => .error .accessDenied
    | some grant =>
      if grant.allow access then .ok ⟨authorization, subject, grant.canAdmin⟩
      else .error .accessDenied

/-- mirrors crates/git-lfs-delta-server/src/lib.rs:1242-1300 -/
def authenticate (H : Hashes) (mode : Authentication) (dir : Directory)
    (cache : ForgejoAuthorizationCache) (up : Upstream) (header : Option Text)
    (owner repository : Text) (access : Access) :
    Except ApiError Identity × ForgejoAuthorizationCache :=
  match header with
  | none => (.error .unauthorized, cache)
  | some value =>
    match mode with
    | .developmentToken hash =>
      match bearerToken value with
      | none => (.error .unauthorized, cache)
      | some token =>
        if H.sha256 (utf8 token) = hash then
          (.ok ⟨value, "development-user".toList, true⟩, cache)
        else (.error .unauthorized, cache)
    | .forgejo => authenticateForgejo H cache up value owner repository access
    | .oidc verify => (authenticateOidc verify dir value owner repository access, cache)

/-! ## What an identity rests on -/

/-- The evidence behind a granted identity: the token itself, a fresh cached decision or two
upstream replies that allow the access, or a verified subject with a grant. -/
inductive Granted (H : Hashes) (dir : Directory) (cache : ForgejoAuthorizationCache)
    (up : Upstream) (owner repository : Text) (access : Access) (identity : Identity) :
    Authentication → Prop
  | token {token hash} : bearerToken identity.authorization = some token →
      H.sha256 (utf8 token) = hash →
      Granted H dir cache up owner repository access identity (.developmentToken hash)
  | cached {e} : e ∈ cache.entries →
      e.key = (H.sha256 (cacheKeyInput identity.authorization owner repository access)).digest →
      up.now < e.expiresAt → e.subject = identity.subject →
      e.administrator = identity.administrator →
      Granted H dir cache up owner repository access identity .forgejo
  | upstream : forgejoIdentity identity.authorization access up.user up.repository = .ok identity →
      Granted H dir cache up owner repository access identity .forgejo
  | grant {verify token g} : bearerToken identity.authorization = some token →
      verify token = some identity.subject →
      dir.grant? owner repository identity.subject = some g → g.allow access = true →
      g.canAdmin = identity.administrator →
      Granted H dir cache up owner repository access identity (.oidc verify)

variable {H : Hashes} {mode : Authentication} {dir : Directory} {cache : ForgejoAuthorizationCache}
  {up : Upstream} {header : Option Text} {owner repository : Text} {access : Access}
  {identity : Identity}

theorem forgejoIdentity_ok {authorization : Text} {user : ForgejoReply Text}
    {reply : ForgejoReply ForgejoPermissions}
    (h : forgejoIdentity authorization access user reply = .ok identity) :
    identity.authorization = authorization := by
  unfold forgejoIdentity at h
  split at h; · cases h
  split at h; · cases h
  split at h; · cases h
  split at h; · cases h
  split at h; · cases h
  split at h; · cases h
  split at h; · cases h
  split at h; · cases h
  split at h
  · cases h; rfl
  · cases h

theorem lookup_some {key : BitVec 256} {now : Nat} {e : CachedForgejoIdentity}
    {cache' : ForgejoAuthorizationCache} (h : cache.lookup key now = (some e, cache')) :
    e ∈ cache.entries ∧ e.key = key ∧ now < e.expiresAt := by
  unfold ForgejoAuthorizationCache.lookup at h
  split at h; · cases h
  rename_i e' hget
  split at h
  · rename_i hfresh
    cases h
    obtain ⟨hm, hk⟩ := Table.get?_some.1 hget
    exact ⟨hm, hk, hfresh⟩
  · cases h

/-- **No identity without evidence.** A granted identity carries the request's header, and
the mode's evidence allows the access asked for. -/
theorem authenticate_ok
    (h : (authenticate H mode dir cache up header owner repository access).1 = .ok identity) :
    header = some identity.authorization ∧
      Granted H dir cache up owner repository access identity mode := by
  unfold authenticate at h
  split at h; · cases h
  rename_i value
  cases mode with
  | developmentToken hash =>
    simp only at h
    split at h; · cases h
    rename_i token htoken
    split at h
    · rename_i hhash
      cases h
      exact ⟨rfl, .token htoken hhash⟩
    · cases h
  | forgejo =>
    simp only [authenticateForgejo] at h
    split at h
    · rename_i cached cache' hlookup
      cases h
      obtain ⟨hm, hk, hfresh⟩ := lookup_some hlookup
      exact ⟨rfl, .cached hm hk hfresh rfl rfl⟩
    · split at h; · cases h
      rename_i identity' hid
      cases h
      obtain rfl := forgejoIdentity_ok hid
      exact ⟨rfl, .upstream hid⟩
  | oidc verify =>
    simp only [authenticateOidc] at h
    split at h; · cases h
    rename_i subject hsub
    split at h; · cases h
    rename_i g hg
    split at h
    · rename_i hallow
      cases h
      obtain ⟨token, htoken, hverify⟩ := Option.bind_eq_some_iff.1 hsub
      exact ⟨rfl, .grant htoken hverify hg hallow rfl⟩
    · cases h

end GitLfsDelta
