import GitLfsDelta.L3Server.Authentication

/-!
# Downloads and batches (`git-lfs-delta-server/src/lib.rs`)

The queries and the provider reads of `download_basic`, `download_cdc_manifest`,
`download_cdc_chunk` and `batch`, one function each. A handler runs one query, then reads the
chunks one after the other; `batch` runs one query for each object.

Nothing here trusts the provider: `readStored_ok` says that bytes which leave it have the
identity and the length the manifest asks for, whatever the provider answered.
-/
namespace GitLfsDelta

namespace ApiError

def objectNotFound : ApiError := ⟨404, "object not found"⟩

def chunkOutside : ApiError := ⟨404, "chunk index is outside the manifest"⟩

end ApiError

/-! ## Manifests and chunks -/

/-- mirrors crates/git-lfs-delta-server/src/lib.rs:1553-1567 -/
def loadManifest (db : Db) (r : Uuid) (oid : ObjectOid) : Except ApiError ObjectManifest :=
  match db.objects.get? (r, oid) with
  | none => .error .objectNotFound
  | some o => .ok o.manifest

/-- The manifest `download_basic` goes by.
mirrors crates/git-lfs-delta-server/src/lib.rs:891-894 -/
def openObject (db : Db) (r : Uuid) (oid : ObjectOid) : Except ApiError ObjectManifest :=
  match loadManifest db r oid with
  | .error e => .error e
  | .ok m =>
    match m.validate with
    | .error _ => .error .integrity
    | .ok () => .ok m

/-- The descriptor `download_cdc_chunk` goes by.
mirrors crates/git-lfs-delta-server/src/lib.rs:1142-1145 -/
def locateChunk (db : Db) (r : Uuid) (oid : ObjectOid) (index : Nat) :
    Except ApiError ChunkDescriptor :=
  match loadManifest db r oid with
  | .error e => .error e
  | .ok m =>
    match m.chunks[index]? with
    | none => .error .chunkOutside
    | some d => .ok d

/-- One read of a download, and the length check behind it.
mirrors crates/git-lfs-delta-server/src/lib.rs:903-912, 1146-1155 -/
def readStored (H : Hashes) (s : Store) (r : Uuid) (d : ChunkDescriptor) : Except ApiError Bytes :=
  match getVerified H s r d.id with
  | .error e => .error (.storage e)
  | .ok bytes => if bytes.length ≠ d.length.toNat then .error .integrity else .ok bytes

/-- The check of `download_basic` before it answers, and the answer: the body and the
`Content-Length`.
mirrors crates/git-lfs-delta-server/src/lib.rs:916-935 -/
def closeObject (H : Hashes) (oid : ObjectOid) (m : ObjectManifest) (body : Bytes) :
    Except ApiError (Bytes × UInt64) :=
  if H.sha256 body ≠ oid then .error .integrity else .ok (body, m.objectSize)

variable {H : Hashes} {db : Db} {r : Uuid} {oid : ObjectOid} {m : ObjectManifest}
  {d : ChunkDescriptor}

/-- The query finds the row of the object. -/
theorem loadManifest_of_row {o : ObjectRow} (ho : o ∈ db.objects) :
    loadManifest db o.repositoryId o.oid = .ok o.manifest := by
  unfold loadManifest
  rw [show db.objects.get? (o.repositoryId, o.oid) = some o from Table.get?_some.2 ⟨ho, rfl⟩]

theorem openObject_ok (h : openObject db r oid = .ok m) :
    loadManifest db r oid = .ok m ∧ m.validate = .ok () := by
  unfold openObject at h
  split at h; · cases h
  rename_i m' hload
  split at h; · cases h
  rename_i hv
  cases h
  exact ⟨hload, hv⟩

theorem locateChunk_ok {index : Nat} (h : locateChunk db r oid index = .ok d) :
    ∃ m, loadManifest db r oid = .ok m ∧ m.chunks[index]? = some d := by
  unfold locateChunk at h
  split at h; · cases h
  rename_i m hload
  split at h; · cases h
  rename_i d' hd
  cases h
  exact ⟨m, hload, hd⟩

/-- **A wrong read is an error, never data.** -/
theorem readStored_ok {s : Store} {b : Bytes} (h : readStored H s r d = .ok b) :
    s r d.id = some b ∧ H.blake3 b = d.id ∧ b.length = d.length.toNat := by
  unfold readStored at h
  split at h; · cases h
  rename_i bytes hget
  split at h
  · cases h
  · rename_i hlen
    cases h
    obtain ⟨hs, hid⟩ := getVerified_ok.1 hget
    exact ⟨hs, hid, by simpa using hlen⟩

theorem closeObject_ok {body body' : Bytes} {length : UInt64}
    (h : closeObject H oid m body = .ok (body', length)) :
    body' = body ∧ length = m.objectSize ∧ H.sha256 body = oid := by
  unfold closeObject at h
  split at h
  · cases h
  · rename_i hsha
    cases h
    exact ⟨rfl, rfl, by simpa using hsha⟩

/-! ## `batch` -/

/-- mirrors crates/git-lfs-delta-protocol/src/lfs.rs:8-15 -/
inductive Operation
  | upload | download
  deriving DecidableEq, Repr

/-- mirrors crates/git-lfs-delta-protocol/src/lfs.rs:18-25 -/
inductive TransferKind
  | basic | cdc
  deriving DecidableEq, Repr

/-- mirrors crates/git-lfs-delta-protocol/src/lfs.rs:46-62 -/
def selectTransfer (offered : List Text) : Except ApiError TransferKind :=
  if offered = [] then .ok .basic
  else if offered.any (· = "cdc".toList) then .ok .cdc
  else if offered.any (· = "basic".toList) then .ok .basic
  else .error ⟨406, "the client offered no supported Git LFS transfer mechanism"⟩

/-- mirrors crates/git-lfs-delta-protocol/src/lfs.rs:73-79 -/
structure BatchObject where
  oid : ObjectOid
  size : UInt64
  deriving DecidableEq, Repr

/-- mirrors crates/git-lfs-delta-protocol/src/lfs.rs:83-94; no handler reads `reference`. -/
structure BatchRequest where
  operation : Operation
  transfers : List Text
  objects : List BatchObject
  deriving DecidableEq, Repr

/-- An action: its URL and its only header, `Authorization`. -/
structure LfsAction where
  href : Text
  authorization : Text
  deriving DecidableEq, Repr

/-- mirrors crates/git-lfs-delta-protocol/src/lfs.rs:109-129; an answer has at most one action,
under the name of the operation. -/
structure BatchObjectResponse where
  oid : ObjectOid
  size : UInt64
  action : Option (Operation × LfsAction)
  error : Option ApiError
  deriving DecidableEq, Repr

/-- The base URL with path segments appended (`Url::path_segments_mut`), if it can have any. -/
abbrev Site := List Text → Option Text

/-- mirrors crates/git-lfs-delta-server/src/lib.rs:1512-1536 -/
def actionUrl (site : Site) (owner repository : Text) (oid : ObjectOid) (transfer : TransferKind) :
    Except ApiError Text :=
  let segments := [owner, repository, "info".toList, "lfs".toList, "objects".toList,
    (hexEncode oid.digest).toList]
  match site (if transfer = .cdc then segments ++ ["cdc".toList] else segments) with
  | none => .error ⟨500, "invalid base URL"⟩
  | some url => .ok url

/-- What stays the same for all objects of a batch. -/
structure Batch where
  owner : Text
  repository : Text
  identity : Identity
  operation : Operation
  transfer : TransferKind
  deriving DecidableEq, Repr

/-- `SELECT EXISTS(SELECT 1 FROM objects WHERE repository_id = $1 AND oid = $2)`. -/
def objectExists (db : Db) (r : Uuid) (oid : ObjectOid) : Bool :=
  (db.objects.get? (r, oid)).isSome

/-- The answer for one object.
mirrors crates/git-lfs-delta-server/src/lib.rs:1197-1230 -/
def batchObject (site : Site) (b : Batch) (present : Bool) (object : BatchObject) :
    Except ApiError BatchObjectResponse :=
  match b.operation, present with
  | .upload, false | .download, true =>
    match actionUrl site b.owner b.repository object.oid b.transfer with
    | .error e => .error e
    | .ok url =>
      .ok ⟨object.oid, object.size, some (b.operation, ⟨url, b.identity.authorization⟩), none⟩
  | .download, false => .ok ⟨object.oid, object.size, none, some .objectNotFound⟩
  | .upload, true => .ok ⟨object.oid, object.size, none, none⟩

end GitLfsDelta
