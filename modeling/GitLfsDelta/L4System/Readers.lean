import GitLfsDelta.Core.LTS
import GitLfsDelta.L3Server.Downloads

/-!
# Requests that only read

`batch`, `download_basic`, `download_cdc_manifest` and `download_cdc_chunk` as processes: the
first query when they start, then one query or one provider read a step. They change neither
the database nor the store.

What a provider answers to a read is what it holds at that moment, so a download against a
provider that answers anything it likes is a run over any list of stores (`Reader.run`).
`run_basic` and `run_chunk` say what an answer of such a run is worth.
-/
namespace GitLfsDelta

/-- Requests after `authenticate` and the repository lookup. -/
inductive ReadRequest
  | batch (owner repository : Text) (identity : Identity) (request : BatchRequest)
  | downloadBasic (oid : ObjectOid)
  | downloadCdcManifest (oid : ObjectOid)
  | downloadCdcChunk (oid : ObjectOid) (index : Nat)
  deriving DecidableEq, Repr

inductive ReadResponse
  | batch (transfer : TransferKind) (objects : List BatchObjectResponse)
  | content (body : Bytes) (length : UInt64)
  | manifest (m : ObjectManifest)
  | chunk (bytes : Bytes)
  | failed (e : ApiError)
  deriving DecidableEq, Repr

inductive Reader
  | idle
  /-- `batch` with the objects still to look up. -/
  | batching (r : Uuid) (b : Batch) (todo : List BatchObject) (answered : List BatchObjectResponse)
  /-- `download_basic` with the chunks still to read and what is in its temporary file. -/
  | fetching (r : Uuid) (oid : ObjectOid) (m : ObjectManifest) (todo : List ChunkDescriptor)
      (body : Bytes)
  | reading (r : Uuid) (d : ChunkDescriptor)
  | done (response : ReadResponse)
  | stopped
  deriving DecidableEq, Repr

def Reader.Free : Reader → Prop
  | .idle | .done _ | .stopped => True
  | _ => False

instance : (q : Reader) → Decidable q.Free
  | .idle | .done _ | .stopped => .isTrue trivial
  | .batching .. | .fetching .. | .reading .. => .isFalse not_false

/-- The first query. -/
def readStart (db : Db) (r : Uuid) : ReadRequest → Reader
  | .batch owner repository identity request =>
    match selectTransfer request.transfers with
    | .error e => .done (.failed e)
    | .ok transfer =>
      .batching r ⟨owner, repository, identity, request.operation, transfer⟩ request.objects []
  | .downloadBasic oid =>
    match openObject db r oid with
    | .error e => .done (.failed e)
    | .ok m => .fetching r oid m m.chunks []
  | .downloadCdcManifest oid =>
    match loadManifest db r oid with
    | .error e => .done (.failed e)
    | .ok m => .done (.manifest m)
  | .downloadCdcChunk oid index =>
    match locateChunk db r oid index with
    | .error e => .done (.failed e)
    | .ok d => .reading r d

/-- The next query or provider read. -/
def readNext (H : Hashes) (site : Site) (db : Db) (store : Store) : Reader → Option Reader
  | .batching _ b [] answered => some (.done (.batch b.transfer answered))
  | .batching r b (object :: todo) answered =>
    match batchObject site b (objectExists db r object.oid) object with
    | .error e => some (.done (.failed e))
    | .ok answer => some (.batching r b todo (answered ++ [answer]))
  | .fetching _ oid m [] body =>
    match closeObject H oid m body with
    | .error e => some (.done (.failed e))
    | .ok (body, length) => some (.done (.content body length))
  | .fetching r oid m (d :: todo) body =>
    match readStored H store r d with
    | .error e => some (.done (.failed e))
    | .ok bytes => some (.fetching r oid m todo (body ++ bytes))
  | .reading r d =>
    match readStored H store r d with
    | .error e => some (.done (.failed e))
    | .ok bytes => some (.done (.chunk bytes))
  | _ => none

/-! ## Downloads from any provider -/

/-- A download against a provider that holds these stores, one after the other, when it is
asked. -/
def Reader.run (H : Hashes) (site : Site) (db : Db) : Reader → List Store → Option Reader :=
  LTS.exec fun q store => readNext H site db store q

/-- `downloads H site db r request stores response`: the request finds `db` at its query, the
provider answers from `stores`, and the handler answers `response`. -/
def Downloads (H : Hashes) (site : Site) (db : Db) (r : Uuid) (request : ReadRequest)
    (stores : List Store) (response : ReadResponse) : Prop :=
  (readStart db r request).run H site db stores = some (.done response)

variable {H : Hashes} {site : Site} {db : Db} {r : Uuid} {oid : ObjectOid} {m : ObjectManifest}

theorem run_done {stores : List Store} {response response' : ReadResponse}
    (h : (Reader.done response).run H site db stores = some (.done response')) :
    response' = response := by
  cases stores with
  | nil => cases h; rfl
  | cons store stores => cases h

/-- What `download_basic` answers has the SHA-256 it checked, and the length of the manifest. -/
theorem run_fetching : ∀ {stores : List Store} {todo : List ChunkDescriptor} {read body : Bytes}
    {length : UInt64},
    (Reader.fetching r oid m todo read).run H site db stores = some (.done (.content body length)) →
    H.sha256 body = oid ∧ length = m.objectSize
  | [], _, _, _, _, h => by cases h
  | store :: stores, [], read, body, length, h => by
    simp only [Reader.run, LTS.exec, Option.bind_eq_some_iff, readNext] at h
    obtain ⟨q, hq, hrest⟩ := h
    split at hq
    · cases hq
      cases run_done hrest
    · rename_i body' length' hclose
      cases hq
      cases run_done hrest
      obtain ⟨rfl, hl, hsha⟩ := closeObject_ok hclose
      exact ⟨hsha, hl⟩
  | store :: stores, d :: todo, read, body, length, h => by
    simp only [Reader.run, LTS.exec, Option.bind_eq_some_iff, readNext] at h
    obtain ⟨q, hq, hrest⟩ := h
    split at hq
    · cases hq
      cases run_done hrest
    · cases hq
      exact run_fetching hrest

/-- **A body is what the object's row asks for.** -/
theorem downloads_basic {stores : List Store} {body : Bytes} {length : UInt64}
    (h : Downloads H site db r (.downloadBasic oid) stores (.content body length)) :
    ∃ m, loadManifest db r oid = .ok m ∧ H.sha256 body = oid ∧ length = m.objectSize := by
  simp only [Downloads, readStart] at h
  split at h
  · cases run_done h
  · rename_i m hopen
    obtain ⟨hsha, hlen⟩ := run_fetching h
    exact ⟨m, (openObject_ok hopen).1, hsha, hlen⟩

theorem downloads_manifest {stores : List Store}
    (h : Downloads H site db r (.downloadCdcManifest oid) stores (.manifest m)) :
    loadManifest db r oid = .ok m := by
  simp only [Downloads, readStart] at h
  split at h
  · cases run_done h
  · rename_i m' hload
    cases run_done h
    exact hload

/-- **A chunk is what the object's manifest asks for.** -/
theorem downloads_chunk {stores : List Store} {index : Nat} {b : Bytes}
    (h : Downloads H site db r (.downloadCdcChunk oid index) stores (.chunk b)) :
    ∃ m d, loadManifest db r oid = .ok m ∧ m.chunks[index]? = some d ∧ H.blake3 b = d.id := by
  simp only [Downloads, readStart] at h
  split at h
  · cases run_done h
  · rename_i d hd
    obtain ⟨m, hload, hget⟩ := locateChunk_ok hd
    cases stores with
    | nil => cases h
    | cons store stores =>
      simp only [Reader.run, LTS.exec, Option.bind_eq_some_iff, readNext] at h
      obtain ⟨q, hq, hrest⟩ := h
      split at hq
      · cases hq
        cases run_done hrest
      · rename_i bytes hread
        cases hq
        cases run_done hrest
        exact ⟨m, d, hload, hget, (readStored_ok hread).2.1⟩

end GitLfsDelta
