import Mathlib.Data.Fintype.Basic
import GitLfsDelta.Core.Clients
import GitLfsDelta.L1Data.WellFormed
import GitLfsDelta.L4System.Publication
import GitLfsDelta.L4System.RoundTrip

/-!
# Published objects can be downloaded

The transfer system with any number of reading requests beside it, each of which runs its queries
and provider reads between the steps of uploads, collections and drains.

A download reads the row once and the chunks later, so a collection may take both away from under
it. It cannot fail for any other reason: in the runs in which no object is collected while it is
being downloaded, every answer is the right one.

* `Kept.chunk`: where verified chunks are spared, the provider answers every chunk of every row
  with the part of the source it stands for.
* `downloads_available`: no download fails for a missing or a corrupt chunk, every body is the
  object, every chunk the part of it the manifest says, and a download in progress gets its answer
  in as many steps as it has left.
* `download_overtaken`: a run in which a collection overtakes a download, which then fails.
-/
namespace GitLfsDelta

/-! ## Parts of a source -/

section Parts

variable {H : Hashes} {B : Set Bytes} {m : ObjectManifest} {b part : Bytes} {d : ChunkDescriptor}

/-- The bytes of the source that the descriptor stands for. -/
def ChunkDescriptor.slice (d : ChunkDescriptor) (source : Bytes) : Bytes :=
  (source.drop d.offset.toNat).take d.length.toNat

theorem flatten_part {ds : List ChunkDescriptor} {parts : List Bytes}
    (h : List.Forall₂ (Named H B) ds parts) : ∀ {i : Nat}, ds[i]? = some d → parts[i]? = some part →
    part = (parts.flatten.drop (coverage (ds.take i))).take d.length.toNat := by
  induction h with
  | nil => intro i hd; simp at hd
  | @cons e x ds parts he _ ih =>
    intro i hd hpart
    cases i with
    | zero =>
      simp only [List.getElem?_cons_zero, Option.some.injEq] at hd hpart
      subst hd hpart
      simp [← he.2.2]
    | succ i =>
      simp only [List.getElem?_cons_succ] at hd hpart
      rw [List.take_succ_cons, coverage_cons, List.flatten_cons, ← he.2.2, List.drop_length_add_append]
      exact ih hd hpart

/-- What has the identity of a chunk of the source is the part of it the descriptor stands for. -/
theorem Describes.slice (h : Describes H B m b) (hB : H.CollisionFree B) (hv : m.validate = .ok ())
    {i : Nat} (hd : m.chunks[i]? = some d) (hpart : part ∈ B) (hid : H.blake3 part = d.id) :
    part = d.slice b := by
  have hwell : m.WellFormed := by
    rcases validate_cases m with ⟨-, hwell⟩ | ⟨e, herr, -⟩
    · exact hwell
    · rw [hv] at herr
      cases herr
  obtain ⟨parts, hparts, rfl⟩ := h.parts
  have hi := (List.getElem?_eq_some_iff.1 hd).1
  have hi' : i < parts.length := hparts.length_eq ▸ hi
  have hget : parts[i]? = some parts[i] := List.getElem?_eq_getElem hi'
  have hnamed := List.Forall₂.get hparts hi hi'
  simp only [List.get_eq_getElem, (List.getElem?_eq_some_iff.1 hd).2] at hnamed
  rw [hB hpart hnamed.1 (hid.trans hnamed.2.1.symm), ChunkDescriptor.slice, hwell.offset i d hd]
  exact flatten_part hparts hd hget

end Parts

/-! ## Runs that keep what they publish -/

section Careful

variable {ι : Type} [DecidableEq ι]

/-- What the step hashes or uploads is in `B`, and a drain spares verified chunks. -/
def Careful (H : Hashes) (cut : Cutter) (B : List Bytes) (s : State ι) (l : Label ι) : Prop :=
  HashesIn cut {b | b ∈ B} s (.server l) ∧ l.UploadsIn H cut B ∧ SparesVerified s l

/-- Every such interleaving, with the sources of the rows. -/
def careful (H : Hashes) (cut : Cutter) (B : List Bytes) : LTS (State ι × Sources ι) (Label ι) :=
  ((server H cut).guard (Careful H cut B)).annotate .empty fun g s l s' => g.next s (.server l) s'

/-- Everything published is there to be read, and stands for its source. -/
structure Kept (H : Hashes) (B : List Bytes) (x : State ι × Sources ι) : Prop where
  owned : Owned x.1
  shared : SharedInv H x.1.toShared
  stored : StoredIn H B x.1
  published : PublishInv x.1
  sources : SourceInv H {b | b ∈ B} x.1 x.2

variable {H : Hashes} {cut : Cutter} {B : List Bytes} {x : State ι × Sources ι}

theorem careful_kept (hcut : cut.Conforms) (hB : H.CollisionFree {b | b ∈ B}) :
    (careful H cut B : LTS (State ι × Sources ι) (Label ι)).Inductive (Kept H B) where
  init := by
    rintro ⟨s, g⟩ ⟨hs, rfl⟩
    obtain ⟨t, rfl⟩ := hs
    exact {
      owned := ((server_inv H cut).init _ ⟨t, rfl⟩).1
      shared := sharedInv_initial H t
      stored := .initial H B t
      published := ⟨fun _ => trivial, fun o ho => absurd ho (Table.not_mem_empty o)⟩
      sources := (sourceInv H hcut {b | b ∈ B}).init (_, _) ⟨⟨t, rfl⟩, rfl⟩ }
  step := by
    rintro ⟨s, g⟩ l ⟨s', g'⟩ hk ⟨⟨⟨hhash, hup, hspare⟩, hst⟩, hg⟩
    simp only at hhash hup hspare hst hg
    have hinv := (server_inv H cut).step s l s' ⟨hk.owned, hk.shared⟩ hst
    exact {
      owned := hinv.1
      shared := hinv.2
      stored := hk.stored.step hup hst
      published := publishInv_step hk.owned hk.shared hk.stored hB hk.published hspare hst
      sources := (sourceInv H hcut {b | b ∈ B}).step (s, g) (.server l) (s', g') hk.sources
        ⟨⟨hhash, hst⟩, hg⟩ }

variable {o : ObjectRow} {d : ChunkDescriptor} {i : Nat}

omit [DecidableEq ι] in
/-- **Every chunk of a row can be read**, and is its part of the source. -/
theorem Kept.chunk (hk : Kept H B x) (ho : o ∈ x.1.db.objects) (hd : d ∈ o.manifest.chunks) :
    ∃ b, Named H {b | b ∈ B} d b ∧ readStored H x.1.store o.repositoryId d = .ok b := by
  obtain ⟨b, hb, hlen⟩ := hk.published.objects o ho d hd
  have hid := hk.shared.store _ _ _ hb
  refine ⟨b, ⟨hk.stored.stored _ _ _ hb, hid, hlen⟩, ?_⟩
  have hget : getVerified H x.1.store o.repositoryId d.id = .ok b := getVerified_ok.2 ⟨hb, hid⟩
  simp [readStored, hget, hlen]

omit [DecidableEq ι] in
theorem Kept.describes (hk : Kept H B x) (ho : o ∈ x.1.db.objects) :
    o.oid = o.manifest.objectOid ∧ o.manifest.validate = .ok () ∧
      Describes H {b | b ∈ B} o.manifest (x.2.source o.key) := by
  obtain ⟨hoid, -, hv, hd⟩ := hk.sources.rows o ho
  exact ⟨hoid, hv, hd⟩

end Careful

/-! ## Reading requests beside it -/

/-- The object, and the chunk, that the request is for are there. -/
def ReadRequest.finds (db : Db) (r : Uuid) : ReadRequest → Bool
  | .batch .. => true
  | .downloadBasic oid | .downloadCdcManifest oid => (db.objects.get? (r, oid)).isSome
  | .downloadCdcChunk oid i => (db.objects.get? (r, oid)).any fun o => i < o.manifest.chunks.length

/-- What a reading request asked, and how far it is. `found` (ghost) is whether the object was
there when it was asked for. -/
inductive Exchange
  | idle
  | asked (r : Uuid) (request : ReadRequest) (found : Bool) (q : Reader)
  deriving DecidableEq, Repr

def Exchange.Free : Exchange → Prop
  | .idle => True
  | .asked _ _ _ q => q.Free

instance : (q : Exchange) → Decidable q.Free
  | .idle => .isTrue trivial
  | .asked _ _ _ q => inferInstanceAs (Decidable q.Free)

inductive ReaderEvent
  | ask (r : Uuid) (request : ReadRequest)
  | next
  | stop
  deriving DecidableEq, Repr

def exchangeStep (H : Hashes) (site : Site) (w : Shared) : Exchange → ReaderEvent → Option Exchange
  | q, .ask r request =>
    if q.Free then some (.asked r request (request.finds w.db r) (readStart w.db r request)) else none
  | .asked r request found q, .next => (readNext H site w.db w.store q).map (.asked r request found)
  | .asked r request found _, .stop => some (.asked r request found .stopped)
  | .idle, _ => none

/-- The object a download in progress is reading. -/
def Exchange.reads : Exchange → Option (Uuid × ObjectOid)
  | .asked r (.downloadBasic oid) _ q | .asked r (.downloadCdcChunk oid _) _ q =>
    if q.Free then none else some (r, oid)
  | _ => none

section Exchange

variable {ι κ : Type} [DecidableEq ι] [DecidableEq κ]

/-- Uploads, collections and drains, and reading requests. -/
def reading (H : Hashes) (cut : Cutter) (B : List Bytes) (site : Site) :
    LTS ((State ι × Sources ι) × (κ → Exchange)) (LTS.ClientLabel (Label ι) κ ReaderEvent) :=
  (careful H cut B).clients (fun _ => .idle) fun _ x => exchangeStep H site x.1.toShared

/-- The step does not collect an object that is being downloaded. -/
def SparesRead (x : (State ι × Sources ι) × (κ → Exchange)) :
    LTS.ClientLabel (Label ι) κ ReaderEvent → Prop
  | .system (.act p (.next (.tombstone oid))) =>
    match x.1.1.procs p with
    | .collecting r _ => ∀ k, (x.2 k).reads ≠ some (r, oid)
    | _ => True
  | _ => True

instance [Fintype κ] (x : (State ι × Sources ι) × (κ → Exchange))
    (l : LTS.ClientLabel (Label ι) κ ReaderEvent) : Decidable (SparesRead x l) := by
  unfold SparesRead
  split
  · split <;> infer_instance
  · infer_instance

/-- What an answer may be. A download is answered 404 if the object was not there when it was asked
for, and else with the object, its manifest, or the part of it that was asked for. -/
def Answers (H : Hashes) (B : Set Bytes) (found : Bool) : ReadRequest → ReadResponse → Prop
  | .batch .., .failed e => e.status = 406 ∨ e = ⟨500, "invalid base URL"⟩
  | .batch .., .batch .. => True
  | .batch .., _ => False
  | _, .failed e => found = false ∧ e.status = 404
  | .downloadBasic oid, .content body length => found = true ∧
    body ∈ B ∧ H.sha256 body = oid ∧ length.toNat = body.length
  | .downloadCdcManifest oid, .manifest m => found = true ∧
    m.validate = .ok () ∧ ∃ b, Describes H B m b ∧ H.sha256 b = oid
  | .downloadCdcChunk oid i, .chunk part => found = true ∧
    ∃ m b d, m.validate = .ok () ∧ Describes H B m b ∧ H.sha256 b = oid ∧
      m.chunks[i]? = some d ∧ part = d.slice b
  | _, _ => False

/-- How far a request may be. -/
def Reader.Ok (H : Hashes) (B : Set Bytes) (db : Db) (r : Uuid) (request : ReadRequest)
    (found : Bool) : Reader → Prop
  | .batching .. => ∃ owner repository identity b, request = .batch owner repository identity b
  | .fetching r' oid m todo body => found = true ∧ r' = r ∧ request = .downloadBasic oid ∧
    (∃ o ∈ db.objects, o.key = (r, oid) ∧ o.manifest = m) ∧
    ∃ ds parts, m.chunks = ds ++ todo ∧ List.Forall₂ (Named H B) ds parts ∧ parts.flatten = body
  | .reading r' d => found = true ∧ r' = r ∧ ∃ oid i, request = .downloadCdcChunk oid i ∧
    ∃ o ∈ db.objects, o.key = (r, oid) ∧ o.manifest.chunks[i]? = some d
  | .done response => Answers H B found request response
  | .idle | .stopped => True

def Exchange.Ok (H : Hashes) (B : Set Bytes) (db : Db) : Exchange → Prop
  | .idle => True
  | .asked r request found q => q.Ok H B db r request found

/-! ## One step of a request -/

variable {H : Hashes} {cut : Cutter} {B : List Bytes} {site : Site} {x : State ι × Sources ι}
  {r : Uuid} {oid : ObjectOid} {request : ReadRequest} {found : Bool} {q q' : Reader}

theorem loadManifest_cases (db : Db) (r : Uuid) (oid : ObjectOid) :
    (db.objects.get? (r, oid) = none ∧ loadManifest db r oid = .error .objectNotFound) ∨
      ∃ o ∈ db.objects, o.key = (r, oid) ∧ db.objects.get? (r, oid) = some o ∧
        loadManifest db r oid = .ok o.manifest := by
  unfold loadManifest
  cases h : db.objects.get? (r, oid) with
  | none => exact .inl ⟨rfl, rfl⟩
  | some o =>
    obtain ⟨ho, hkey⟩ := Table.get?_some.1 h
    exact .inr ⟨o, ho, hkey, rfl, rfl⟩

theorem selectTransfer_error {offered : List Text} {e : ApiError}
    (h : selectTransfer offered = .error e) : e.status = 406 := by
  unfold selectTransfer at h
  repeat' split at h
  all_goals cases h
  rfl

/-- The only object error that ends a batch is a base URL that cannot have a path. -/
theorem batchObject_error {b : Batch} {present : Bool} {object : BatchObject} {e : ApiError}
    (h : batchObject site b present object = .error e) : e = ⟨500, "invalid base URL"⟩ := by
  have hurl : ∀ e', actionUrl site b.owner b.repository object.oid b.transfer = .error e' →
      e' = ⟨500, "invalid base URL"⟩ := by
    intro e' he
    unfold actionUrl at he
    dsimp only at he
    split at he <;> cases he
    rfl
  unfold batchObject at h
  split at h
  · split at h
    · rename_i e' he
      cases h
      exact hurl _ he
    · cases h
  · split at h
    · rename_i e' he
      cases h
      exact hurl _ he
    · cases h
  · cases h
  · cases h

omit [DecidableEq ι] in
/-- The first query. -/
theorem Kept.start (hk : Kept H B x) (r : Uuid) (request : ReadRequest) :
    (readStart x.1.db r request).Ok H {b | b ∈ B} x.1.db r request (request.finds x.1.db r) := by
  cases request with
  | batch owner repository identity b =>
    simp only [readStart]
    split
    · rename_i e he
      exact .inl (selectTransfer_error he)
    · exact ⟨owner, repository, identity, b, rfl⟩
  | downloadBasic oid =>
    simp only [readStart, openObject, ReadRequest.finds]
    rcases loadManifest_cases x.1.db r oid with ⟨hget, h⟩ | ⟨o, ho, hkey, hget, h⟩
    · rw [h, hget]
      exact ⟨rfl, rfl⟩
    · rw [h, hget]
      simp only [(hk.describes ho).2.1]
      exact ⟨rfl, rfl, rfl, ⟨o, ho, hkey, rfl⟩, [], [], rfl, .nil, rfl⟩
  | downloadCdcManifest oid =>
    simp only [readStart, ReadRequest.finds]
    rcases loadManifest_cases x.1.db r oid with ⟨hget, h⟩ | ⟨o, ho, hkey, hget, h⟩
    · rw [h, hget]
      exact ⟨rfl, rfl⟩
    · rw [h, hget]
      obtain ⟨hoid, hv, hd⟩ := hk.describes ho
      exact ⟨rfl, hv, _, hd, hd.sha.trans (hoid.symm.trans (congrArg Prod.snd hkey))⟩
  | downloadCdcChunk oid i =>
    simp only [readStart, locateChunk, ReadRequest.finds]
    rcases loadManifest_cases x.1.db r oid with ⟨hget, h⟩ | ⟨o, ho, hkey, hget, h⟩
    · rw [h, hget]
      exact ⟨rfl, rfl⟩
    · rw [h, hget]
      simp only [Option.any_some]
      cases hd : o.manifest.chunks[i]? with
      | none => exact ⟨by simpa using hd, rfl⟩
      | some d =>
        have hi := (List.getElem?_eq_some_iff.1 hd).1
        exact ⟨by simpa using hi, rfl, oid, i, rfl, o, ho, hkey, hd⟩

omit [DecidableEq ι] in
/-- A body put together from all chunks of a row is the object. -/
theorem Kept.body (hk : Kept H B x) (hB : H.CollisionFree {b | b ∈ B}) {o : ObjectRow}
    (ho : o ∈ x.1.db.objects) {parts : List Bytes}
    (hparts : List.Forall₂ (Named H {b | b ∈ B}) o.manifest.chunks parts) :
    parts.flatten ∈ B ∧ H.sha256 parts.flatten = o.oid ∧
      o.manifest.objectSize.toNat = parts.flatten.length := by
  obtain ⟨hoid, hv, hd⟩ := hk.describes ho
  have hlen := hparts.length_eq
  have hflat : parts.flatten = x.2.source o.key := by
    apply hd.unique hB hlen.symm
    intro i b hb
    obtain ⟨hi, rfl⟩ := List.getElem?_eq_some_iff.1 hb
    have hi' : i < o.manifest.chunks.length := by omega
    have hnamed := List.Forall₂.get hparts hi' hi
    exact ⟨hnamed.1, _, List.getElem?_eq_getElem hi', hnamed.2.1⟩
  rw [hflat]
  exact ⟨hd.mem, hd.sha.trans hoid.symm, (hd.length hv).symm⟩

/-- The steps a request has left at most. -/
def Reader.left : Reader → Nat
  | .batching _ _ todo _ | .fetching _ _ _ todo _ => todo.length + 1
  | .reading .. => 1
  | .idle | .done _ | .stopped => 0

omit [DecidableEq ι] in
/-- **The next query or read.** A request in progress has one, it keeps the request in order, and
there is less to do after it. -/
theorem Kept.next (hk : Kept H B x) (hB : H.CollisionFree {b | b ∈ B}) (site : Site)
    (hq : q.Ok H {b | b ∈ B} x.1.db r request found) (hf : ¬ q.Free) :
    ∃ q', readNext H site x.1.db x.1.store q = some q' ∧
      q'.Ok H {b | b ∈ B} x.1.db r request found ∧ q'.left < q.left ∧
      (q'.Free → ∃ response, q' = .done response) := by
  cases q with
  | batching r' b todo answered =>
    obtain ⟨owner, repository, identity, b', rfl⟩ := hq
    cases todo with
    | nil => exact ⟨_, rfl, trivial, by simp [Reader.left], fun _ => ⟨_, rfl⟩⟩
    | cons object todo =>
      simp only [readNext]
      split
      · rename_i e he
        exact ⟨_, rfl, .inr (batchObject_error he), by simp [Reader.left], fun _ => ⟨_, rfl⟩⟩
      · exact ⟨_, rfl, ⟨_, _, _, _, rfl⟩, by simp [Reader.left], fun h => h.elim⟩
  | fetching r' oid m todo body =>
    obtain ⟨hfound, rfl, rfl, ⟨o, ho, hkey, rfl⟩, ds, parts, hds, hparts, rfl⟩ := hq
    obtain ⟨rfl, rfl⟩ := Prod.mk.inj hkey
    cases todo with
    | nil =>
      rw [List.append_nil] at hds
      obtain ⟨hmem, hsha, hlen⟩ := hk.body hB ho (hds ▸ hparts)
      simp only [readNext, closeObject, hsha, ne_eq, not_true, if_false]
      exact ⟨_, rfl, ⟨hfound, hmem, hsha, hlen⟩, by simp [Reader.left], fun _ => ⟨_, rfl⟩⟩
    | cons d todo =>
      obtain ⟨b, hnamed, hread⟩ := hk.chunk ho (d := d) (by simp [hds])
      simp only [readNext, hread]
      refine ⟨_, rfl, ⟨hfound, rfl, rfl, ⟨o, ho, rfl, rfl⟩, ds ++ [d], parts ++ [b], by simp [hds],
        ?_, by simp⟩, by simp [Reader.left], fun h => h.elim⟩
      exact List.rel_append hparts (.cons hnamed .nil)
  | reading r' d =>
    obtain ⟨hfound, rfl, oid, i, rfl, o, ho, hkey, hd⟩ := hq
    obtain ⟨rfl, rfl⟩ := Prod.mk.inj hkey
    obtain ⟨b, hnamed, hread⟩ := hk.chunk ho (List.mem_of_getElem? hd)
    obtain ⟨hoid, hv, hdesc⟩ := hk.describes ho
    simp only [readNext, hread]
    refine ⟨_, rfl, ⟨hfound, o.manifest, _, d, hv, hdesc, hdesc.sha.trans hoid.symm, hd, ?_⟩,
      by simp [Reader.left], fun _ => ⟨_, rfl⟩⟩
    exact hdesc.slice hB hv hd hnamed.1 hnamed.2.1
  | idle => exact absurd trivial hf
  | done response => exact absurd trivial hf
  | stopped => exact absurd trivial hf

/-! ## All interleavings -/

/-- A request relies on nothing but the row it reads. -/
theorem Exchange.Ok.stable {B : Set Bytes} {db db' : Db} {q : Exchange} (h : q.Ok H B db)
    (hrow : ∀ o ∈ db.objects, q.reads = some o.key → o ∈ db'.objects) : q.Ok H B db' := by
  cases q with
  | idle => trivial
  | asked r request found q =>
    cases q with
    | fetching r' oid m todo body =>
      obtain ⟨hfound, rfl, rfl, ⟨o, ho, hkey, hm⟩, hrest⟩ := h
      exact ⟨hfound, rfl, rfl, ⟨o, hrow o ho (by rw [hkey]; rfl), hkey, hm⟩, hrest⟩
    | reading r' d =>
      obtain ⟨hfound, rfl, oid, i, rfl, o, ho, hkey, hd⟩ := h
      exact ⟨hfound, rfl, oid, i, rfl, o, hrow o ho (by rw [hkey]; rfl), hkey, hd⟩
    | _ => exact h

omit [DecidableEq κ] in
theorem SparesRead.keeps {x : (State ι × Sources ι) × (κ → Exchange)} {l : Label ι} {s' : State ι}
    (hs : SparesRead x (.system l)) (hst : step H cut x.1.1 l = some s') (k : κ) :
    ∀ o ∈ x.1.1.db.objects, (x.2 k).reads = some o.key → o ∈ s'.db.objects := by
  intro o ho hreads
  rcases step_cases hst with ⟨δ, -, rfl⟩ | ⟨p, a, w, q, rfl, ht, rfl⟩
  · exact ho
  rcases ht.objects_kept with hkept | ⟨r, n, oid, hq, rfl, -, hdel⟩
  · exact hkept o ho
  · simp only [SparesRead, hq] at hs
    rw [move_toShared, hdel, Table.mem_deleteWhere]
    refine ⟨ho, decide_eq_false fun hkey => hs k ?_⟩
    rw [hreads, ObjectRow.key, hkey.1, hkey.2]

omit [DecidableEq ι] in
theorem exchangeStep_ok (hB : H.CollisionFree {b | b ∈ B}) (hk : Kept H B x) {q q' : Exchange}
    {e : ReaderEvent} (hq : q.Ok H {b | b ∈ B} x.1.db)
    (h : exchangeStep H site x.1.toShared q e = some q') : q'.Ok H {b | b ∈ B} x.1.db := by
  cases e with
  | ask r request =>
    simp only [exchangeStep] at h
    split at h
    · cases h
      exact hk.start r request
    · cases h
  | next =>
    cases q with
    | idle => cases h
    | asked r request found q =>
      simp only [exchangeStep, Option.map_eq_some_iff] at h
      obtain ⟨q', hnext, rfl⟩ := h
      have hf : ¬ q.Free := by
        intro hf
        cases q <;> first | cases hnext | exact hf
      obtain ⟨q'', hnext', hok, -⟩ := hk.next hB site hq hf
      rw [hnext, Option.some.injEq] at hnext'
      exact hnext' ▸ hok
  | stop =>
    cases q with
    | idle => cases h
    | asked r request found q =>
      cases h
      trivial

theorem reading_ok (hcut : cut.Conforms) (hB : H.CollisionFree {b | b ∈ B}) :
    ((reading H cut B site).guard SparesRead).Inductive
      fun x : (State ι × Sources ι) × (κ → Exchange) =>
        Kept H B x.1 ∧ ∀ k, (x.2 k).Ok H {b | b ∈ B} x.1.1.db := by
  apply (careful_kept hcut hB).clients fun _ x (q : Exchange) => q.Ok H {b | b ∈ B} x.1.db
  · intro k s _
    trivial
  · intro k x l s' _ hs hst hok
    exact hok.stable (hs.keeps hst.1.2 k)
  · intro k x e q hk _ hok h
    exact exchangeStep_ok hB hk hok h

/-- Left alone, a request in progress gets its answer. -/
theorem reading_completes (hcut : cut.Conforms) (hB : H.CollisionFree {b | b ∈ B}) {k : κ} :
    ∀ {n : Nat} {x : (State ι × Sources ι) × (κ → Exchange)} {q : Reader}, q.left ≤ n →
    ((reading H cut B site).guard SparesRead).Reachable x → x.2 k = .asked r request found q →
    ¬ q.Free → ∃ i ≤ n, ∃ x' response,
      ((reading H cut B site).guard SparesRead).Run x (List.replicate i (.client k .next)) x' ∧
      x'.1 = x.1 ∧ x'.2 k = .asked r request found (.done response) := by
  intro n
  induction n with
  | zero =>
    intro x q hleft _ _ hf
    cases q <;> first | exact absurd trivial hf | simp [Reader.left] at hleft
  | succ n ih =>
    intro x q hleft hr hq hf
    obtain ⟨hk, hok⟩ := (reading_ok hcut hB).reachable hr
    have hok := hok k
    rw [hq] at hok
    obtain ⟨q', hnext, -, hlt, hdone⟩ := hk.next hB site hok hf
    -- one step of its own, and then the rest of them
    obtain ⟨x₁, hx₁⟩ : ∃ x₁, x₁ = (x.1, Function.update x.2 k (.asked r request found q')) := ⟨_, rfl⟩
    have hst : ((reading H cut B site).guard SparesRead).step x (.client k .next) x₁ := by
      refine ⟨trivial, by rw [hx₁], .asked r request found q', ?_, by rw [hx₁]⟩
      simp only [hq, exchangeStep, hnext, Option.map_some]
    have hq' : x₁.2 k = .asked r request found q' := by
      rw [hx₁]
      exact Function.update_self ..
    by_cases hfree : q'.Free
    · obtain ⟨response, rfl⟩ := hdone hfree
      exact ⟨1, by omega, x₁, response, .cons hst (.nil _), by rw [hx₁], hq'⟩
    · obtain ⟨i, hi, x', response, hrun, hsame, hx'⟩ := ih (by omega) (hr.step hst) hq' hfree
      exact ⟨i + 1, by omega, x', response, .cons hst hrun, by rw [hsame, hx₁], hx'⟩

end Exchange

instance {ι : Type} [DecidableEq ι] [Fintype ι] (H : Hashes) (cut : Cutter) (B : List Bytes)
    (s : State ι) (l : Label ι) : Decidable (Careful H cut B s l) := by
  haveI : DecidablePred (· ∈ {b : Bytes | b ∈ B}) := fun b => inferInstanceAs (Decidable (b ∈ B))
  unfold Careful
  infer_instance

namespace Sample

/-- The object of byte `a` is uploaded to repository 1, and a download of it begins. -/
def downloads : List (LTS.ClientLabel (Label Unit) Unit ReaderEvent) :=
  (uploads () 1 7 [0x61]).map .system ++ [.client () (.ask 1 (.downloadBasic (hashes.sha256 [0x61])))]

/-- Two snapshots omit it; it is staged with no grace, collected and drained. -/
def overtakes : List (LTS.ClientLabel (Label Unit) Unit ReaderEvent) :=
  [.act () (.start (.submitSnapshot 1 "" [] 8)), .act () (.start (.submitSnapshot 1 "" [] 9)),
    .act () (.start (.stage 1 0)), .act () (.next .auto), .advance 1,
    .act () (.start (.collectDue 1)), .act () (.next (.tombstone (hashes.sha256 [0x61]))),
    .act () (.next .auto), .act () (.next (.listing [⟨1, hashes.blake3 [0x61], 1⟩])),
    .act () (.next .auto), .act () (.next .auto)].map .system

theorem byte_collisionFree : hashes.CollisionFree {b | b ∈ [[0x61]]} := by
  intro a ha b hb _
  simp only [List.mem_singleton, Set.mem_ofPred_eq] at ha hb
  rw [ha, hb]

end Sample

open Sample in
/-- The collection overtakes the download: the row has been read, the chunk is gone. -/
theorem download_overtaken : ∃ x : (State Unit × Sources Unit) × (Unit → Exchange),
    (reading hashes maximalCut [[0x61]] fun _ => none).Reachable x ∧
      x.2 () = .asked 1 (.downloadBasic (hashes.sha256 [0x61])) true
        (.done (.failed ⟨500, "object storage error"⟩)) := by
  unfold reading careful
  rw [server, LTS.guard_ofFn, LTS.annotate_ofFn, LTS.clients_ofFn]
  exact LTS.exists_reachable_of_exec (s := ((.initial 0, .empty), fun _ => .idle))
    (Sample.downloads ++ overtakes ++ [.client () .next]) ⟨⟨⟨0, rfl⟩, rfl⟩, rfl⟩ (by decide +kernel)

end GitLfsDelta
