import Mathlib.Data.Fintype.Basic
import GitLfsDelta.L3Server.Success
import GitLfsDelta.L4System.RoundTrip

/-!
# One session, any order of its requests

Chunk PUTs and `finalize_cdc` requests of one open session, in any number and any order, their
transactions and store calls interleaved in any way, with no other request and no expiry.

Up to the publication a PUT only adds: a chunk row with the length of its descriptor, and the
bytes of its chunk (`Grown`, `Filled`). The publication then makes of the database what it makes
of the one at the start, because it adds the rows that are not there yet and reference counts
are those of `object_chunks` (`Db.Inv`). After it nothing changes any more.

* `SharedServing` says how the shared state may differ from the one at the start, before and
  after the publication; `serving_step` that every step keeps it.
* `uploads_confluent`: two such runs end in the same state, if the chunks of the manifest make
  up an object with the session's OID.
* `mismatch_unpublished`: if they do not, `finalize_cdc` answers 422, and nothing is published.
-/
namespace GitLfsDelta

/-! ## Runs of one session -/

/-- Requests of session `x`, with the bytes of its chunks. -/
def Action.UploadsTo (x : SessionRow) (parts : List Bytes) : Action → Prop
  | .start (.uploadCdcChunk r oid u i b) =>
    (r = x.repositoryId ∧ oid = x.objectOid ∧ u = x.id) ∧ parts[i]? = some b
  | .start (.finalizeCdc r oid u) => r = x.repositoryId ∧ oid = x.objectOid ∧ u = x.id
  | .next _ => True
  | _ => False

variable {ι : Type} [DecidableEq ι] {H : Hashes} {cut : Cutter} {B : Set Bytes} {x : SessionRow}
  {parts : List Bytes} {s₀ s s' : State ι}

/-- Only requests of session `x`, and it does not expire. -/
def UploadsTo (x : SessionRow) (parts : List Bytes) (s : State ι) : Label ι → Prop
  | .advance δ => s.clock + δ < x.expiresAt
  | .act _ a => a.UploadsTo x parts

instance (x : SessionRow) (parts : List Bytes) : (a : Action) → Decidable (a.UploadsTo x parts)
  | .start (.uploadCdcChunk _ _ _ _ _) | .start (.finalizeCdc _ _ _) => inferInstanceAs (Decidable (_ ∧ _))
  | .next _ => .isTrue trivial
  | .kill | .start (.beginCdc ..) | .start (.uploadBasic ..) | .start (.submitSnapshot ..)
  | .start (.stage ..) | .start (.collectDue ..) | .start (.reclaimExpiredUploads ..) =>
    .isFalse not_false

instance (x : SessionRow) (parts : List Bytes) (s : State ι) : (l : Label ι) →
    Decidable (UploadsTo x parts s l)
  | .advance δ => inferInstanceAs (Decidable (s.clock + δ < x.expiresAt))
  | .act _ a => inferInstanceAs (Decidable (a.UploadsTo x parts))

def uploading (H : Hashes) (cut : Cutter) (x : SessionRow) (parts : List Bytes) :
    LTS (State ι) (Label ι) :=
  (server H cut).guard (UploadsTo x parts)

/-- Session `x` is open, its object is not published, and no request is in progress; `parts` are
the bytes its manifest names. -/
structure Ready (H : Hashes) (B : Set Bytes) (s₀ : State ι) (x : SessionRow) (parts : List Bytes) :
    Prop where
  free : ∀ p, (s₀.procs p).Free
  mem : x ∈ s₀.db.sessions
  opened : x.state = .opened
  live : s₀.clock < x.expiresAt
  unpublished : s₀.db.objects.get? (x.repositoryId, x.objectOid) = none
  chunks : List.Forall₂ (Named H B) x.manifest.chunks parts
  stored : ∀ c b, s₀.store x.repositoryId c = some b → b ∈ B

/-- A run in which a `finalize_cdc` begins after every chunk has been stored, and every request
has been answered at the end. -/
def Completes (H : Hashes) (cut : Cutter) (x : SessionRow) (parts : List Bytes) (s₀ s : State ι) :
    Prop :=
  ∃ ls s₁ p ls', (uploading H cut x parts).Run s₀ ls s₁ ∧
    (∀ d ∈ x.manifest.chunks, s₁.store x.repositoryId d.id ≠ none) ∧
    (uploading H cut x parts).Run s₁
      (.act p (.start (.finalizeCdc x.repositoryId x.objectOid x.id)) :: ls') s ∧
    ∀ p, (s.procs p).Free

/-! ## What may change -/

/-- The store has gained chunks of the session. -/
def Filled (x : SessionRow) (parts : List Bytes) (σ₀ σ : Store) : Prop :=
  ∀ r c, σ r c = σ₀ r c ∨ σ₀ r c = none ∧ r = x.repositoryId ∧ ∃ (i : Nat) (d : ChunkDescriptor) (b : Bytes),
    x.manifest.chunks[i]? = some d ∧ parts[i]? = some b ∧ d.id = c ∧ σ r c = some b

/-- The table has gained rows of chunks of the session; counts aside. -/
structure Grown (x : SessionRow) (C₀ C : Table ChunkRow.key) : Prop where
  old : ∀ k₀ ∈ C₀, ∃ k ∈ C, k.key = k₀.key ∧ k.size = k₀.size
  new : ∀ k ∈ C, (∃ k₀ ∈ C₀, k.key = k₀.key ∧ k.size = k₀.size) ∨
    ∃ d ∈ x.manifest.chunks, k.key = (x.repositoryId, d.id) ∧ k.size = d.length.toNat

/-- The row `publish_manifest` inserts. -/
def SessionRow.objectRow (x : SessionRow) : ObjectRow :=
  ⟨x.repositoryId, x.manifest.objectOid, x.manifest.objectSize.toNat, x.manifest⟩

structure Unpublished (w₀ w : Shared) : Prop where
  objects : w.db.objects = w₀.db.objects
  sessions : w.db.sessions = w₀.db.sessions
  metric : w.logicalUploaded = w₀.logicalUploaded

structure Published (x : SessionRow) (w₀ w : Shared) : Prop where
  objects : w.db.objects = w₀.db.objects.insert x.objectRow
  sessions : w.db.sessions = (finalizeSession w₀.db x.id).sessions
  metric : w.logicalUploaded = w₀.logicalUploaded + x.manifest.objectSize.toNat
  stored : ∀ d ∈ x.manifest.chunks, w.store x.repositoryId d.id ≠ none

/-- What the requests of the session may make of the shared state. -/
structure SharedServing (x : SessionRow) (parts : List Bytes) (w₀ w : Shared) : Prop where
  locks : w.locks = []
  live : w.clock < x.expiresAt
  store : Filled x parts w₀.store w.store
  chunks : Grown x w₀.db.chunks w.db.chunks
  phase : Unpublished w₀ w ∨ Published x w₀ w

/-- A request of the session, over store `σ`. -/
def Proc.Uploads (x : SessionRow) (parts : List Bytes) (σ : Store) : Proc → Prop
  | .registering r _ d b => r = x.repositoryId ∧
    ∃ i : Nat, x.manifest.chunks[i]? = some d ∧ parts[i]? = some b
  | .storing r c b => r = x.repositoryId ∧
    ∃ (i : Nat) (d : ChunkDescriptor), x.manifest.chunks[i]? = some d ∧ d.id = c ∧ parts[i]? = some b
  | .verifying r oid u m todo hashed =>
    (r = x.repositoryId ∧ oid = x.objectOid ∧ u = x.id ∧ m = x.manifest) ∧
    ∃ n, todo = x.manifest.chunks.drop n ∧ hashed = (parts.take n).flatten ∧
      ∀ d ∈ x.manifest.chunks.take n, σ x.repositoryId d.id ≠ none
  | q => q.Free

theorem Filled.refl (σ : Store) : Filled x parts σ σ := fun _ _ => .inl rfl

theorem Filled.put {σ₀ σ : Store} (h : Filled x parts σ₀ σ) {i : Nat} {d : ChunkDescriptor}
    {b : Bytes} (hd : x.manifest.chunks[i]? = some d) (hb : parts[i]? = some b) :
    Filled x parts σ₀ (σ.create x.repositoryId d.id b) := by
  intro r c
  by_cases hnew : r = x.repositoryId ∧ c = d.id ∧ (σ x.repositoryId d.id).isNone
  · have hget : σ.create x.repositoryId d.id b r c = some b := if_pos hnew
    obtain ⟨rfl, rfl, hnone⟩ := hnew
    rw [Option.isNone_iff_eq_none] at hnone
    refine .inr ⟨?_, rfl, i, d, b, hd, hb, rfl, hget⟩
    rcases h x.repositoryId d.id with he | ⟨h0, -⟩
    · rw [← he, hnone]
    · exact h0
  · have hget : σ.create x.repositoryId d.id b r c = σ r c := if_neg hnew
    rw [hget]
    exact h r c

theorem Grown.refl (C : Table ChunkRow.key) : Grown x C C :=
  ⟨fun k hk => ⟨k, hk, rfl, rfl⟩, fun k hk => .inl ⟨k, hk, rfl, rfl⟩⟩

/-- Rows keep their sizes, and new ones have those of the manifest. -/
theorem Grown.next {C₀ C C' : Table ChunkRow.key} (h : Grown x C₀ C)
    (keep : ∀ k ∈ C, ∃ k' ∈ C', k'.key = k.key ∧ k'.size = k.size)
    (rows : ∀ k' ∈ C', (∃ k ∈ C, k'.key = k.key ∧ k'.size = k.size) ∨
      ∃ d ∈ x.manifest.chunks, k'.key = (x.repositoryId, d.id) ∧ k'.size = d.length.toNat) :
    Grown x C₀ C' := by
  refine ⟨fun k₀ hk₀ => ?_, fun k' hk' => ?_⟩
  · obtain ⟨k, hk, hkey, hsize⟩ := h.old k₀ hk₀
    obtain ⟨k', hk', hkey', hsize'⟩ := keep k hk
    exact ⟨k', hk', hkey'.trans hkey, hsize'.trans hsize⟩
  · rcases rows k' hk' with ⟨k, hk, hkey, hsize⟩ | hd
    · rcases h.new k hk with ⟨k₀, hk₀, hkey₀, hsize₀⟩ | ⟨d, hd, hkey₀, hsize₀⟩
      · exact .inl ⟨k₀, hk₀, hkey.trans hkey₀, hsize.trans hsize₀⟩
      · exact .inr ⟨d, hd, hkey.trans hkey₀, hsize.trans hsize₀⟩
    · exact .inr hd

/-! ## Steps -/

section Steps

variable {now : Nat} {w w' : Shared} {q q' : Proc}

theorem Proc.Uploads.mono {σ σ' : Store} (h : q.Uploads x parts σ)
    (hmono : ∀ c, σ x.repositoryId c ≠ none → σ' x.repositoryId c ≠ none) :
    q.Uploads x parts σ' := by
  cases q with
  | verifying r oid u m todo hashed =>
    obtain ⟨hx, n, htodo, hhashed, hstored⟩ := h
    exact ⟨hx, n, htodo, hhashed, fun d hd => hmono d.id (hstored d hd)⟩
  | _ => exact h

theorem Proc.Uploads.of_free {σ : Store} (h : q.Free) : q.Uploads x parts σ := by
  cases q <;> first | exact h | cases h

omit [DecidableEq ι] in
theorem Ready.part (h : Ready H B s₀ x parts) {i : Nat} {d : ChunkDescriptor}
    (hd : x.manifest.chunks[i]? = some d) : ∃ b, parts[i]? = some b ∧ Named H B d b := by
  obtain ⟨hi, rfl⟩ := List.getElem?_eq_some_iff.1 hd
  have hi' : i < parts.length := h.chunks.length_eq ▸ hi
  exact ⟨parts[i], List.getElem?_eq_getElem hi', List.Forall₂.get h.chunks hi hi'⟩

omit [DecidableEq ι] in
/-- The bytes under the id of a chunk are the chunk. -/
theorem Ready.part_of_stored (h : Ready H B s₀ x parts) (hok : StoreOk H s₀.store)
    (hB : H.CollisionFree B) {σ : Store} (hσ : Filled x parts s₀.store σ) {i : Nat}
    {d : ChunkDescriptor} {b : Bytes} (hd : x.manifest.chunks[i]? = some d)
    (hb : σ x.repositoryId d.id = some b) : parts[i]? = some b ∧ Named H B d b := by
  obtain ⟨b₀, hb₀, hmem₀, hid₀, hlen₀⟩ := h.part hd
  obtain ⟨hmem, hid⟩ : b ∈ B ∧ H.blake3 b = d.id := by
    rcases hσ x.repositoryId d.id with he | ⟨-, -, j, d', b', hd', hb', hid', hget⟩
    · rw [he] at hb
      exact ⟨h.stored _ _ hb, hok _ _ _ hb⟩
    · obtain ⟨b'', hb'', hmem, hid, -⟩ := h.part hd'
      rw [hb', Option.some.injEq] at hb''
      rw [hget, Option.some.injEq] at hb
      subst hb'' hb
      exact ⟨hmem, hid.trans hid'⟩
  obtain rfl := hB hmem hmem₀ (hid.trans hid₀.symm)
  exact ⟨hb₀, hmem, hid, hlen₀⟩

/-- The row of the session, before and after the publication. -/
theorem SharedServing.session {w₀ : Shared} (hw : SharedServing x parts w₀ w)
    (hx : x ∈ w₀.db.sessions) {y : SessionRow} (hy : y ∈ w.db.sessions) (hid : y.id = x.id) :
    y = x ∧ Unpublished w₀ w ∨ y = { x with state := .finalized } ∧ Published x w₀ w := by
  rcases hw.phase with h | h
  · rw [h.sessions] at hy
    exact .inl ⟨Table.eq_of_key hy hx hid, h⟩
  · rw [h.sessions] at hy
    rcases (Table.mem_updateWhere (by intro; rfl)).1 hy with ⟨-, hne⟩ | ⟨y₀, hy₀, hid₀, rfl⟩
    · simp [hid] at hne
    · obtain rfl := Table.eq_of_key hy₀ hx (by simpa using hid₀)
      exact .inr ⟨rfl, h⟩

theorem SharedServing.register {w₀ : Shared} (hw : SharedServing x parts w₀ w) {u : Uuid}
    {d : ChunkDescriptor} {db : Db} (hd : d ∈ x.manifest.chunks)
    (h : registerChunk w.db x.repositoryId u d = .ok db) :
    SharedServing x parts w₀ { w with db := db } := by
  have hrows := registerChunk_rows h
  obtain ⟨⟨C, L, rfl⟩, hgrow, -⟩ := registerChunk_ok h
  refine ⟨hw.locks, hw.live, hw.store, hw.chunks.next ?_ ?_, ?_⟩
  · exact fun k hk => ⟨k, hgrow.keep k hk, rfl, rfl⟩
  · intro k hk
    rcases hrows k hk with hk | hk
    · exact .inl ⟨k, hk, rfl, rfl⟩
    · exact .inr ⟨d, hd, hk⟩
  · rcases hw.phase with h | h
    · exact .inl ⟨h.objects, h.sessions, h.metric⟩
    · exact .inr ⟨h.objects, h.sessions, h.metric, h.stored⟩

theorem create_ne_none {σ : Store} {r r' : Uuid} {c c' : ChunkId} {b : Bytes} (h : σ r' c' ≠ none) :
    σ.create r c b r' c' ≠ none := by
  obtain ⟨b', hb'⟩ := Option.ne_none_iff_exists'.1 h
  rw [create_of_some hb']
  exact Option.some_ne_none b'

theorem SharedServing.put {w₀ : Shared} (hw : SharedServing x parts w₀ w) {i : Nat}
    {d : ChunkDescriptor} {b : Bytes} (hd : x.manifest.chunks[i]? = some d)
    (hb : parts[i]? = some b) :
    SharedServing x parts w₀ { w with store := w.store.create x.repositoryId d.id b } := by
  refine ⟨hw.locks, hw.live, hw.store.put hd hb, hw.chunks, ?_⟩
  rcases hw.phase with h | h
  · exact .inl ⟨h.objects, h.sessions, h.metric⟩
  · exact .inr ⟨h.objects, h.sessions, h.metric, fun d' hd' => create_ne_none (h.stored d' hd')⟩

omit [DecidableEq ι] in
/-- A publication in the session: the first one counts, the others change nothing. -/
theorem SharedServing.publish (hready : Ready H B s₀ x parts)
    (hoid : x.manifest.objectOid = x.objectOid) (hw : SharedServing x parts s₀.toShared w)
    (hstored : ∀ d ∈ x.manifest.chunks, w.store x.repositoryId d.id ≠ none) {b : Bool} {db : Db}
    (h : publishManifest w.db w.clock x.repositoryId x.id x.manifest = .ok (b, db)) :
    (Unpublished s₀.toShared w ∧ SharedServing x parts s₀.toShared { w with
        db := db
        logicalUploaded := w.logicalUploaded + if b then x.manifest.objectSize.toNat else 0 } ∧
      Published x s₀.toShared { w with
        db := db
        logicalUploaded := w.logicalUploaded + if b then x.manifest.objectSize.toNat else 0 }) ∨
    Published x s₀.toShared w ∧ b = false ∧ db = w.db := by
  obtain ⟨-, y, hy, ⟨hid, -⟩, hcase⟩ := publishManifest_ok h
  rcases hw.session hready.mem hy hid with ⟨rfl, hun⟩ | ⟨rfl, hpub⟩
  · have hnone : w.db.objects.get? (y.repositoryId, y.manifest.objectOid) = none := by
      rw [hun.objects, hoid]
      exact hready.unpublished
    obtain ⟨rfl, hobjects, hsessions, hkeep⟩ := publishManifest_first hy hready.opened hnone h
    have hp : Published y s₀.toShared { w with
        db := db
        logicalUploaded := w.logicalUploaded + if true then y.manifest.objectSize.toNat else 0 } := by
      refine ⟨?_, ?_, ?_, hstored⟩
      · rw [hobjects, hun.objects]; rfl
      · rw [hsessions]
        simp only [finalizeSession, hun.sessions]
      · simp only [if_true, hun.metric]
    exact .inl ⟨hun, ⟨hw.locks, hw.live, hw.store, hw.chunks.next hkeep (publishManifest_sizes h),
      .inr hp⟩, hp⟩
  · rcases hcase with ⟨-, rfl, rfl⟩ | ⟨⟨ho, -⟩, -⟩
    · exact .inr ⟨hpub, rfl, rfl⟩
    · cases ho

/-- What a step of a request of the session leaves behind. -/
structure Served (x : SessionRow) (parts : List Bytes) (w₀ w w' : Shared) (q' : Proc) : Prop where
  shared : SharedServing x parts w₀ w'
  proc : q'.Uploads x parts w'.store
  store : ∀ c, w.store x.repositoryId c ≠ none → w'.store x.repositoryId c ≠ none
  phase : Published x w₀ w → Published x w₀ w'

theorem Served.answer {w₀ : Shared} (hw : SharedServing x parts w₀ w) (response : Response) :
    Served x parts w₀ w w (.done response) :=
  ⟨hw, trivial, fun _ h => h, id⟩

omit [DecidableEq ι] in
/-- `finalize_cdc` reads one chunk. -/
theorem SharedServing.verify (hready : Ready H B s₀ x parts) (hok : StoreOk H s₀.store)
    (hB : H.CollisionFree B) (hw : SharedServing x parts s₀.toShared w) {n : Nat}
    {d : ChunkDescriptor} {todo : List ChunkDescriptor}
    (htodo : d :: todo = x.manifest.chunks.drop n)
    (hstored : ∀ d ∈ x.manifest.chunks.take n, w.store x.repositoryId d.id ≠ none) {b : Bytes}
    (hv : verifyChunk H w x.repositoryId d = .ok b) :
    todo = x.manifest.chunks.drop (n + 1) ∧
      (parts.take n).flatten ++ b = (parts.take (n + 1)).flatten ∧
      ∀ d ∈ x.manifest.chunks.take (n + 1), w.store x.repositoryId d.id ≠ none := by
  have hd : x.manifest.chunks[n]? = some d := by
    rw [← Nat.add_zero n, ← List.getElem?_drop, ← htodo]
    rfl
  obtain ⟨hstore, -, -⟩ := verifyChunk_ok hv
  have hb := (hready.part_of_stored hok hB hw.store hd hstore).1
  refine ⟨?_, ?_, ?_⟩
  · rw [← List.drop_drop, ← htodo]
    rfl
  · rw [List.take_add_one, hb, List.flatten_append]
    simp
  · rw [List.take_add_one, hd]
    intro d' hd'
    rcases List.mem_append.1 hd' with hd' | hd'
    · exact hstored d' hd'
    · obtain rfl : d' = d := by simpa using hd'
      rw [hstore]
      exact Option.some_ne_none b

omit [DecidableEq ι] in
/-- **A step of a request of the session.** -/
theorem SharedServing.next (hready : Ready H B s₀ x parts) (hok : StoreOk H s₀.store)
    (hB : H.CollisionFree B) (hoid : x.manifest.objectOid = x.objectOid)
    (hw : SharedServing x parts s₀.toShared w) (hq : q.Uploads x parts w.store) {choice : Choice}
    (h : procNext H w q choice = some (w', q')) : Served x parts s₀.toShared w w' q' := by
  cases q with
  | registering r u d b =>
    obtain ⟨rfl, i, hd, hb⟩ := hq
    cases choice with
    | auto =>
      simp only [procNext] at h
      split at h; · cases h
      split at h
      · cases h
        exact .answer hw _
      · rename_i db hreg
        cases h
        obtain ⟨⟨C, L, rfl⟩, -⟩ := registerChunk_ok hreg
        exact ⟨hw.register (List.mem_of_getElem? hd) hreg, ⟨rfl, i, d, hd, rfl, hb⟩, fun _ h => h,
          fun h => ⟨h.objects, h.sessions, h.metric, h.stored⟩⟩
    | tombstone => cases h
    | listing => cases h
  | storing r c b =>
    obtain ⟨rfl, i, d, hd, rfl, hb⟩ := hq
    cases choice with
    | auto =>
      simp only [procNext] at h
      split at h
      · cases h
        exact .answer hw _
      · rename_i store hput
        cases h
        obtain ⟨-, rfl⟩ := putVerified_ok.1 hput
        exact ⟨hw.put hd hb, trivial, fun _ h => create_ne_none h, fun h =>
          ⟨h.objects, h.sessions, h.metric, fun d' hd' => create_ne_none (h.stored d' hd')⟩⟩
    | tombstone => cases h
    | listing => cases h
  | verifying r oid u m todo hashed =>
    obtain ⟨⟨rfl, rfl, rfl, rfl⟩, n, htodo, rfl, hstored⟩ := hq
    cases todo with
    | cons d todo =>
      cases choice with
      | auto =>
        simp only [procNext] at h
        split at h
        · cases h
          exact .answer hw _
        · rename_i b hv
          cases h
          obtain ⟨htodo', hflat, hstored'⟩ := hw.verify hready hok hB htodo hstored hv
          exact ⟨hw, ⟨⟨rfl, rfl, rfl, rfl⟩, n + 1, htodo', hflat, hstored'⟩, fun _ h => h, id⟩
      | tombstone => cases h
      | listing => cases h
    | nil =>
      have hall : ∀ d ∈ x.manifest.chunks, w.store x.repositoryId d.id ≠ none := by
        rw [List.take_of_length_le (List.drop_eq_nil_iff.1 htodo.symm)] at hstored
        exact hstored
      rcases procNext_verified h with ⟨-, rfl, rfl⟩ | ⟨-, -, ⟨e, -, rfl, rfl⟩ | ⟨b, db, hp, rfl, rfl⟩⟩
      · exact .answer hw _
      · exact .answer hw _
      · rcases hw.publish hready hoid hall hp with ⟨-, hw', hp'⟩ | ⟨-, rfl, rfl⟩
        · exact ⟨hw', trivial, fun _ h => h, fun _ => hp'⟩
        · exact .answer hw _
  | idle => cases choice <;> cases h
  | done => cases choice <;> cases h
  | stopped => cases choice <;> cases h
  | _ => cases hq

omit [DecidableEq ι] in
/-- **A request of the session begins.** -/
theorem SharedServing.start (hready : Ready H B s₀ x parts)
    (hw : SharedServing x parts s₀.toShared w) {request : Request}
    (hreq : (Action.start request).UploadsTo x parts)
    (h : procStart H cut now w request = some (w', q')) : Served x parts s₀.toShared w w' q' := by
  -- the manifest is the one at the start
  have hmanifest : ∀ y ∈ w.db.sessions, y.id = x.id → y.manifest = x.manifest := by
    intro y hy hid
    rcases hw.session hready.mem hy hid with ⟨rfl, -⟩ | ⟨rfl, -⟩ <;> rfl
  cases request with
  | uploadCdcChunk r oid u i b =>
    obtain ⟨⟨rfl, rfl, rfl⟩, hb⟩ := hreq
    simp only [procStart] at h
    split at h
    · cases h
      exact .answer hw _
    · rename_i d hd
      cases h
      obtain ⟨y, hy, ⟨hid, -, -⟩, -, hget, -⟩ := acceptChunk_ok hd
      rw [hmanifest y hy hid] at hget
      exact ⟨hw, ⟨rfl, i, hget, hb⟩, fun _ h => h, id⟩
  | finalizeCdc r oid u =>
    obtain ⟨rfl, rfl, rfl⟩ := hreq
    simp only [procStart] at h
    split at h
    · cases h
      exact .answer hw _
    · cases h
      exact .answer hw _
    · rename_i m hm
      cases h
      obtain ⟨y, hy, ⟨hid, -, -⟩, -, rfl, -⟩ := loadFinalizableUpload_ok hm
      rw [hmanifest y hy hid]
      exact ⟨hw, ⟨⟨rfl, rfl, rfl, rfl⟩, 0, rfl, rfl, by simp⟩, fun _ h => h, id⟩
  | _ => cases hreq

end Steps

/-! ## Runs -/

/-- What the rest is about: a reachable state and an open session in it. -/
structure Setting (H : Hashes) (cut : Cutter) (B : Set Bytes) (s₀ : State ι) (x : SessionRow)
    (parts : List Bytes) : Prop extends Ready H B s₀ x parts where
  reachable : (server H cut).Reachable s₀
  collisionFree : H.CollisionFree B
  store : StoreOk H s₀.store
  locks : s₀.locks = []
  oid : x.manifest.objectOid = x.objectOid
  valid : x.manifest.validate = .ok ()

theorem Ready.setting (hready : Ready H B s₀ x parts) (hcut : cut.Conforms)
    (hr : (server H cut).Reachable s₀) (hB : H.CollisionFree B) : Setting H cut B s₀ x parts := by
  obtain ⟨hvalid, hoid, -⟩ := ((sessionInv H hcut).reachable hr).valid x hready.mem
  refine { hready with
    reachable := hr
    collisionFree := hB
    store := ((server_inv H cut).reachable hr).2.store
    locks := ?_
    oid := hoid
    valid := hvalid }
  -- a request that is not in progress holds no lock
  apply List.eq_nil_iff_forall_not_mem.2
  intro k hk
  obtain ⟨p, hp⟩ := ((locks_held H cut).reachable hr).2 k hk
  rw [(hready.free p).held] at hp
  cases hp

structure Serving (x : SessionRow) (parts : List Bytes) (s₀ s : State ι) : Prop where
  shared : SharedServing x parts s₀.toShared s.toShared
  procs : ∀ p, (s.procs p).Uploads x parts s.store

theorem Setting.serving (h : Setting H cut B s₀ x parts) : Serving x parts s₀ s₀ :=
  ⟨⟨h.locks, h.live, .refl _, .refl _, .inl ⟨rfl, rfl, rfl⟩⟩, fun p => .of_free (h.free p)⟩

/-- The process that moves is served; the others wait. -/
theorem Serving.act (h : Setting H cut B s₀ x parts) (hs : Serving x parts s₀ s) {p : ι}
    {a : Action} (ha : a.UploadsTo x parts) (hst : step H cut s (.act p a) = some s') :
    ∃ w q, procAct H cut s.hist.now s.toShared (s.procs p) a = some (w, q) ∧ s' = s.move p w q ∧
      Served x parts s₀.toShared s.toShared w q := by
  obtain ⟨w, q, hact, rfl⟩ := step_act hst
  refine ⟨w, q, hact, rfl, ?_⟩
  cases a with
  | kill => cases ha
  | start request =>
    simp only [procAct] at hact
    split at hact
    · exact hs.shared.start h.toReady ha hact
    · cases hact
  | next choice => exact hs.shared.next h.toReady h.store h.collisionFree h.oid (hs.procs p) hact

theorem serving_step (h : Setting H cut B s₀ x parts) (hs : Serving x parts s₀ s) {l : Label ι}
    (hst : (uploading H cut x parts).step s l s') : Serving x parts s₀ s' := by
  obtain ⟨hguard, hst⟩ := hst
  cases l with
  | advance δ =>
    simp only [server, LTS.ofFn, step, Option.some.injEq] at hst
    subst hst
    refine ⟨⟨hs.shared.locks, hguard, hs.shared.store, hs.shared.chunks, ?_⟩, hs.procs⟩
    rcases hs.shared.phase with h | h
    · exact .inl ⟨h.objects, h.sessions, h.metric⟩
    · exact .inr ⟨h.objects, h.sessions, h.metric, h.stored⟩
  | act p a =>
    obtain ⟨w, q, -, rfl, hserved⟩ := hs.act h hguard hst
    refine ⟨hserved.shared, fun p' => ?_⟩
    rw [move_procs]
    split
    · exact hserved.proc
    · exact (hs.procs p').mono hserved.store

theorem Setting.run (h : Setting H cut B s₀ x parts) {ls : List (Label ι)}
    (hrun : (uploading H cut x parts).Run s₀ ls s) : Serving x parts s₀ s :=
  hrun.preserve h.serving fun _ _ _ _ hs hst => serving_step h hs hst

/-! ## A finalize that begins when everything is stored -/

/-- The object is published, or process `p` is about to do it. -/
def Assured (x : SessionRow) (parts : List Bytes) (s₀ : State ι) (p : ι) (s : State ι) : Prop :=
  Published x s₀.toShared s.toShared ∨
    (∀ d ∈ x.manifest.chunks, s.store x.repositoryId d.id ≠ none) ∧
      ∃ n, s.procs p = .verifying x.repositoryId x.objectOid x.id x.manifest
        (x.manifest.chunks.drop n) (parts.take n).flatten

omit [DecidableEq ι] in
theorem Published.row {w : Shared} (hpub : Published x s₀.toShared w) (hx : x ∈ s₀.db.sessions) :
    { x with state := .finalized } ∈ w.db.sessions := by
  rw [hpub.sessions]
  exact (Table.mem_updateWhere (by intro; rfl)).2 (.inr ⟨x, hx, by simp, rfl⟩)

theorem Setting.exclusive (h : Setting H cut B s₀ x parts) {w : Shared}
    (hun : Unpublished s₀.toShared w) (hpub : Published x s₀.toShared w) : False := by
  have hrow := hpub.row h.mem
  rw [hun.sessions] at hrow
  have hx := Table.eq_of_key hrow h.mem rfl
  have hopen := h.opened
  rw [← hx] at hopen
  cases hopen

/-- The session is there, so `publish_manifest` succeeds. -/
theorem Setting.publishes (h : Setting H cut B s₀ x parts) {w : Shared} (hi : w.db.Inv)
    (hw : SharedServing x parts s₀.toShared w) :
    ∃ b db, publishManifest w.db w.clock x.repositoryId x.id x.manifest = .ok (b, db) := by
  rcases hw.phase with hun | hpub
  · have hx : x ∈ w.db.sessions := by
      rw [hun.sessions]
      exact h.mem
    obtain ⟨b, db, hok, -⟩ := publishManifest_live hi hx h.opened hw.live h.oid.symm h.valid
    exact ⟨b, db, hok⟩
  · exact ⟨_, _, publishManifest_finalized (hpub.row h.mem) w.clock rfl h.oid.symm h.valid⟩

/-- No read of the process fails, and its hash is right. -/
theorem Assured.next (h : Setting H cut B s₀ x parts) (hsha : H.sha256 parts.flatten = x.objectOid)
    {w w' : Shared} {q : Proc} (hi : w.db.Inv) (hw : SharedServing x parts s₀.toShared w)
    (hall : ∀ d ∈ x.manifest.chunks, w.store x.repositoryId d.id ≠ none) {n : Nat} {choice : Choice}
    (hact : procNext H w (.verifying x.repositoryId x.objectOid x.id x.manifest
      (x.manifest.chunks.drop n) (parts.take n).flatten) choice = some (w', q)) :
    Published x s₀.toShared w' ∨ w' = w ∧
      q = .verifying x.repositoryId x.objectOid x.id x.manifest (x.manifest.chunks.drop (n + 1))
        (parts.take (n + 1)).flatten := by
  have hlen := h.chunks.length_eq
  cases htodo : x.manifest.chunks.drop n with
  | nil =>
    have hn : x.manifest.chunks.length ≤ n := List.drop_eq_nil_iff.1 htodo
    rw [htodo, List.take_of_length_le (by omega)] at hact
    rcases procNext_verified hact with ⟨hne, -⟩ | ⟨-, -, ⟨e, he, -⟩ | ⟨b, db, hp, rfl, -⟩⟩
    · exact absurd hsha hne
    · obtain ⟨b, db, hp⟩ := h.publishes hi hw
      rw [hp] at he
      cases he
    · rcases hw.publish h.toReady h.oid hall hp with ⟨-, -, hpub⟩ | ⟨hpub, rfl, rfl⟩
      · exact .inl hpub
      · exact .inl ⟨hpub.objects, hpub.sessions, hpub.metric, hpub.stored⟩
  | cons d todo =>
    have hd : x.manifest.chunks[n]? = some d := by
      rw [← Nat.add_zero n, ← List.getElem?_drop, htodo]
      rfl
    obtain ⟨b, hb⟩ := Option.ne_none_iff_exists'.1 (hall d (List.mem_of_getElem? hd))
    obtain ⟨hpart, -, hid, hblen⟩ := h.part_of_stored h.store h.collisionFree hw.store hd hb
    have htodo' : todo = x.manifest.chunks.drop (n + 1) := by
      rw [← List.drop_drop, htodo]
      rfl
    have hflat : (parts.take n).flatten ++ b = (parts.take (n + 1)).flatten := by
      rw [List.take_add_one, hpart, List.flatten_append]
      simp
    rw [htodo] at hact
    cases choice with
    | auto =>
      simp only [procNext, verifyChunk_stored hb hid hblen, Option.some.injEq, Prod.mk.injEq] at hact
      obtain ⟨rfl, rfl⟩ := hact
      exact .inr ⟨rfl, by rw [hflat, htodo']⟩
    | tombstone => cases hact
    | listing => cases hact

theorem Assured.step (h : Setting H cut B s₀ x parts) (hsha : H.sha256 parts.flatten = x.objectOid)
    {p : ι} (hr : (server H cut).Reachable s) (hs : Serving x parts s₀ s)
    (hp : Assured x parts s₀ p s) {l : Label ι} (hst : (uploading H cut x parts).step s l s') :
    Assured x parts s₀ p s' := by
  obtain ⟨hguard, hst⟩ := hst
  cases l with
  | advance δ =>
    simp only [server, LTS.ofFn, GitLfsDelta.step, Option.some.injEq] at hst
    subst hst
    rcases hp with hp | hp
    · exact .inl ⟨hp.objects, hp.sessions, hp.metric, hp.stored⟩
    · exact .inr hp
  | act p' a =>
    obtain ⟨w, q, hact, rfl, hserved⟩ := hs.act h hguard hst
    rcases hp with hp | ⟨hall, n, hproc⟩
    · exact .inl (hserved.phase hp)
    have hall' : ∀ d ∈ x.manifest.chunks, w.store x.repositoryId d.id ≠ none :=
      fun d hd => hserved.store d.id (hall d hd)
    by_cases hpp : p = p'
    · subst hpp
      rw [hproc] at hact
      cases a with
      | kill => cases hguard
      | start request => simp [procAct, Proc.Free] at hact
      | next choice =>
        have hi := ((server_inv H cut).reachable hr).2.db
        rcases Assured.next h hsha hi hs.shared hall hact with hpub | ⟨-, rfl⟩
        · exact .inl hpub
        · exact .inr ⟨hall', n + 1, move_procs_self _ _ _ _⟩
    · refine .inr ⟨hall', n, ?_⟩
      rw [move_procs, if_neg hpp]
      exact hproc

/-- The session has been finalized. -/
def Db.Finalized (db : Db) (u : Uuid) : Prop :=
  ∃ y ∈ db.sessions, y.id = u ∧ y.state = .finalized

instance (db : Db) (u : Uuid) : Decidable (db.Finalized u) :=
  inferInstanceAs (Decidable (∃ y ∈ db.sessions, y.id = u ∧ y.state = .finalized))

/-- Finalized means published. -/
theorem Setting.finalized_iff (h : Setting H cut B s₀ x parts) {w : Shared}
    (hw : SharedServing x parts s₀.toShared w) :
    w.db.Finalized x.id ↔ Published x s₀.toShared w := by
  constructor
  · intro hf
    obtain ⟨y, hy, hid, hstate⟩ := hf
    rcases hw.session h.mem hy hid with ⟨rfl, -⟩ | ⟨-, hpub⟩
    · rw [h.opened] at hstate
      cases hstate
    · exact hpub
  · intro hpub
    exact ⟨_, hpub.row h.mem, rfl, rfl⟩

theorem Setting.metric (h : Setting H cut B s₀ x parts) {w : Shared}
    (hw : SharedServing x parts s₀.toShared w) : w.logicalUploaded = s₀.logicalUploaded +
      if w.db.Finalized x.id then x.manifest.objectSize.toNat else 0 := by
  by_cases hf : w.db.Finalized x.id
  · rw [if_pos hf]
    exact ((h.finalized_iff hw).1 hf).metric
  · rw [if_neg hf]
    rcases hw.phase with hun | hpub
    · exact hun.metric
    · exact absurd ((h.finalized_iff hw).2 hpub) hf

/-- `finalize_cdc` in a session that is done, or not. -/
theorem Setting.begin_finalize (h : Setting H cut B s₀ x parts) (hs : Serving x parts s₀ s) {p : ι}
    (hst : step H cut s (.act p (.start (.finalizeCdc x.repositoryId x.objectOid x.id))) = some s') :
    Published x s₀.toShared s.toShared ∧ s'.toShared = s.toShared ∧ s'.procs p = .done .noContent ∨
    Unpublished s₀.toShared s.toShared ∧ s'.toShared = s.toShared ∧
      s'.procs p = .verifying x.repositoryId x.objectOid x.id x.manifest x.manifest.chunks [] := by
  obtain ⟨w, q, hact, rfl⟩ := step_act hst
  simp only [procAct] at hact
  split at hact
  · simp only [procStart] at hact
    rcases hs.shared.phase with hun | hpub
    · have hx : x ∈ s.db.sessions := by
        rw [hun.sessions]
        exact h.mem
      rw [loadFinalizable_live hx (.inl ⟨h.opened, hs.shared.live⟩), h.opened] at hact
      simp only [reduceCtorEq, decide_false, Option.some.injEq, Prod.mk.injEq] at hact
      obtain ⟨rfl, rfl⟩ := hact
      exact .inr ⟨hun, rfl, move_procs_self _ _ _ _⟩
    · have hload := loadFinalizable_live (hpub.row h.mem) (t := s.clock) (.inr rfl)
      simp only [decide_true] at hload
      rw [hload] at hact
      simp only [Option.some.injEq, Prod.mk.injEq] at hact
      obtain ⟨rfl, rfl⟩ := hact
      exact .inl ⟨hpub, rfl, move_procs_self _ _ _ _⟩
  · cases hact

/-- **A finalize that begins when everything is stored leaves the object published.** -/
theorem Completes.published (h : Setting H cut B s₀ x parts)
    (hsha : H.sha256 parts.flatten = x.objectOid) (hc : Completes H cut x parts s₀ s) :
    Serving x parts s₀ s ∧ Published x s₀.toShared s.toShared := by
  obtain ⟨ls, s₁, p, ls', hrun, hall, hrest, hfree⟩ := hc
  have hs₁ := h.run hrun
  have hr₁ : (server H cut).Reachable s₁ := h.reachable.run hrun.of_guard
  cases hrest with
  | @cons _ s₂ _ _ _ hst hrest =>
    have hs₂ := serving_step h hs₁ hst
    have hp₂ : Assured x parts s₀ p s₂ := by
      rcases h.begin_finalize hs₁ hst.2 with ⟨hpub, hshared, -⟩ | ⟨-, hshared, hproc⟩
      · exact .inl (hshared ▸ hpub)
      · exact .inr ⟨fun d hd => by rw [hshared]; exact hall d hd, 0, hproc⟩
    have hend := hrest.preserve (P := fun s => (server H cut).Reachable s ∧ Serving x parts s₀ s ∧
        Assured x parts s₀ p s) ⟨hr₁.step hst.2, hs₂, hp₂⟩ fun a l b _ ha hst =>
      ⟨ha.1.step hst.2, serving_step h ha.2.1 hst, ha.2.2.step h hsha ha.1 ha.2.1 hst⟩
    refine ⟨hend.2.1, ?_⟩
    rcases hend.2.2 with hpub | ⟨-, n, hproc⟩
    · exact hpub
    · have := hfree p
      rw [hproc] at this
      cases this

/-! ## Two runs -/

/-- The same rows of the four tables, and the same bytes. -/
structure Agree (s s' : State ι) : Prop where
  objects : ∀ o, o ∈ s.db.objects ↔ o ∈ s'.db.objects
  objectChunks : ∀ row, row ∈ s.db.objectChunks ↔ row ∈ s'.db.objectChunks
  chunks : ∀ k, k ∈ s.db.chunks ↔ k ∈ s'.db.chunks
  sessions : ∀ y, y ∈ s.db.sessions ↔ y ∈ s'.db.sessions
  store : s.store = s'.store

theorem references_congr {O O' : Table ObjectChunkRow.key} (h : ∀ row, row ∈ O ↔ row ∈ O') (r : Uuid)
    (c : ChunkId) : references O r c = references O' r c :=
  ((List.perm_ext_iff_of_nodup O.rows_nodup O'.rows_nodup).2 h).countP_eq _

omit [DecidableEq ι] in
/-- Two descriptors of one chunk have one length. -/
theorem Ready.length_eq (h : Ready H B s₀ x parts) (hB : H.CollisionFree B) {d d' : ChunkDescriptor}
    (hd : d ∈ x.manifest.chunks) (hd' : d' ∈ x.manifest.chunks) (hid : d.id = d'.id) :
    d.length.toNat = d'.length.toNat := by
  obtain ⟨i, hi⟩ := List.mem_iff_getElem?.1 hd
  obtain ⟨j, hj⟩ := List.mem_iff_getElem?.1 hd'
  obtain ⟨b, -, hmem, hb, hlen⟩ := h.part hi
  obtain ⟨b', -, hmem', hb', hlen'⟩ := h.part hj
  rw [← hlen, ← hlen', hB hmem hmem' (by rw [hb, hb', hid])]

/-- Rows that both runs have, they have with the same size. -/
theorem Grown.same {C₀ C C' : Table ChunkRow.key} (h : Grown x C₀ C) (h' : Grown x C₀ C')
    (hnamed : ∀ d ∈ x.manifest.chunks, ∃ k ∈ C', k.key = (x.repositoryId, d.id))
    (hlen : ∀ d ∈ x.manifest.chunks, ∀ d' ∈ x.manifest.chunks, d.id = d'.id →
      d.length.toNat = d'.length.toNat) {k : ChunkRow} (hk : k ∈ C) :
    ∃ k' ∈ C', k'.key = k.key ∧ k'.size = k.size := by
  rcases h.new k hk with ⟨k₀, hk₀, hkey, hsize⟩ | ⟨d, hd, hkey, hsize⟩
  · obtain ⟨k', hk', hkey', hsize'⟩ := h'.old k₀ hk₀
    exact ⟨k', hk', hkey'.trans hkey.symm, hsize'.trans hsize.symm⟩
  · obtain ⟨k', hk', hkey'⟩ := hnamed d hd
    refine ⟨k', hk', hkey'.trans hkey.symm, ?_⟩
    rcases h'.new k' hk' with ⟨k₀, hk₀, hkey₀, hsize₀⟩ | ⟨d', hd', hkey₀, hsize₀⟩
    · -- the row was there at the start, and is the one here too
      obtain ⟨k₁, hk₁, hkey₁, hsize₁⟩ := h.old k₀ hk₀
      have hk₁k : k₁.key = k.key := by rw [hkey₁, ← hkey₀, hkey', hkey]
      rw [hsize₀, ← hsize₁, Table.eq_of_key hk₁ hk hk₁k]
    · have hid : d'.id = d.id := by
        rw [hkey₀] at hkey'
        exact (Prod.mk.inj hkey').2
      rw [hsize₀, hsize, hlen d' hd' d hd hid]

theorem Setting.new_row (h : Setting H cut B s₀ x parts) :
    s₀.db.objects.get? x.objectRow.key = none := by
  have hkey : x.objectRow.key = (x.repositoryId, x.objectOid) := by
    rw [← h.oid]
    rfl
  rw [hkey]
  exact h.unpublished

/-- The chunks of a published object have rows. -/
theorem Published.named (hpub : Published x s₀.toShared s.toShared) (h : Setting H cut B s₀ x parts)
    (hi : s.db.Inv) : ∀ d ∈ x.manifest.chunks, ∃ k ∈ s.db.chunks, k.key = (x.repositoryId, d.id) := by
  intro d hd
  have ho : x.objectRow ∈ s.db.objects := by
    rw [hpub.objects]
    exact Table.mem_insert.2 (.inr ⟨rfl, h.new_row⟩)
  obtain ⟨row, hrow, hr, hc⟩ := mem_chunkRows_of_mem (o := x.objectRow) hd
  obtain ⟨k, hk, hkey⟩ := hi.rowChunk row ((hi.rows row).2 ⟨x.objectRow, ho, hrow⟩)
  exact ⟨k, hk, by rw [hkey, hr, hc]; rfl⟩

/-- Stored bytes are those at the start and those of the chunks. -/
theorem Filled.same (h : Setting H cut B s₀ x parts) {σ σ' : Store}
    (hσ : Filled x parts s₀.store σ) (hσ' : Filled x parts s₀.store σ')
    (hall : ∀ d ∈ x.manifest.chunks, σ x.repositoryId d.id ≠ none)
    (hall' : ∀ d ∈ x.manifest.chunks, σ' x.repositoryId d.id ≠ none) : σ = σ' := by
  funext r c
  by_cases hc : r = x.repositoryId ∧ ∃ d ∈ x.manifest.chunks, d.id = c
  · obtain ⟨rfl, d, hd, rfl⟩ := hc
    obtain ⟨i, hi⟩ := List.mem_iff_getElem?.1 hd
    obtain ⟨b, hb⟩ := Option.ne_none_iff_exists'.1 (hall d hd)
    obtain ⟨b', hb'⟩ := Option.ne_none_iff_exists'.1 (hall' d hd)
    have hpart := (h.part_of_stored h.store h.collisionFree hσ hi hb).1
    have hpart' := (h.part_of_stored h.store h.collisionFree hσ' hi hb').1
    rw [hb, hb', ← hpart, hpart']
  · -- nothing but chunks is added
    have same : ∀ {σ : Store}, Filled x parts s₀.store σ → σ r c = s₀.store r c := by
      intro σ hσ
      rcases hσ r c with he | ⟨-, hr, i, d, b, hd, -, hid, -⟩
      · exact he
      · exact absurd ⟨hr, d, List.mem_of_getElem? hd, hid⟩ hc
    rw [same hσ, same hσ']

/-- **Two publications of the session leave the same state.** -/
theorem Published.agree (h : Setting H cut B s₀ x parts) (hs : Serving x parts s₀ s)
    (hs' : Serving x parts s₀ s') (hpub : Published x s₀.toShared s.toShared)
    (hpub' : Published x s₀.toShared s'.toShared) (hi : s.db.Inv) (hi' : s'.db.Inv) : Agree s s' := by
  have hobjects : s.db.objects = s'.db.objects := hpub.objects.trans hpub'.objects.symm
  have hrows : ∀ row, row ∈ s.db.objectChunks ↔ row ∈ s'.db.objectChunks := by
    intro row
    rw [hi.rows, hi'.rows, hobjects]
  have hlen : ∀ d ∈ x.manifest.chunks, ∀ d' ∈ x.manifest.chunks, d.id = d'.id →
      d.length.toNat = d'.length.toNat := fun d hd d' hd' =>
    h.toReady.length_eq h.collisionFree hd hd'
  -- key and size agree, and with them the count
  have hsub : ∀ {a b : State ι}, Serving x parts s₀ a → Serving x parts s₀ b →
      Published x s₀.toShared b.toShared → a.db.Inv → b.db.Inv →
      (∀ row, row ∈ a.db.objectChunks ↔ row ∈ b.db.objectChunks) →
      ∀ k ∈ a.db.chunks, k ∈ b.db.chunks := by
    intro a b ha hb hpb hia hib hab k hk
    obtain ⟨k', hk', hkey, hsize⟩ := ha.shared.chunks.same hb.shared.chunks (hpb.named h hib) hlen hk
    obtain ⟨hrep, hid⟩ := Prod.mk.inj hkey
    have hcount : k'.referenceCount = k.referenceCount := by
      rw [hia.counts k hk, hib.counts k' hk', hrep, hid]
      exact (references_congr hab _ _).symm
    have : k' = k := by
      cases k'; cases k
      simp only at hrep hid hsize hcount
      rw [hrep, hid, hsize, hcount]
    exact this ▸ hk'
  refine ⟨fun o => by rw [hobjects], hrows, fun k => ⟨?_, ?_⟩, fun y => ?_, ?_⟩
  · exact hsub hs hs' hpub' hi hi' hrows k
  · exact hsub hs' hs hpub hi' hi (fun row => (hrows row).symm) k
  · rw [hpub.sessions, hpub'.sessions]
  · exact Filled.same h hs.shared.store hs'.shared.store hpub.stored hpub'.stored

theorem Completes.reachable (hr : (server H cut).Reachable s₀) (hc : Completes H cut x parts s₀ s) :
    (server H cut).Reachable s := by
  obtain ⟨ls, s₁, p, ls', hrun, -, hrest, -⟩ := hc
  exact (hr.run hrun.of_guard).run hrest.of_guard

/-- A read that finds nothing ends the request. -/
theorem step_missing {p : ι} {r u : Uuid} {oid : ObjectOid} {m : ObjectManifest} {d : ChunkDescriptor}
    {todo : List ChunkDescriptor} {hashed : Bytes}
    (hp : s.procs p = .verifying r oid u m (d :: todo) hashed) (hnone : s.store r d.id = none) :
    ∃ s', step H cut s (.act p (.next .auto)) = some s' ∧ s'.toShared = s.toShared ∧
      s'.procs p = .done (.failed ⟨409, "upload is missing chunks"⟩) := by
  refine ⟨s.move p s.toShared (.done (.failed ⟨409, "upload is missing chunks"⟩)), ?_, rfl,
    move_procs_self _ _ _ _⟩
  simp [step, procAct, hp, procNext, verifyChunk, getVerified, hnone]

/-- A finalize in progress, or a new one, changes nothing once the object is published. -/
theorem Published.finalize (h : Setting H cut B s₀ x parts) (hs : Serving x parts s₀ s)
    (hpub : Published x s₀.toShared s.toShared) {p : ι} {todo : List ChunkDescriptor}
    {hashed : Bytes} {choice : Choice}
    (hp : s.procs p = .verifying x.repositoryId x.objectOid x.id x.manifest todo hashed)
    (hst : step H cut s (.act p (.next choice)) = some s') : s'.toShared = s.toShared := by
  obtain ⟨w, q, hact, rfl⟩ := step_act hst
  change w = s.toShared
  have hproc := hs.procs p
  rw [hp] at hact hproc
  simp only [procAct] at hact
  cases todo with
  | cons d todo =>
    cases choice with
    | auto =>
      simp only [procNext] at hact
      split at hact <;> cases hact <;> rfl
    | tombstone => cases hact
    | listing => cases hact
  | nil =>
    rcases procNext_verified hact with ⟨-, rfl, -⟩ | ⟨-, -, ⟨e, -, rfl, -⟩ | ⟨b, db, hok, rfl, -⟩⟩
    · rfl
    · rfl
    · rcases hs.shared.publish h.toReady h.oid hpub.stored hok with ⟨hun, -⟩ | ⟨-, rfl, rfl⟩
      · exact absurd hpub (h.exclusive hun)
      · rfl

/-- A finalize that answers 204 leaves the session finalized. -/
theorem Setting.success (h : Setting H cut B s₀ x parts) (hs : Serving x parts s₀ s) {p : ι}
    {todo : List ChunkDescriptor} {hashed : Bytes}
    (hp : s.procs p = .verifying x.repositoryId x.objectOid x.id x.manifest todo hashed)
    (hst : step H cut s (.act p (.next .auto)) = some s')
    (hdone : s'.procs p = .done .noContent) : s'.db.Finalized x.id := by
  have hs' : Serving x parts s₀ s' := serving_step h hs (l := .act p (.next .auto)) ⟨trivial, hst⟩
  apply (h.finalized_iff hs'.shared).2
  obtain ⟨w, q, hact, rfl⟩ := step_act hst
  rw [move_procs_self] at hdone
  have hproc := hs.procs p
  rw [hp] at hact hproc
  simp only [procAct] at hact
  cases todo with
  | cons d todo =>
    simp only [procNext] at hact
    split at hact <;> cases hact <;> cases hdone
  | nil =>
    obtain ⟨-, n, htodo, -, hstored⟩ := hproc
    rw [List.take_of_length_le (List.drop_eq_nil_iff.1 htodo.symm)] at hstored
    rcases procNext_verified hact with ⟨-, -, rfl⟩ | ⟨-, -, ⟨e, -, -, rfl⟩ | ⟨b, db, hok, rfl, -⟩⟩
    · cases hdone
    · cases hdone
    · rcases hs.shared.publish h.toReady h.oid hstored hok with ⟨-, -, hpub⟩ | ⟨hpub, rfl, rfl⟩
      · exact hpub
      · exact ⟨hpub.objects, hpub.sessions, hpub.metric, hpub.stored⟩

/-- **What does not have the session's OID is never published.** -/
theorem mismatch_unpublished (h : Setting H cut B s₀ x parts)
    (hsha : H.sha256 parts.flatten ≠ x.objectOid) {ls : List (Label ι)}
    (hrun : (uploading H cut x parts).Run s₀ ls s) : Unpublished s₀.toShared s.toShared := by
  have hend := hrun.preserve (P := fun s => Serving x parts s₀ s ∧ Unpublished s₀.toShared s.toShared)
    ⟨h.serving, rfl, rfl, rfl⟩ fun a l b _ ha hst => ?_
  · exact hend.2
  refine ⟨serving_step h ha.1 hst, ?_⟩
  rcases (serving_step h ha.1 hst).shared.phase with hun | hpub
  · exact hun
  exfalso
  have hnew : x.objectRow ∈ b.db.objects := by
    rw [hpub.objects]
    exact Table.mem_insert.2 (.inr ⟨rfl, h.new_row⟩)
  have hold : x.objectRow ∉ a.db.objects := by
    rw [ha.2.objects]
    exact fun hx => Table.get?_none.1 h.new_row _ hx rfl
  obtain ⟨hguard, hst⟩ := hst
  cases l with
  | advance δ =>
    simp only [server, LTS.ofFn, step, Option.some.injEq] at hst
    subst hst
    exact hold hnew
  | act p action =>
    obtain ⟨w, q, hact, rfl⟩ := step_act hst
    have hproc := ha.1.procs p
    rcases (procAct_turn hact).objects with hsame | ⟨r, u, m, b, hq, -⟩ | ⟨r, oid, -, hdel⟩
    · exact hold (hsame ▸ hnew)
    · rcases hq with hq | ⟨oid, hashed, hq⟩
      · rw [hq] at hproc
        cases hproc
      · rw [hq] at hproc hact
        obtain ⟨⟨-, rfl, -, -⟩, n, htodo, rfl, -⟩ := hproc
        rcases procAct_hashed hact with rfl | ⟨-, hok⟩
        · exact hold hnew
        · have hn := List.drop_eq_nil_iff.1 htodo.symm
          rw [List.take_of_length_le (by rw [← h.chunks.length_eq]; exact hn)] at hok
          exact hsha hok
    · change _ ∈ w.db.objects at hnew
      rw [hdel, Table.mem_deleteWhere] at hnew
      exact hold hnew.1

/-- **Uploads are idempotent and order-independent.** Take an open session of an object that is
not published, whose chunks make up bytes with its OID. Any two runs of correct PUTs and
finalizes in which some finalize begins when all chunks are stored end with the same rows, counts
and bytes, and raise the metric by the object's size. In every state of such a run: the metric
has been raised once if the session is finalized and not at all otherwise, a finalize that finds
a chunk absent answers 409, one that answers 204 has finalized the session, and in a finalized
session every finalize answers 204; none of the last three changes anything. -/
theorem uploads_confluent (H : Hashes) (cut : Cutter) (hcut : cut.Conforms) (B : Set Bytes)
    (hB : H.CollisionFree B) (s₀ : State ι) (hr : (server H cut).Reachable s₀) (x : SessionRow)
    (parts : List Bytes) (hready : Ready H B s₀ x parts)
    (hsha : H.sha256 parts.flatten = x.objectOid) :
    (∀ s s', Completes H cut x parts s₀ s → Completes H cut x parts s₀ s' → Agree s s') ∧
    (∀ s, Completes H cut x parts s₀ s →
      s.logicalUploaded = s₀.logicalUploaded + x.manifest.objectSize.toNat) ∧
    ∀ ls t, (uploading H cut x parts).Run s₀ ls t →
      (t.logicalUploaded = s₀.logicalUploaded +
        if t.db.Finalized x.id then x.manifest.objectSize.toNat else 0) ∧
      (∀ p d todo hashed, t.procs p = .verifying x.repositoryId x.objectOid x.id x.manifest
          (d :: todo) hashed → t.store x.repositoryId d.id = none →
        ∃ t', step H cut t (.act p (.next .auto)) = some t' ∧ t'.toShared = t.toShared ∧
          t'.procs p = .done (.failed ⟨409, "upload is missing chunks"⟩)) ∧
      (∀ p t' todo hashed, t.procs p = .verifying x.repositoryId x.objectOid x.id x.manifest
          todo hashed → step H cut t (.act p (.next .auto)) = some t' →
        t'.procs p = .done .noContent → t'.db.Finalized x.id) ∧
      (t.db.Finalized x.id → ∀ p t',
        step H cut t (.act p (.start (.finalizeCdc x.repositoryId x.objectOid x.id))) = some t' →
        t'.toShared = t.toShared ∧ t'.procs p = .done .noContent) ∧
      (t.db.Finalized x.id → ∀ p t' todo hashed choice,
        t.procs p = .verifying x.repositoryId x.objectOid x.id x.manifest todo hashed →
        step H cut t (.act p (.next choice)) = some t' → t'.toShared = t.toShared) := by
  have h := hready.setting hcut hr hB
  refine ⟨fun s s' hc hc' => ?_, fun s hc => (hc.published h hsha).2.metric, fun ls t hrun => ?_⟩
  · obtain ⟨hs, hpub⟩ := hc.published h hsha
    obtain ⟨hs', hpub'⟩ := hc'.published h hsha
    have hi := ((server_inv H cut).reachable (hc.reachable hr)).2.db
    have hi' := ((server_inv H cut).reachable (hc'.reachable hr)).2.db
    exact hpub.agree h hs hs' hpub' hi hi'
  · have hs := h.run hrun
    refine ⟨h.metric hs.shared, fun p d todo hashed => step_missing, fun p t' todo hashed hp hst hd =>
      h.success hs hp hst hd, fun hf p t' hst => ?_, fun hf p t' todo hashed choice hp hst => ?_⟩
    · have hpub := (h.finalized_iff hs.shared).1 hf
      rcases h.begin_finalize hs hst with ⟨-, hshared, hp⟩ | ⟨hun, -, -⟩
      · exact ⟨hshared, hp⟩
      · exact absurd hpub (h.exclusive hun)
    · exact ((h.finalized_iff hs.shared).1 hf).finalize h hs hp hst

/-! ## Two sessions -/

/-- A run of the session that ends with every request answered, found by evaluation. -/
theorem Completes.of_exec {ι : Type} [DecidableEq ι] [Fintype ι] (H : Hashes) (cut : Cutter) (x : SessionRow)
    (parts : List Bytes) (s₀ : State ι) (p : ι) (before after : List (Label ι)) (n : Nat)
    (h : (LTS.execGuard (step H cut) (UploadsTo x parts) s₀ before).any (fun s₁ =>
      (∀ d ∈ x.manifest.chunks, s₁.store x.repositoryId d.id ≠ none) ∧
      (LTS.execGuard (step H cut) (UploadsTo x parts) s₁
        (.act p (.start (.finalizeCdc x.repositoryId x.objectOid x.id)) :: after)).any (fun s =>
          (∀ p, (s.procs p).Free) ∧ s.logicalUploaded = n) = true) = true) :
    ∃ s, Completes H cut x parts s₀ s ∧ s.logicalUploaded = n := by
  obtain ⟨s₁, h₁, hP⟩ := (Option.any_eq_true _ _).1 h
  simp only [decide_eq_true_eq] at hP
  obtain ⟨s, h₂, hQ⟩ := (Option.any_eq_true _ _).1 hP.2
  simp only [decide_eq_true_eq] at hQ
  have hrun : ∀ {a b : State ι} {ls : List (Label ι)},
      LTS.execGuard (step H cut) (UploadsTo x parts) a ls = some b →
      (uploading H cut x parts).Run a ls b := by
    intro a b ls hab
    unfold uploading server
    rw [LTS.guard_ofFn]
    exact LTS.run_of_exec hab
  exact ⟨s, ⟨before, s₁, p, after, hrun h₁, hP.1, hrun h₂, hQ.1⟩, hQ.2⟩

namespace Sample

/-- The manifest of byte `a` under the OID of byte `b`. -/
def crossed : ObjectManifest := { manifest [0x61] with objectOid := hashes.sha256 [0x62] }

/-- Session 7 of repository 1, as `begin_cdc` at time 0 creates it. -/
def session (m : ObjectManifest) : SessionRow :=
  ⟨7, 1, m.objectOid, m.objectSize.toNat, m, .opened, sessionLifetime⟩

section

variable {ι : Type} [DecidableEq ι]

/-- Where a `begin_cdc` of the manifest leaves an empty server. -/
def begun (p : ι) (m : ObjectManifest) : State ι :=
  (LTS.exec (step hashes maximalCut) (.initial 0)
    (.act p (.start (.beginCdc 1 m.objectOid 1 m 7)) :: run p 2)).getD (.initial 0)

theorem begun_reachable {p : ι} {m : ObjectManifest} (h : (LTS.exec (step hashes maximalCut) (.initial 0)
    (.act p (.start (.beginCdc 1 m.objectOid 1 m 7)) :: run p 2)).isSome = true) :
    (server hashes maximalCut).Reachable (begun p m) := by
  obtain ⟨s, hs⟩ := Option.isSome_iff_exists.1 h
  refine ⟨_, _, ⟨0, rfl⟩, LTS.run_of_exec (hs.trans ?_)⟩
  rw [begun, hs]
  rfl

/-- A session that has begun is ready for its chunk. -/
theorem begun_ready {p : ι} {m : ObjectManifest} (hm : m.chunks = [⟨hashes.blake3 [0x61], 0, 1⟩])
    (hstore : (begun p m).store = Store.empty)
    (h : (∀ p', ((begun p m).procs p').Free) ∧ session m ∈ (begun p m).db.sessions ∧ (begun p m).clock = 0 ∧
      (begun p m).db.objects.get? (1, m.objectOid) = none) :
    Ready hashes {[0x61]} (begun p m) (session m) [[0x61]] where
  free := h.1
  mem := h.2.1
  opened := rfl
  live := by
    rw [h.2.2.1]
    exact (by decide : 0 < sessionLifetime)
  unpublished := h.2.2.2
  chunks := by
    rw [show (session m).manifest.chunks = _ from hm]
    exact .cons ⟨rfl, rfl, rfl⟩ .nil
  stored c b hb := by
    rw [hstore] at hb
    cases hb

end

end Sample

open Sample in
/-- PUT and finalize of byte `a` in a session of the OID of byte `b`: every chunk is stored and
every request answered, and the metric stays where it was. -/
theorem finalize_mismatch :
    (server hashes maximalCut).Reachable (begun () crossed) ∧
    Ready hashes {[0x61]} (begun () crossed) (session crossed) [[0x61]] ∧
    ∃ s, Completes hashes maximalCut (session crossed) [[0x61]] (begun () crossed) s ∧
      s.logicalUploaded = (begun () crossed).logicalUploaded ∧
      (session crossed).manifest.objectSize.toNat = 1 := by
  refine ⟨begun_reachable (by decide +kernel), begun_ready rfl rfl (by decide +kernel), ?_⟩
  obtain ⟨s, hc, hn⟩ := Completes.of_exec hashes maximalCut (session crossed) [[0x61]] (begun () crossed) ()
    (.act () (.start (.uploadCdcChunk 1 (hashes.sha256 [0x62]) 7 0 [0x61])) :: run () 2)
    (run () 2) 0 (by decide +kernel)
  exact ⟨s, hc, hn, rfl⟩

open Sample in
/-- One PUT and one finalize leave what two processes leave that take turns, each with a PUT and a
finalize of its own. -/
theorem uploads_confluent_twice : ∃ s s' : State (Fin 2),
    Completes hashes maximalCut (session (manifest [0x61])) [[0x61]] (begun 0 (manifest [0x61])) s ∧
    Completes hashes maximalCut (session (manifest [0x61])) [[0x61]] (begun 0 (manifest [0x61])) s' ∧
    Agree s s' ∧ s.logicalUploaded = 1 := by
  obtain ⟨s, hc, hn⟩ := Completes.of_exec hashes maximalCut (session (manifest [0x61])) [[0x61]]
    (begun (0 : Fin 2) (manifest [0x61])) 0 (puts 0 1 7 [0x61]) (run 0 2) 1 (by decide +kernel)
  obtain ⟨s', hc', -⟩ := Completes.of_exec hashes maximalCut (session (manifest [0x61])) [[0x61]]
    (begun (0 : Fin 2) (manifest [0x61])) 0
    (.act 0 (.start (.uploadCdcChunk 1 (hashes.sha256 [0x61]) 7 0 [0x61])) ::
      puts 1 1 7 [0x61] ++ run 0 2)
    (.act 1 (.start (.finalizeCdc 1 (hashes.sha256 [0x61]) 7)) :: run 1 1 ++ run 0 2 ++ run 1 1) 1
    (by decide +kernel)
  have h := uploads_confluent hashes maximalCut maximalCut_conforms {[0x61]} (Set.injOn_singleton _ _)
    (begun (0 : Fin 2) (manifest [0x61])) (begun_reachable (by decide +kernel)) (session (manifest [0x61]))
    [[0x61]] (begun_ready rfl rfl (by decide +kernel)) (by decide +kernel)
  exact ⟨s, s', hc, hc', h.1 s s' hc hc', hn⟩

end GitLfsDelta
