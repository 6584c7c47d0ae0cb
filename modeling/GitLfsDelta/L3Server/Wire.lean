import GitLfsDelta.Core.Json
import GitLfsDelta.L3Server.Digests
import GitLfsDelta.L3Server.Uploads

/-!
# Manifests as JSON (`git-lfs-delta-core/src/manifest.rs`, `git-lfs-delta-protocol/src/cdc.rs`)

A manifest goes over the wire as JSON text, and an upload session keeps it in a JSONB column;
`begin_cdc` and `ensure_upload_session` compare what the column gives back with the manifest
that is requested. `toJson` and `fromJson` are what `derive` makes of the types: a reader of a
record also takes a list of its fields' values, and ignores the fields it does not know.

* `manifest_roundTrip`: a manifest survives both ways, so a resumed upload is refused exactly if
  it is another manifest, and the model, whose rows hold manifests, is the code's comparison of
  columns (`resumeOrCreateStored`).
-/
namespace GitLfsDelta

/-! ## Encoding -/

/-- mirrors crates/git-lfs-delta-core/src/manifest.rs:12-17 -/
def ManifestVersion.toJson : ManifestVersion → Json
  | .v1 => .str "v1".toList

/-- mirrors crates/git-lfs-delta-core/src/profile.rs:4-9 -/
def ChunkingProfile.toJson : ChunkingProfile → Json
  | .fastCdcV1 => .str "fastcdc-v1".toList

/-- mirrors crates/git-lfs-delta-core/src/manifest.rs:21-28 -/
def ChunkDescriptor.toJson (d : ChunkDescriptor) : Json :=
  .obj [("id".toList, .str d.id.toText), ("offset".toList, .num d.offset.toNat),
    ("length".toList, .num d.length.toNat)]

/-- mirrors crates/git-lfs-delta-core/src/manifest.rs:32-43 -/
def ObjectManifest.toJson (m : ObjectManifest) : Json :=
  .obj [("version".toList, m.version.toJson), ("profile".toList, m.profile.toJson),
    ("object_oid".toList, .str m.objectOid.toText), ("object_size".toList, .num m.objectSize.toNat),
    ("chunks".toList, .arr (m.chunks.map ChunkDescriptor.toJson))]

/-! ## Decoding -/

def ManifestVersion.fromJson (v : Json) : Option ManifestVersion :=
  if v.isVariant "v1".toList then some .v1 else none

def ChunkingProfile.fromJson (v : Json) : Option ChunkingProfile :=
  if v.isVariant "fastcdc-v1".toList then some .fastCdcV1 else none

def ChunkDescriptor.fields : List Text := ["id".toList, "offset".toList, "length".toList]

def ObjectManifest.fields : List Text :=
  ["version".toList, "profile".toList, "object_oid".toList, "object_size".toList, "chunks".toList]

def ChunkDescriptor.fromJson (v : Json) : Option ChunkDescriptor :=
  match v.record ChunkDescriptor.fields with
  | some [id, offset, length] => do
    let id ← id.asStr >>= parseChunkId
    let offset ← offset.asNat (2 ^ 64)
    let length ← length.asNat (2 ^ 32)
    return ⟨id, .ofNat offset, .ofNat length⟩
  | _ => none

def ObjectManifest.fromJson (v : Json) : Option ObjectManifest :=
  match v.record ObjectManifest.fields with
  | some [version, profile, objectOid, objectSize, .arr chunks] => do
    let version ← ManifestVersion.fromJson version
    let profile ← ChunkingProfile.fromJson profile
    let objectOid ← objectOid.asStr >>= parseOid
    let objectSize ← objectSize.asNat (2 ^ 64)
    let chunks ← chunks.mapM ChunkDescriptor.fromJson
    return ⟨version, profile, objectOid, .ofNat objectSize, chunks⟩
  | _ => none

/-! ## The column -/

/-- The comparison of the stored manifest with the requested one.
mirrors crates/git-lfs-delta-server/src/lib.rs:998-1005 and :1625-1632 -/
def compareStored (stored : Json) (requested : ObjectManifest) : Except ApiError Unit :=
  match ObjectManifest.fromJson stored with
  | none => .error .integrity
  | some m => if m ≠ requested then .error .conflict else .ok ()

/-- `resumeOrCreate` on a column of JSON values: what it reads of a session is what the column,
`store`, makes of the manifest that the session was created with. -/
def resumeOrCreateStored (store : Json → Json) (tooLarge : ApiError) (db : Db) (now : Nat) (r : Uuid)
    (m : ObjectManifest) (newId : Uuid) : Except ApiError (Uuid × Db) :=
  let db₁ := db.expireOpen now fun s => s.repositoryId = r ∧ s.objectOid = m.objectOid
  if 2 ^ 63 ≤ m.objectSize.toNat then .error tooLarge
  else do
    let (s, db₂) ← orDatabase (upsertSession db₁ now r m newId)
    compareStored (store s.manifest.toJson) m
    return (s.id, db₂)

/-! ## Round trip -/

section

variable {store : Json → Json}

theorem hexDigit_ne_zero {c : Char} (h : HexDigit c) : c ≠ '\x00' := by
  rintro rfl
  revert h
  unfold HexDigit
  decide

theorem zero_notMem_toText (oid : ObjectOid) : '\x00' ∉ oid.toText := by
  intro h
  have := (digest_text.1.accepts oid.toText).1 (by rw [parseOid_toText]; rfl)
  exact hexDigit_ne_zero (this.2 _ h) rfl

theorem Json.Keeps.asNat (hs : Json.Keeps store) {n bound : Nat} (h : n < bound) (hb : bound ≤ 2 ^ 64) :
    (store (.num n)).asNat bound = some n := by
  rw [hs.num n (by omega) (by omega)]
  exact if_pos h

theorem mapM_map_some {α β : Type} {f : α → β} {g : β → Option α} (h : ∀ a, g (f a) = some a) (l : List α) :
    (l.map f).mapM g = some l := by
  induction l with
  | nil => rfl
  | cons a l ih =>
    rw [List.map_cons, List.mapM_cons, h, ih]
    rfl

theorem ChunkDescriptor.fromJson_store (hs : Json.Keeps store) (d : ChunkDescriptor) :
    ChunkDescriptor.fromJson (store d.toJson) = some d := by
  have hnames : ChunkDescriptor.fields.Nodup ∧ ∀ name ∈ ChunkDescriptor.fields, '\x00' ∉ name := by decide
  have hrecord : (store d.toJson).record ChunkDescriptor.fields =
      some [store (.str d.id.toText), store (.num d.offset.toNat), store (.num d.length.toNat)] := by
    rw [ChunkDescriptor.toJson, hs.record]
    · rfl
    · exact hnames.1
    · exact hnames.2
  have hid : store (.str d.id.toText) = .str d.id.toText := hs.str _ (zero_notMem_toText ⟨d.id.digest⟩)
  have hoffset := hs.asNat (n := d.offset.toNat) d.offset.toNat_lt (le_refl _)
  have hlength := hs.asNat (n := d.length.toNat) d.length.toNat_lt (by decide)
  have hparse : parseChunkId d.id.toText = some d.id := digest_text.2.back d.id
  rw [ChunkDescriptor.fromJson, hrecord]
  simp only [hid, hoffset, hlength, Json.asStr, hparse, Option.bind_eq_bind, Option.bind_some,
    UInt64.ofNat_toNat, UInt32.ofNat_toNat]
  rfl

theorem ObjectManifest.fromJson_store (hs : Json.Keeps store) (m : ObjectManifest) :
    ObjectManifest.fromJson (store m.toJson) = some m := by
  have hnames : ObjectManifest.fields.Nodup ∧ ∀ name ∈ ObjectManifest.fields, '\x00' ∉ name := by decide
  have hrecord : (store m.toJson).record ObjectManifest.fields =
      some [store m.version.toJson, store m.profile.toJson, store (.str m.objectOid.toText),
        store (.num m.objectSize.toNat), store (.arr (m.chunks.map ChunkDescriptor.toJson))] := by
    rw [ObjectManifest.toJson, hs.record]
    · rfl
    · exact hnames.1
    · exact hnames.2
  have hversion : ManifestVersion.fromJson (store m.version.toJson) = some m.version := by
    cases m.version
    rw [ManifestVersion.toJson, hs.str _ (by decide)]
    rfl
  have hprofile : ChunkingProfile.fromJson (store m.profile.toJson) = some m.profile := by
    cases m.profile
    rw [ChunkingProfile.toJson, hs.str _ (by decide)]
    rfl
  have hoid := hs.str _ (zero_notMem_toText m.objectOid)
  have hsize := hs.asNat (n := m.objectSize.toNat) m.objectSize.toNat_lt (le_refl _)
  have hparse := parseOid_toText m.objectOid
  have hchunks : (m.chunks.map (store ∘ ChunkDescriptor.toJson)).mapM ChunkDescriptor.fromJson = some m.chunks :=
    mapM_map_some (ChunkDescriptor.fromJson_store hs) m.chunks
  rw [ObjectManifest.fromJson, hrecord, hs.arr, List.map_map]
  simp only [hversion, hprofile, hoid, hsize, hchunks, Json.asStr, hparse, Option.bind_eq_bind,
    Option.bind_some, UInt64.ofNat_toNat]
  rfl

/-- The session that is resumed, or the one that was just created, is compared by its column. -/
theorem compareStored_eq (hs : Json.Keeps store) (stored requested : ObjectManifest) :
    compareStored (store stored.toJson) requested =
      if stored = requested then .ok () else .error .conflict := by
  simp only [compareStored, ObjectManifest.fromJson_store hs, ite_not]

theorem resumeOrCreateStored_eq (hs : Json.Keeps store) (tooLarge : ApiError) (db : Db) (now : Nat)
    (r : Uuid) (m : ObjectManifest) (newId : Uuid) :
    resumeOrCreateStored store tooLarge db now r m newId = resumeOrCreate tooLarge db now r m newId := by
  unfold resumeOrCreateStored resumeOrCreate
  simp only [compareStored_eq hs, ite_not]
  split
  · rfl
  cases orDatabase (upsertSession _ now r m newId) with
  | error e => rfl
  | ok p =>
    obtain ⟨s, db₂⟩ := p
    simp only [bind, Except.bind]
    by_cases h : s.manifest = m
    · rw [if_pos h, if_pos h]
      rfl
    · rw [if_neg h, if_neg h]

end

theorem ObjectManifest.readable (m : ObjectManifest) : m.toJson.Readable 127 := by
  have hsize := m.objectSize.toNat_lt
  simp only [ObjectManifest.toJson, Json.Readable, List.forall_mem_cons, List.mem_map, forall_exists_index,
    and_imp, forall_apply_eq_imp_iff₂, List.not_mem_nil, false_implies, implies_true, and_true]
  refine ⟨?_, ?_, trivial, by omega, fun d _ => ?_⟩
  · cases m.version
    trivial
  · cases m.profile
    trivial
  · have hoffset := d.offset.toNat_lt
    have hlength := d.length.toNat_lt
    simp only [ChunkDescriptor.toJson, Json.Readable, List.forall_mem_cons, List.not_mem_nil,
      false_implies, implies_true, and_true]
    exact ⟨trivial, by omega, by omega⟩

theorem ObjectManifest.fromJson_read {reader : Text → Option Json} (hr : Json.Reads reader)
    (m : ObjectManifest) : (reader m.toJson.compact).bind ObjectManifest.fromJson = some m := by
  rw [hr _ m.readable, Option.bind_some]
  exact ObjectManifest.fromJson_store Json.keeps_id m

/-- **Manifests survive the wire and the database.** Whatever reads JSON text gives the manifest
back, and so does whatever column keeps integers and strings and the fields of an object in some
order. So the comparison with the stored manifest refuses exactly the other manifests, and
`resumeOrCreate` does what the code does with its column. Digests are read in either case and
written in lower case. -/
theorem manifest_roundTrip {reader : Text → Option Json} (hr : Json.Reads reader)
    {store : Json → Json} (hs : Json.Keeps store) :
    (∀ m : ObjectManifest, (reader m.toJson.compact).bind ObjectManifest.fromJson = some m) ∧
    (∀ m : ObjectManifest, ObjectManifest.fromJson (store m.toJson) = some m) ∧
    (∀ stored requested : ObjectManifest, compareStored (store stored.toJson) requested =
      if stored = requested then .ok () else .error .conflict) ∧
    (∀ tooLarge db now r m newId, resumeOrCreateStored store tooLarge db now r m newId =
      resumeOrCreate tooLarge db now r m newId) ∧
    DigestText parseOid ObjectOid.toText ∧ DigestText parseChunkId ChunkId.toText :=
  ⟨ObjectManifest.fromJson_read hr, ObjectManifest.fromJson_store hs, compareStored_eq hs,
    resumeOrCreateStored_eq hs, digest_text⟩

/-- The largest numbers of a manifest. -/
def widestManifest : ObjectManifest :=
  ⟨.v1, .fastCdcV1, ⟨0xabc⟩, 0xffffffffffffffff, [⟨⟨0xdef⟩, 0xffffffffffffffff, 0xffffffff⟩]⟩

/-- A reader without bounds, and a column that sorts the fields. -/
theorem manifest_roundTrip_sorted :
    (Json.read widestManifest.toJson.compact).bind ObjectManifest.fromJson = some widestManifest ∧
    ObjectManifest.fromJson widestManifest.toJson.sorted = some widestManifest ∧
    compareStored widestManifest.toJson.sorted { widestManifest with objectSize := 0 } =
      .error .conflict := by
  obtain ⟨hread, hstore, hcompare, -⟩ := manifest_roundTrip Json.reads_read Json.keeps_sorted
  refine ⟨hread _, hstore _, ?_⟩
  rw [hcompare, if_neg (by decide)]

end GitLfsDelta
