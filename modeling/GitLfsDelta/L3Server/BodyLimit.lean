import GitLfsDelta.L1Data.WellFormed
import GitLfsDelta.L3Server.Wire

/-!
# Request bodies and the router's limit (`git-lfs-delta-server/src/lib.rs`)

`build_router` refuses bodies beyond 64 MiB. The largest requests of a chunked upload are the
manifest that begins it and the chunks themselves.

* `descriptor_length`: a descriptor takes at most 123 bytes, so `upload_fits`: nothing that
  `validate` accepts is beyond the limit.
* `object_fits`: no object within the documented size is.
-/
namespace GitLfsDelta

/-- `DefaultBodyLimit::max(64 * 1024 * 1024)`.
mirrors crates/git-lfs-delta-server/src/lib.rs:481 -/
def bodyLimit : Nat := 64 * 1024 * 1024

/-- mirrors crates/git-lfs-delta-protocol/src/cdc.rs:7-12 -/
structure BeginUploadRequest where
  protocolVersion : UInt16
  manifest : ObjectManifest
  deriving DecidableEq, Repr

def BeginUploadRequest.toJson (q : BeginUploadRequest) : Json :=
  .obj [("protocol_version".toList, .num q.protocolVersion.toNat), ("manifest".toList, q.manifest.toJson)]

/-- The body of `POST .../cdc`. -/
def BeginUploadRequest.body (q : BeginUploadRequest) : Bytes := encode q.toJson.compact

/-! ## Sizes of texts -/

/-- Every character takes one byte, and none is escaped. -/
def Simple (t : Text) : Prop := ∀ c ∈ t, (String.utf8EncodeChar c).length = 1 ∧ Json.escapeChar c = [c]

instance (t : Text) : Decidable (Simple t) := List.decidableBAll _ t

theorem encode_append (a b : Text) : encode (a ++ b) = encode a ++ encode b := List.flatMap_append

theorem encode_cons (c : Char) (t : Text) : encode (c :: t) = String.utf8EncodeChar c ++ encode t :=
  List.flatMap_cons

theorem Simple.length {t : Text} (h : Simple t) : (encode t).length = t.length := by
  induction t with
  | nil => rfl
  | cons c t ih =>
    have hc := h c List.mem_cons_self
    have ht := ih fun x hx => h x (List.mem_cons_of_mem _ hx)
    rw [encode_cons, List.length_append, hc.1, ht, List.length_cons]
    omega

theorem Simple.quoted {t : Text} (h : Simple t) : Json.quoted t = '"' :: (t ++ ['"']) := by
  have hflat : t.flatMap Json.escapeChar = t := by
    induction t with
    | nil => rfl
    | cons c t ih =>
      rw [List.flatMap_cons, (h c List.mem_cons_self).2, ih fun x hx => h x (List.mem_cons_of_mem _ hx)]
      rfl
  rw [Json.quoted, hflat]

theorem Simple.quoted_length {t : Text} (h : Simple t) :
    (encode (Json.quoted t)).length = t.length + 2 := by
  have hquote : (String.utf8EncodeChar '"').length = 1 ∧ (encode ['"']).length = 1 := by decide
  rw [h.quoted, encode_cons, encode_append, List.length_append, List.length_append, h.length,
    hquote.1, hquote.2]
  omega

theorem escapeChar_hexDigit {c : Char} (h : HexDigit c) : Json.escapeChar c = [c] := by
  have hall : ∀ n < 128, HexDigit (Char.ofNat n) → Json.escapeChar (Char.ofNat n) = [Char.ofNat n] := by
    unfold HexDigit
    decide +kernel
  have hsize := h.oneByte
  rw [String.length_utf8EncodeChar, Char.utf8Size_eq_one_iff] at hsize
  have hlt : c.toNat < 128 := Nat.lt_succ_of_le (UInt32.le_iff_toNat_le.1 hsize)
  have := hall c.toNat hlt
  rw [Char.ofNat_toNat] at this
  exact this h

theorem simple_hexDigits (n : Nat) : Simple (hexDigits 64 n) := by
  intro c hc
  have hhex := hexDigit_mem_hexDigits c hc
  exact ⟨hhex.oneByte, escapeChar_hexDigit hhex⟩

/-- A number of `k` digits. -/
theorem number_length {n k : Nat} (hk : 0 < k) (h : n < 10 ^ k) :
    (encode (Json.compact (.num n))).length ≤ k := by
  have hdigit : ∀ c ∈ Nat.toDigits 10 n, HexDigit c := by
    intro c hc
    have := Nat.isDigit_of_mem_toDigits (by decide) (by decide) hc
    rw [Char.isDigit_iff_toNat] at this
    exact .inl ⟨UInt32.le_iff_toNat_le.2 this.1, UInt32.le_iff_toNat_le.2 this.2⟩
  have hcompact : Json.compact (.num n) = Nat.toDigits 10 n := by
    rw [Json.compact]
    rfl
  rw [hcompact, encode_hex_length hdigit]
  exact (Nat.length_toDigits_le_iff (by decide) hk).2 h

/-! ## Sizes of requests -/

theorem obj_length {name : Text} (hname : Simple name) (v : Json) (rest : List (Text × Json)) :
    (encode (Json.compact (.obj ((name, v) :: rest)))).length =
      name.length + 4 + (encode v.compact).length + (encode (Json.compactFields rest)).length := by
  have hbrace : (String.utf8EncodeChar '\x7b').length = 1 ∧
      (String.utf8EncodeChar ':').length = 1 := by decide
  rw [Json.compact, encode_cons, encode_append, encode_cons, encode_append]
  simp only [List.length_append, hname.quoted_length, hbrace.1, hbrace.2]
  omega

theorem fields_length {name : Text} (hname : Simple name) (v : Json) (rest : List (Text × Json)) :
    (encode (Json.compactFields ((name, v) :: rest))).length =
      name.length + 4 + (encode v.compact).length + (encode (Json.compactFields rest)).length := by
  have hcomma : (String.utf8EncodeChar ',').length = 1 ∧
      (String.utf8EncodeChar ':').length = 1 := by decide
  rw [Json.compactFields, encode_cons, encode_append, encode_cons, encode_append]
  simp only [List.length_append, hname.quoted_length, hcomma.1, hcomma.2]
  omega

theorem closing_length : (encode (Json.compactFields [])).length = 1 := by decide

theorem oid_length (oid : ObjectOid) : (encode (Json.compact (.str oid.toText))).length = 66 := by
  rw [Json.compact, ObjectOid.toText_eq, (simple_hexDigits _).quoted_length, length_hexDigits]

theorem descriptor_length (d : ChunkDescriptor) : (encode d.toJson.compact).length ≤ 123 := by
  have hid : (encode (Json.compact (.str d.id.toText))).length = 66 := oid_length ⟨d.id.digest⟩
  have hoffset := number_length (n := d.offset.toNat) (k := 20) (by decide)
    (d.offset.toNat_lt.trans (by decide))
  have hlength := number_length (n := d.length.toNat) (k := 10) (by decide)
    (d.length.toNat_lt.trans (by decide))
  have hnames : "id".toList.length = 2 ∧ "offset".toList.length = 6 ∧
      "length".toList.length = 6 := by decide
  rw [ChunkDescriptor.toJson, obj_length (by decide), fields_length (by decide), fields_length (by decide),
    closing_length]
  omega

theorem items_length (ds : List ChunkDescriptor) :
    (encode (Json.compactItems (ds.map ChunkDescriptor.toJson))).length ≤ 124 * ds.length + 1 := by
  induction ds with
  | nil => decide
  | cons d ds ih =>
    have hd := descriptor_length d
    have hcomma : (String.utf8EncodeChar ',').length = 1 := by decide
    rw [List.map_cons, Json.compactItems, encode_cons, encode_append]
    simp only [List.length_append, List.length_cons, hcomma]
    omega

theorem chunks_length (ds : List ChunkDescriptor) :
    (encode (Json.compact (.arr (ds.map ChunkDescriptor.toJson)))).length ≤ 124 * ds.length + 2 := by
  cases ds with
  | nil => decide
  | cons d ds =>
    have hd := descriptor_length d
    have hrest := items_length ds
    have hbracket : (String.utf8EncodeChar '[').length = 1 := by decide
    rw [List.map_cons, Json.compact, encode_cons, encode_append]
    simp only [List.length_append, List.length_cons, hbracket]
    omega

theorem manifest_length (m : ObjectManifest) :
    (encode m.toJson.compact).length ≤ 124 * m.chunks.length + 200 := by
  have hversion : (encode m.version.toJson.compact).length ≤ 12 := by
    cases m.version
    decide
  have hprofile : (encode m.profile.toJson.compact).length ≤ 12 := by
    cases m.profile
    decide
  have hoid := oid_length m.objectOid
  have hsize := number_length (n := m.objectSize.toNat) (k := 20) (by decide)
    (m.objectSize.toNat_lt.trans (by decide))
  have hchunks := chunks_length m.chunks
  have hnames : "version".toList.length = 7 ∧ "profile".toList.length = 7 ∧
      "object_oid".toList.length = 10 ∧ "object_size".toList.length = 11 ∧
      "chunks".toList.length = 6 := by decide
  rw [ObjectManifest.toJson, obj_length (by decide), fields_length (by decide), fields_length (by decide),
    fields_length (by decide), fields_length (by decide), closing_length]
  omega

theorem BeginUploadRequest.body_length (q : BeginUploadRequest) :
    q.body.length ≤ 124 * q.manifest.chunks.length + 250 := by
  have hversion := number_length (n := q.protocolVersion.toNat) (k := 5) (by decide)
    (q.protocolVersion.toNat_lt.trans (by decide))
  have hmanifest := manifest_length q.manifest
  have hnames : "protocol_version".toList.length = 16 ∧ "manifest".toList.length = 8 := by decide
  rw [BeginUploadRequest.body, BeginUploadRequest.toJson, obj_length (by decide), fields_length (by decide),
    closing_length]
  omega

/-- **Every admissible upload fits.** Of a manifest that `validate` accepts, the request that
begins the upload and the body of every chunk are within the limit. -/
theorem upload_fits {m : ObjectManifest} (h : m.validate = .ok ()) :
    (∀ version : UInt16, (BeginUploadRequest.body ⟨version, m⟩).length ≤ bodyLimit) ∧
    ∀ d ∈ m.chunks, ∀ body : Bytes, body.length = d.length.toNat → body.length ≤ bodyLimit := by
  obtain ⟨-, -, hcount, hchunks⟩ := validate_ok h
  unfold maxChunkDescriptors at hcount
  unfold bodyLimit
  constructor
  · intro version
    have hbody := BeginUploadRequest.body_length ⟨version, m⟩
    simp only at hbody
    omega
  · intro d hd body hlength
    obtain ⟨-, hmax, -⟩ := hchunks d hd
    rw [profile_maximum] at hmax
    omega

/-- A manifest of one chunk of the largest size. -/
theorem upload_fits_chunk :
    (BeginUploadRequest.body ⟨1, ⟨.v1, .fastCdcV1, ⟨0⟩, 8388608, [⟨⟨1⟩, 0, 8388608⟩]⟩⟩).length ≤ bodyLimit ∧
    ∀ body : Bytes, body.length = 8388608 → body.length ≤ bodyLimit := by
  have hvalid : ObjectManifest.validate ⟨.v1, .fastCdcV1, ⟨0⟩, 8388608, [⟨⟨1⟩, 0, 8388608⟩]⟩ = .ok () := by
    decide
  obtain ⟨hbegin, hchunk⟩ := upload_fits hvalid
  refine ⟨hbegin 1, fun body hbody => ?_⟩
  exact hchunk _ List.mem_cons_self body hbody

/-- **No object within the documented size is refused for the size of its requests.** -/
theorem object_fits {H : Hashes} {cut : Cutter} (hcut : cut.Conforms) {source : Bytes} {cs : List Chunk}
    {m : ObjectManifest} (hlen : source.length ≤ maxObjectSize) (h : chunkObject H cut source = .ok (cs, m))
    (version : UInt16) : (BeginUploadRequest.body ⟨version, m⟩).length ≤ bodyLimit := by
  obtain ⟨hvalid, -⟩ := chunkObject_validate hcut hlen h
  exact (upload_fits hvalid).1 version

end GitLfsDelta
