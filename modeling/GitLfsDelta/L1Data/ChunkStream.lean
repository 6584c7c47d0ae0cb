import GitLfsDelta.L1Data.Manifest

/-!
# Content-defined chunking (`ChunkStream`)

`ChunkStream` wraps `fastcdc::v2020::StreamCDC`: it hashes every chunk with BLAKE3,
feeds the bytes to the object's SHA-256 and records a descriptor. The cutter itself
is library code, so a source is represented by the chunks the cutter yields for it
(`Cutter`). Where the cuts fall matters to no result; `Cutter.Conforms` is what the library
promises about them, and the results that rest on it say so.

`chunkObject_spec`: the descriptors of the finished manifest are those of the
chunks, each carrying the identity and length of its data, the object's identity is
the SHA-256 of the concatenated data, and the data is what the cutter yields.
`chunkObject_validate`: `ObjectManifest::validate` accepts it.
-/
namespace GitLfsDelta

/-- A chunk as `StreamCDC` yields it. -/
structure RawChunk where
  offset : UInt64
  data : Bytes
  deriving DecidableEq, Repr

/-- The cutter: the chunks `StreamCDC` yields for a source. -/
abbrev Cutter := Bytes → List RawChunk

/-- mirrors crates/git-lfs-delta-core/src/stream.rs:12-17 -/
structure Chunk where
  descriptor : ChunkDescriptor
  data : Bytes
  deriving DecidableEq, Repr

/-- mirrors crates/git-lfs-delta-core/src/stream.rs:21-28 (`Chunking`, a read error of
the source, has no counterpart in a source given by its bytes). -/
inductive CoreError
  | chunkTooLarge (length : Nat)
  deriving DecidableEq, Repr

/-- mirrors crates/git-lfs-delta-core/src/stream.rs:31-37; `hashed` is what the SHA-256
hasher has consumed and `inner` what the cutter still yields. -/
structure ChunkStream where
  inner : List RawChunk
  profile : ChunkingProfile
  hashed : Bytes
  descriptors : List ChunkDescriptor
  objectSize : UInt64
  deriving DecidableEq, Repr

def ChunkStream.new (cut : Cutter) (source : Bytes) (profile : ChunkingProfile) : ChunkStream :=
  ⟨cut source, profile, [], [], 0⟩

/-- `Iterator::next` on a stream whose cutter yields `raw` next.
mirrors crates/git-lfs-delta-core/src/stream.rs:92-111 -/
def ChunkStream.accept (H : Hashes) (s : ChunkStream) (raw : RawChunk) :
    Except CoreError (Chunk × ChunkStream) :=
  if raw.data.length < 2 ^ 32 then
    let length := UInt32.ofNat raw.data.length
    let descriptor : ChunkDescriptor := ⟨H.blake3 raw.data, raw.offset, length⟩
    .ok (⟨descriptor, raw.data⟩,
      { s with
        inner := s.inner.tail
        hashed := s.hashed ++ raw.data
        descriptors := s.descriptors ++ [descriptor]
        objectSize := s.objectSize + length.toUInt64 })
  else .error (.chunkTooLarge raw.data.length)

/-- Pulling every remaining chunk, stopping at the first error; the recursion is on
what the cutter still yields. -/
def ChunkStream.pullAll (H : Hashes) : List RawChunk → ChunkStream →
    Except CoreError (List Chunk × ChunkStream)
  | [], s => .ok ([], s)
  | raw :: rest, s =>
    match s.accept H raw with
    | .error e => .error e
    | .ok (chunk, s') =>
      match pullAll H rest s' with
      | .error e => .error e
      | .ok (chunks, s'') => .ok (chunk :: chunks, s'')

/-- mirrors crates/git-lfs-delta-core/src/stream.rs:77-86 -/
def ChunkStream.completedManifest (H : Hashes) (s : ChunkStream) : ObjectManifest :=
  ⟨.v1, s.profile, H.sha256 s.hashed, s.objectSize, s.descriptors⟩

/-- Both passes over a source at once: the chunks and the finished manifest
(`ChunkStream::new`, the iterator, `finish`).
mirrors crates/git-lfs-delta-core/src/stream.rs:42-65 -/
def chunkObject (H : Hashes) (cut : Cutter) (source : Bytes) :
    Except CoreError (List Chunk × ObjectManifest) :=
  let s := ChunkStream.new cut source .fastCdcV1
  match s.pullAll H s.inner with
  | .error e => .error e
  | .ok (chunks, s') => .ok (chunks, s'.completedManifest H)

/-- A chunk's descriptor carries its data's identity and length. -/
def Chunk.Faithful (H : Hashes) (c : Chunk) : Prop :=
  H.blake3 c.data = c.descriptor.id ∧ c.data.length = c.descriptor.length.toNat

theorem accept_ok {H : Hashes} {s s' : ChunkStream} {raw : RawChunk} {c : Chunk}
    (h : s.accept H raw = .ok (c, s')) :
    c.Faithful H ∧ s'.descriptors = s.descriptors ++ [c.descriptor] ∧
      s'.hashed = s.hashed ++ c.data ∧ c.data = raw.data := by
  unfold ChunkStream.accept at h
  split at h
  · rename_i hlt
    cases h
    refine ⟨⟨rfl, ?_⟩, rfl, rfl, rfl⟩
    simp only [UInt32.toNat_ofNat']; omega
  · cases h

theorem pullAll_ok {H : Hashes} : ∀ {raws : List RawChunk} {s s' : ChunkStream} {cs : List Chunk},
    ChunkStream.pullAll H raws s = .ok (cs, s') →
    (∀ c ∈ cs, c.Faithful H) ∧ s'.descriptors = s.descriptors ++ cs.map (·.descriptor) ∧
      s'.hashed = s.hashed ++ (cs.map (·.data)).flatten ∧ cs.map (·.data) = raws.map (·.data)
  | [], s, s', cs, h => by cases h; simp
  | raw :: rest, s, s', cs, h => by
    unfold ChunkStream.pullAll at h
    split at h; · cases h
    rename_i c s₁ hacc
    split at h; · cases h
    rename_i cs₁ s₂ hrest
    cases h
    obtain ⟨hf, hd, hh, hdata⟩ := accept_ok hacc
    obtain ⟨hall, hds, hhs, hraw⟩ := pullAll_ok hrest
    refine ⟨?_, by rw [hds, hd]; simp, by rw [hhs, hh]; simp, by simp [hdata, hraw]⟩
    intro x hx
    rcases List.mem_cons.1 hx with rfl | hx
    · exact hf
    · exact hall x hx

/-- **A finished manifest describes its chunks.** -/
theorem chunkObject_spec {H : Hashes} {cut : Cutter} {source : Bytes} {cs : List Chunk}
    {m : ObjectManifest} (h : chunkObject H cut source = .ok (cs, m)) :
    (∀ c ∈ cs, c.Faithful H) ∧ m.chunks = cs.map (·.descriptor) ∧
      m.objectOid = H.sha256 (cs.map (·.data)).flatten ∧
      cs.map (·.data) = (cut source).map (·.data) := by
  unfold chunkObject at h
  simp only at h
  split at h; · cases h
  rename_i cs₁ s₁ hp
  cases h
  obtain ⟨hall, hds, hhs, hraw⟩ := pullAll_ok hp
  refine ⟨hall, by simpa [ChunkStream.new, ChunkStream.completedManifest] using hds, ?_, hraw⟩
  simp [ChunkStream.completedManifest, hhs, ChunkStream.new]

/-! ## Conforming cutters -/

/-- Chunks as `StreamCDC` yields them from offset `o` on: contiguous, not empty, of at most
the maximum size, and of at least the minimum size unless they end the source. -/
def Contiguous (minimum maximum : Nat) : Nat → List RawChunk → Prop
  | _, [] => True
  | o, raw :: rest =>
    raw.offset = UInt64.ofNat o ∧ 0 < raw.data.length ∧ raw.data.length ≤ maximum ∧
      (rest ≠ [] → minimum ≤ raw.data.length) ∧
      Contiguous minimum maximum (o + raw.data.length) rest

/-- What `fastcdc` promises for the sizes of `FastCdcV1`. -/
structure Cutter.Conforms (cut : Cutter) : Prop where
  whole : ∀ source, ((cut source).map (·.data)).flatten = source
  contiguous : ∀ source, Contiguous ChunkingProfile.fastCdcV1.sizes.1
    ChunkingProfile.fastCdcV1.sizes.2.2 0 (cut source)

/-- The bytes of a list of chunks. -/
def total (raws : List RawChunk) : Nat := (raws.map fun raw => raw.data.length).sum

theorem length_flatten_data (raws : List RawChunk) :
    ((raws.map (·.data)).flatten).length = total raws := by
  simp [total, List.length_flatten, List.map_map, Function.comp_def]

/-- The descriptor `accept` records. -/
def RawChunk.descriptor (H : Hashes) (raw : RawChunk) : ChunkDescriptor :=
  ⟨H.blake3 raw.data, raw.offset, UInt32.ofNat raw.data.length⟩

theorem pullAll_size {H : Hashes} : ∀ {raws : List RawChunk} {s s' : ChunkStream} {cs : List Chunk},
    ChunkStream.pullAll H raws s = .ok (cs, s') →
    s'.descriptors = s.descriptors ++ raws.map (·.descriptor H) ∧ s'.profile = s.profile ∧
      s'.objectSize = s.objectSize + UInt64.ofNat (total raws)
  | [], s, s', cs, h => by
    cases h
    simp [total]
  | raw :: rest, s, s', cs, h => by
    unfold ChunkStream.pullAll at h
    split at h; · cases h
    rename_i c s₁ hacc
    split at h; · cases h
    rename_i cs₁ s₂ hrest
    cases h
    unfold ChunkStream.accept at hacc
    split at hacc
    · rename_i hlt
      cases hacc
      obtain ⟨hds, hprofile, hsize⟩ := pullAll_size hrest
      refine ⟨?_, hprofile, ?_⟩
      · rw [hds]; simp [RawChunk.descriptor]
      · have hlen : (UInt32.ofNat raw.data.length).toUInt64 = UInt64.ofNat raw.data.length := by
          apply UInt64.toNat_inj.1
          rw [UInt32.toNat_toUInt64, UInt32.toNat_ofNat', UInt64.toNat_ofNat']
          omega
        rw [hsize, hlen, UInt64.add_assoc, ← UInt64.ofNat_add]
        simp [total]
    · cases hacc

/-- The loop of `validate` accepts contiguous chunks and ends at their end. -/
theorem validateChunks_contiguous {H : Hashes} {minimum maximum : Nat} (hmax : maximum < 2 ^ 32) :
    ∀ {raws : List RawChunk} {o : Nat} (index : Nat), Contiguous minimum maximum o raws →
    o + total raws < 2 ^ 64 →
    validateChunks minimum maximum index (UInt64.ofNat o) (raws.map (·.descriptor H)) =
      .ok (UInt64.ofNat (o + total raws))
  | [], o, index, _, _ => by simp [validateChunks, total]
  | raw :: rest, o, index, h, hlt => by
    obtain ⟨hoffset, hpos, hle, hmin, hrest⟩ := h
    have hsum : total (raw :: rest) = raw.data.length + total rest := by simp [total]
    have hlen : (raw.descriptor H).length.toNat = raw.data.length := by
      rw [RawChunk.descriptor, UInt32.toNat_ofNat']; omega
    have hstart : ¬(raw.descriptor H).offset ≠ UInt64.ofNat o := not_not.2 hoffset
    have h0 : (raw.descriptor H).length ≠ 0 := by
      intro e
      rw [e] at hlen
      exact absurd hlen.symm (Nat.ne_of_gt hpos)
    have hadd : checkedAdd (UInt64.ofNat o) (raw.descriptor H).length.toUInt64 =
        some (UInt64.ofNat (o + raw.data.length)) := by
      unfold checkedAdd
      rw [UInt32.toNat_toUInt64, hlen, UInt64.toNat_ofNat', if_pos (by omega)]
      congr 1
      apply UInt64.toNat_inj.1
      rw [UInt64.toNat_add, UInt32.toNat_toUInt64, hlen, UInt64.toNat_ofNat', UInt64.toNat_ofNat']
      omega
    have hsmall : ¬(rest.map (·.descriptor H) ≠ [] ∧ (raw.descriptor H).length.toNat < minimum) := by
      intro h
      have := hmin fun e => h.1 (by rw [e]; rfl)
      omega
    rw [List.map_cons, validateChunks, if_neg h0, if_neg hstart, if_neg (by omega),
      if_neg hsmall, hadd]
    simp only
    rw [validateChunks_contiguous hmax (index + 1) hrest (by omega), hsum, Nat.add_assoc]

/-- All chunks but the last are of the minimum size. -/
theorem length_contiguous {minimum maximum : Nat} : ∀ {raws : List RawChunk} {o : Nat},
    Contiguous minimum maximum o raws → raws ≠ [] →
    (raws.length - 1) * minimum + 1 ≤ total raws
  | [], _, _, hne => absurd rfl hne
  | raw :: rest, o, h, _ => by
    obtain ⟨-, hpos, -, hmin, hrest⟩ := h
    have hsum : total (raw :: rest) = raw.data.length + total rest := by simp [total]
    rcases Decidable.em (rest = []) with rfl | hne
    · simp [total]; omega
    · have ih := length_contiguous hrest hne
      have hlast := hmin hne
      have : 0 < rest.length := List.length_pos_of_ne_nil hne
      obtain ⟨n, hn⟩ : ∃ n, rest.length = n + 1 := ⟨rest.length - 1, by omega⟩
      rw [List.length_cons, hn, Nat.add_sub_cancel, Nat.succ_mul, hsum]
      rw [hn, Nat.add_sub_cancel] at ih
      omega

/-- **Chunked objects are accepted.** The manifest of a source within the size limit passes
`validate`; in particular it has at most `MAX_CHUNK_DESCRIPTORS` chunks. -/
theorem chunkObject_validate {H : Hashes} {cut : Cutter} (hcut : cut.Conforms) {source : Bytes}
    {cs : List Chunk} {m : ObjectManifest} (hlen : source.length ≤ maxObjectSize)
    (h : chunkObject H cut source = .ok (cs, m)) :
    m.validate = .ok () ∧ m.objectSize.toNat = source.length := by
  unfold chunkObject at h
  simp only at h
  split at h; · cases h
  rename_i cs₁ s₁ hp
  cases h
  obtain ⟨hds, hprofile, hsize⟩ := pullAll_size hp
  have hc := hcut.contiguous source
  have htotal : total (cut source) = source.length := by
    rw [← length_flatten_data, hcut.whole]
  have hlt : source.length < 2 ^ 64 := by simp only [maxObjectSize] at hlen; omega
  have hobject : s₁.objectSize = UInt64.ofNat source.length := by
    rw [hsize]; simp [ChunkStream.new, htotal]
  have hnat : s₁.objectSize.toNat = source.length := by
    rw [hobject, UInt64.toNat_ofNat']; omega
  have hcount : (cut source).length ≤ maxChunkDescriptors := by
    rcases Decidable.em (cut source = []) with hnil | hne
    · rw [hnil]; exact Nat.zero_le _
    · have := length_contiguous hc hne
      simp only [ChunkingProfile.sizes, maxObjectSize, maxChunkDescriptors] at this hlen ⊢
      omega
  have hloop := validateChunks_contiguous (H := H) (by decide) 0 hc (by omega)
  refine ⟨?_, hnat⟩
  unfold ObjectManifest.validate
  simp only [ChunkStream.completedManifest, hds, hprofile, ChunkStream.new, List.nil_append,
    List.length_map, hnat]
  rw [if_neg (by omega), if_neg (by omega)]
  rw [show (0 : UInt64) = UInt64.ofNat 0 from rfl, hloop]
  simp [htotal, hobject]

/-! ## Small objects

Digests of the bytes `a`, `b`, `aa` and `ab`. An object below the minimum chunk size is one
chunk. -/

namespace Sample

/-- Two processes, or two workers. -/
def first : Fin 2 := 0

def second : Fin 2 := 1

def digests : List (Bytes × BitVec 256 × BitVec 256) :=
  [([0x61], 0x17762fddd969a453925d65717ac3eea21320b66b54342fde15128d6caf21215f,
      0xca978112ca1bbdcafac231b39a23dc4da786eff8147c4e72b9807785afee48bb),
   ([0x62], 0x10e5cf3d3c8a4f9f3468c8cc58eea84892a22fdadbc1acb22410190044c1d553,
      0x3e23e8160039594a33894f6564e1b1348bbd7a0088d42c4acb73eeaed59c009d),
   ([0x61, 0x61], 0x211db469968e18af8a4c08b0aaca0901a09e1dd5929df5bebf8c38c8c8a12e19,
      0x961b6dd3ede3cb8ecbaacbd68de040cd78eb2ed5889130cceb4c49268ea4d506),
   ([0x61, 0x62], 0x2dc99999a6aaef3f20349d2ed4057a2b54419545dabb809e6381de1bad8337e2,
      0xfb8e20fc2e4c3f248c60c39bd652f3c1347298bb977b8b4d5903b85055620603)]

/-- BLAKE3 and SHA-256 on the byte strings of `digests`. -/
def hashes : Hashes where
  blake3 b := ⟨((digests.lookup b).map (·.1)).getD 0⟩
  sha256 b := ⟨((digests.lookup b).map (·.2)).getD 0⟩

def cut : Cutter := fun source => if source = [] then [] else [⟨0, source⟩]

/-- Pieces of `n` bytes each, the last one shorter. -/
def pieces (n : Nat) : Nat → Nat → Bytes → List RawChunk
  | 0, _, _ => []
  | _ + 1, _, [] => []
  | fuel + 1, o, b :: bs =>
    ⟨UInt64.ofNat o, (b :: bs).take n⟩ ::
      pieces n fuel (o + ((b :: bs).take n).length) ((b :: bs).drop n)

/-- A cutter that cuts at the maximum size only; on small objects it is `cut`. -/
def maximalCut : Cutter := fun source => pieces (8 * 1024 * 1024) source.length 0 source

theorem pieces_flatten {n : Nat} (hn : 0 < n) : ∀ {fuel o : Nat} {b : Bytes}, b.length ≤ fuel →
    ((pieces n fuel o b).map (·.data)).flatten = b
  | 0, _, b, h => by simp [pieces, List.length_eq_zero_iff.1 (Nat.le_zero.1 h)]
  | _ + 1, _, [], _ => rfl
  | fuel + 1, o, b :: bs, h => by
    have hdrop : ((b :: bs).drop n).length ≤ fuel := by
      rw [List.length_drop]; omega
    rw [pieces, List.map_cons, List.flatten_cons, pieces_flatten hn hdrop, List.take_append_drop]

theorem pieces_contiguous {n : Nat} (hn : 0 < n) : ∀ {fuel o : Nat} {b : Bytes},
    Contiguous n n o (pieces n fuel o b)
  | 0, _, _ => trivial
  | _ + 1, _, [] => trivial
  | fuel + 1, o, b :: bs => by
    refine ⟨rfl, ?_, List.length_take_le .., fun hne => ?_, pieces_contiguous hn⟩
    · rw [List.length_take, List.length_cons]; omega
    · -- something is left only if the piece is full
      rcases Nat.lt_or_ge (b :: bs).length n with hlt | hge
      · rw [List.drop_eq_nil_of_le (Nat.le_of_lt hlt)] at hne
        cases fuel <;> exact absurd rfl hne
      · rw [List.length_take, Nat.min_eq_left hge]

theorem Contiguous.weaken {minimum minimum' maximum : Nat} (h : minimum' ≤ minimum) :
    ∀ {raws : List RawChunk} {o : Nat}, Contiguous minimum maximum o raws →
    Contiguous minimum' maximum o raws
  | [], _, _ => trivial
  | _ :: _, _, hc =>
    ⟨hc.1, hc.2.1, hc.2.2.1, fun hne => le_trans h (hc.2.2.2.1 hne), Contiguous.weaken h hc.2.2.2.2⟩

theorem maximalCut_conforms : Cutter.Conforms maximalCut where
  whole source := pieces_flatten (by decide) (le_refl source.length)
  contiguous source := Contiguous.weaken (by decide) (pieces_contiguous (by decide))

def manifest (b : Bytes) : ObjectManifest :=
  ⟨.v1, .fastCdcV1, hashes.sha256 b, UInt64.ofNat b.length,
    [⟨hashes.blake3 b, 0, UInt32.ofNat b.length⟩]⟩

/-- 8 MiB of zeros, which FastCDC cuts at the maximum chunk size. -/
@[irreducible]
def zeros : Bytes := List.replicate (8 * 1024 * 1024) 0

def zerosId : ChunkId := ⟨0x27ddc0a1d824fa6befe0596ddc0136fc4a1dc060d526800851f87498768b755c⟩

def zerosOid : ObjectOid := ⟨0x080acf35a507ac9849cfcba47dc2ad83e01b75663a516279c8b9d243b719643e⟩

/-- BLAKE3 of 8 MiB of zeros and of the empty string, SHA-256 of 16 MiB of zeros. -/
def zeroHashes : Hashes where
  blake3 b := if b = zeros then zerosId
    else ⟨if b = [] then 0xaf1349b9f5f9a1a6a0404dea36dcc9499bcb25c9adc112b7cc9a93cae41f3262 else 0⟩
  sha256 b := if b = zeros ++ zeros then zerosOid else ⟨0⟩

/-- The manifest of 16 MiB of zeros names one chunk twice. -/
def twice : ObjectManifest :=
  ⟨.v1, .fastCdcV1, zerosOid, 16777216, [⟨zerosId, 0, 8388608⟩, ⟨zerosId, 8388608, 8388608⟩]⟩

theorem zeros_length : zeros.length = 8388608 := by
  unfold zeros
  exact List.length_replicate

end Sample

end GitLfsDelta
