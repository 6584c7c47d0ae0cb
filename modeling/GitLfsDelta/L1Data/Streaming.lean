import GitLfsDelta.L1Data.ChunkStream

/-!
# Reading a source through `ChunkStream`

The iterator one `next` at a time, and `finish` after any number of them. Two passes over one
file rest on this: the client pulls all chunks in its second pass and none in its first, the
server drops the chunks of its first pass and registers those of its second.

`stream_faithful`: however many chunks were pulled before `finish`, the chunks are the source
cut up, and the manifest is the one that describes it.
-/
namespace GitLfsDelta

namespace ChunkStream

/-- `Iterator::next`; a chunk that is refused is gone.
mirrors crates/git-lfs-delta-core/src/stream.rs:88-112 -/
def next (H : Hashes) (s : ChunkStream) : Option (Except CoreError Chunk) × ChunkStream :=
  match s.inner with
  | [] => (none, s)
  | raw :: rest =>
    match s.accept H raw with
    | .error e => (some (.error e), { s with inner := rest })
    | .ok (chunk, s') => (some (.ok chunk), s')

/-- At most `k` items of the iterator. -/
def pulls (H : Hashes) : Nat → ChunkStream → List (Except CoreError Chunk) × ChunkStream
  | 0, s => ([], s)
  | k + 1, s =>
    match s.next H with
    | (none, s') => ([], s')
    | (some item, s') =>
      let (items, s'') := pulls H k s'
      (item :: items, s'')

/-- mirrors crates/git-lfs-delta-core/src/stream.rs:54-65 -/
def finish (H : Hashes) (s : ChunkStream) : Except CoreError ObjectManifest :=
  match pullAll H s.inner s with
  | .error e => .error e
  | .ok (_, s') => .ok (s'.completedManifest H)

/-- mirrors crates/git-lfs-delta-core/src/stream.rs:67-75 -/
def collectManifest (H : Hashes) (s : ChunkStream) : Except CoreError ObjectManifest := s.finish H

end ChunkStream

variable {H : Hashes} {cut : Cutter} {s s' : ChunkStream} {raws raws' : List RawChunk}

/-! ## Pulling some, then the rest -/

theorem accept_inner {raw : RawChunk} {c : Chunk} (h : s.accept H raw = .ok (c, s')) :
    s'.inner = s.inner.tail := by
  unfold ChunkStream.accept at h
  split at h
  · cases h; rfl
  · cases h

theorem pullAll_inner : ∀ {raws : List RawChunk} {s s' : ChunkStream} {cs : List Chunk},
    ChunkStream.pullAll H raws s = .ok (cs, s') → s'.inner = s.inner.drop raws.length
  | [], s, s', cs, h => by cases h; rfl
  | raw :: rest, s, s', cs, h => by
    unfold ChunkStream.pullAll at h
    split at h; · cases h
    rename_i c s₁ hacc
    split at h; · cases h
    rename_i cs₁ s₂ hrest
    cases h
    rw [pullAll_inner hrest, accept_inner hacc, List.drop_tail, List.length_cons]

/-- Chunks that fit a descriptor are never refused. -/
theorem pullAll_total : ∀ (raws : List RawChunk) (s : ChunkStream),
    (∀ raw ∈ raws, raw.data.length < 2 ^ 32) → ∃ cs s', ChunkStream.pullAll H raws s = .ok (cs, s') := by
  intro raws
  induction raws with
  | nil =>
    intro s _
    exact ⟨[], s, rfl⟩
  | cons raw rest ih =>
    intro s hsmall
    have hraw := hsmall raw List.mem_cons_self
    obtain ⟨c, s₁, hacc⟩ : ∃ c s₁, s.accept H raw = .ok (c, s₁) := by
      unfold ChunkStream.accept
      rw [if_pos hraw]
      exact ⟨_, _, rfl⟩
    obtain ⟨cs, s₂, hrest⟩ := ih s₁ fun x hx => hsmall x (List.mem_cons_of_mem _ hx)
    refine ⟨c :: cs, s₂, ?_⟩
    simp only [ChunkStream.pullAll, hacc, hrest]

theorem pullAll_append {cs cs' : List Chunk} {s'' : ChunkStream}
    (h : ChunkStream.pullAll H raws s = .ok (cs, s'))
    (h' : ChunkStream.pullAll H raws' s' = .ok (cs', s'')) :
    ChunkStream.pullAll H (raws ++ raws') s = .ok (cs ++ cs', s'') := by
  induction raws generalizing s cs with
  | nil =>
    cases h
    exact h'
  | cons raw rest ih =>
    unfold ChunkStream.pullAll at h
    split at h; · cases h
    rename_i c s₁ hacc
    split at h; · cases h
    rename_i cs₁ s₂ hrest
    cases h
    simp only [List.cons_append, ChunkStream.pullAll, hacc, ih hrest]

/-- The iterator yields the chunks that `pullAll` takes in one go. -/
theorem pulls_eq : ∀ {k : Nat} {s s' : ChunkStream} {cs : List Chunk},
    ChunkStream.pullAll H (s.inner.take k) s = .ok (cs, s') → s.pulls H k = (cs.map .ok, s')
  | 0, s, s', cs, h => by
    rw [List.take_zero] at h
    cases h; rfl
  | k + 1, s, s', cs, h => by
    cases hinner : s.inner with
    | nil =>
      rw [hinner, List.take_nil] at h
      cases h
      simp only [ChunkStream.pulls, ChunkStream.next, hinner, List.map_nil]
    | cons raw rest =>
      rw [hinner, List.take_succ_cons] at h
      unfold ChunkStream.pullAll at h
      split at h; · cases h
      rename_i c s₁ hacc
      split at h; · cases h
      rename_i cs₁ s₂ hrest
      cases h
      have htail : s₁.inner = rest := by rw [accept_inner hacc, hinner, List.tail_cons]
      have ih := pulls_eq (k := k) (s := s₁) (by rw [htail]; exact hrest)
      simp only [ChunkStream.pulls, ChunkStream.next, hinner, hacc, ih, List.map_cons]

/-- A chunk of the iterator is the next one of the cutter. -/
theorem next_ok {chunk : Chunk} (h : s.next H = (some (.ok chunk), s')) :
    ∃ raw, s.inner = raw :: s'.inner ∧ chunk.data = raw.data := by
  unfold ChunkStream.next at h
  split at h
  · cases h
  · rename_i raw rest hinner
    split at h
    · cases h
    · rename_i c s₁ haccept
      cases h
      obtain ⟨-, -, -, hdata⟩ := accept_ok haccept
      have htail := accept_inner haccept
      rw [hinner] at htail
      exact ⟨raw, by rw [hinner, htail, List.tail_cons], hdata⟩

/-- The manifest has a descriptor for each chunk. -/
theorem finish_length {source : Bytes} {m : ObjectManifest}
    (h : (ChunkStream.new cut source .fastCdcV1).finish H = .ok m) :
    m.chunks.length = (cut source).length := by
  unfold ChunkStream.finish at h
  split at h
  · cases h
  rename_i cs stream hall
  cases h
  obtain ⟨hdescriptors, -⟩ := pullAll_size hall
  rw [ChunkStream.completedManifest, hdescriptors, List.length_append, List.length_map]
  exact Nat.zero_add _

/-! ## Slices of the source -/

theorem total_cons (raw : RawChunk) (raws : List RawChunk) :
    total (raw :: raws) = raw.data.length + total raws := by
  simp [total]

/-- Chunk number `i` is the slice of the source behind the chunks before it. -/
theorem flatten_slice : ∀ {raws : List RawChunk} {i : Nat} {raw : RawChunk}, raws[i]? = some raw →
    (((raws.map (·.data)).flatten).drop (total (raws.take i))).take raw.data.length = raw.data
  | [], i, raw, h => by simp at h
  | x :: rest, 0, raw, h => by
    obtain rfl : x = raw := by simpa using h
    simp [total]
  | x :: rest, i + 1, raw, h => by
    rw [List.getElem?_cons_succ] at h
    rw [List.take_succ_cons, total_cons, List.map_cons, List.flatten_cons, ← List.drop_drop,
      List.drop_left]
    exact flatten_slice h

theorem contiguous_get {minimum maximum : Nat} : ∀ {raws : List RawChunk} {o i : Nat}
    {raw : RawChunk}, Contiguous minimum maximum o raws → raws[i]? = some raw →
    raw.offset = UInt64.ofNat (o + total (raws.take i)) ∧ 0 < raw.data.length ∧
      raw.data.length ≤ maximum
  | [], _, i, raw, _, h => by simp at h
  | x :: rest, o, 0, raw, hc, h => by
    obtain rfl : x = raw := by simpa using h
    exact ⟨by simpa [total] using hc.1, hc.2.1, hc.2.2.1⟩
  | x :: rest, o, i + 1, raw, hc, h => by
    rw [List.getElem?_cons_succ] at h
    have hrest := contiguous_get hc.2.2.2.2 h
    rwa [List.take_succ_cons, total_cons, ← Nat.add_assoc]

theorem coverage_descriptors {raws : List RawChunk} (h : ∀ raw ∈ raws, raw.data.length < 2 ^ 32) :
    coverage (raws.map (·.descriptor H)) = total raws := by
  induction raws with
  | nil => rfl
  | cons raw rest ih =>
    have hraw := h raw List.mem_cons_self
    rw [List.map_cons, coverage_cons, total_cons, ih fun x hx => h x (List.mem_cons_of_mem _ hx)]
    simp only [RawChunk.descriptor, UInt32.toNat_ofNat']
    omega

/-- The manifest describes the source: the identity and size of the whole, and of every slice
its identity, where it starts and how long it is. Sizes and offsets are 64-bit numbers. -/
structure ObjectManifest.Records (H : Hashes) (source : Bytes) (m : ObjectManifest) : Prop where
  oid : m.objectOid = H.sha256 source
  size : m.objectSize = UInt64.ofNat source.length
  covers : coverage m.chunks = source.length
  slice : ∀ i d, m.chunks[i]? = some d → 0 < d.length.toNat ∧
    d.offset = UInt64.ofNat (coverage (m.chunks.take i)) ∧
    d.id = H.blake3 ((source.drop (coverage (m.chunks.take i))).take d.length.toNat)

/-- A source of fewer than `2 ^ 64` bytes has its true size and offsets in the manifest. -/
theorem ObjectManifest.Records.exact {source : Bytes} {m : ObjectManifest}
    (h : m.Records H source) (hlen : source.length < 2 ^ 64) :
    m.objectSize.toNat = source.length ∧
      ∀ i d, m.chunks[i]? = some d → d.offset.toNat = coverage (m.chunks.take i) := by
  constructor
  · rw [h.size, UInt64.toNat_ofNat', Nat.mod_eq_of_lt hlen]
  · intro i d hd
    have hle : coverage (m.chunks.take i) ≤ coverage m.chunks := by
      conv => rhs; rw [← List.take_append_drop i m.chunks]
      rw [coverage_append]
      omega
    rw [h.covers] at hle
    rw [(h.slice i d hd).2.1, UInt64.toNat_ofNat', Nat.mod_eq_of_lt (by omega)]

theorem Cutter.Conforms.small (hcut : cut.Conforms) (source : Bytes) :
    ∀ raw ∈ cut source, raw.data.length < 2 ^ 32 := by
  intro raw hraw
  obtain ⟨i, hi⟩ := List.mem_iff_getElem?.1 hraw
  have hmax := (contiguous_get (hcut.contiguous source) hi).2.2
  simp only [ChunkingProfile.sizes] at hmax
  omega

/-- The chunks and the manifest of a source, for a cutter that keeps its promises. -/
theorem chunkObject_records (hcut : cut.Conforms) (H : Hashes) (source : Bytes) :
    ∃ chunks m, chunkObject H cut source = .ok (chunks, m) ∧
      (chunks.map (·.data)).flatten = source ∧ m.chunks = chunks.map (·.descriptor) ∧
      m.Records H source := by
  have hsmall := hcut.small source
  obtain ⟨chunks, s, hp⟩ := pullAll_total (H := H) (cut source)
    (ChunkStream.new cut source .fastCdcV1) hsmall
  have hobject : chunkObject H cut source = .ok (chunks, s.completedManifest H) := by
    show (match ChunkStream.pullAll H (cut source) _ with | .error e => _ | .ok (chunks, s') => _) = _
    rw [hp]
  obtain ⟨-, hds, hoid, hdata⟩ := chunkObject_spec hobject
  have hwhole : (chunks.map (·.data)).flatten = source := by rw [hdata, hcut.whole]
  obtain ⟨hraw, -, hsize⟩ := pullAll_size hp
  have hmap : (s.completedManifest H).chunks = (cut source).map (·.descriptor H) := by
    simpa [ChunkStream.new, ChunkStream.completedManifest] using hraw
  have htotal : total (cut source) = source.length := by
    rw [← length_flatten_data, hcut.whole]
  refine ⟨chunks, _, hobject, hwhole, hds, ?_, ?_, ?_, ?_⟩
  · rw [hoid, hwhole]
  · show s.objectSize = _
    rw [hsize, htotal]
    simp [ChunkStream.new]
  · rw [hmap, coverage_descriptors hsmall, htotal]
  · intro i d hd
    rw [hmap, List.getElem?_map, Option.map_eq_some_iff] at hd
    obtain ⟨raw, hget, rfl⟩ := hd
    obtain ⟨hoffset, hpos, -⟩ := contiguous_get (hcut.contiguous source) hget
    have hlen : (raw.descriptor H).length.toNat = raw.data.length := by
      have := hsmall raw (List.mem_of_getElem? hget)
      simp only [RawChunk.descriptor, UInt32.toNat_ofNat']
      omega
    have hbefore : coverage ((s.completedManifest H).chunks.take i) = total ((cut source).take i) := by
      rw [hmap, ← List.map_take]
      exact coverage_descriptors fun x hx => hsmall x (List.mem_of_mem_take hx)
    have hslice := flatten_slice hget
    rw [hcut.whole] at hslice
    rw [hbefore, hlen, hslice]
    rw [Nat.zero_add] at hoffset
    exact ⟨hpos, hoffset, rfl⟩

/-- **A stream describes its source, however it is read.** Pull any number of chunks, then
finish: the chunks pulled and the rest are the source, in order; the manifest is that of
`collect_manifest`, describes the source, and passes `validate` if the source is within the
size limit. -/
theorem stream_faithful (hcut : cut.Conforms) (H : Hashes) (source : Bytes) (k : Nat) :
    ∃ (pulled rest : List Chunk) (s' s'' : ChunkStream) (m : ObjectManifest),
      (ChunkStream.new cut source .fastCdcV1).pulls H k = (pulled.map .ok, s') ∧
      s'.pulls H s'.inner.length = (rest.map .ok, s'') ∧ s''.inner = [] ∧
      s'.finish H = .ok m ∧
      ((pulled ++ rest).map (·.data)).flatten = source ∧
      m.chunks = (pulled ++ rest).map (·.descriptor) ∧
      (ChunkStream.new cut source .fastCdcV1).collectManifest H = .ok m ∧
      m.Records H source ∧
      (source.length < 2 ^ 64 → m.objectSize.toNat = source.length ∧
        ∀ i d, m.chunks[i]? = some d → d.offset.toNat = coverage (m.chunks.take i)) ∧
      (source.length ≤ maxObjectSize →
        m.validate = .ok () ∧ m.chunks.length ≤ maxChunkDescriptors) := by
  have hsmall := hcut.small source
  obtain ⟨chunks, m, hobject, hwhole, hds, hrecords⟩ := chunkObject_records hcut H source
  -- the whole pass is the first `k` chunks and then the others
  obtain ⟨pulled, s', hfirst⟩ := pullAll_total (H := H) ((cut source).take k)
    (ChunkStream.new cut source .fastCdcV1) fun x hx => hsmall x (List.mem_of_mem_take hx)
  have hinner : s'.inner = (cut source).drop k := by
    have h := pullAll_inner hfirst
    rw [h]
    show (cut source).drop ((cut source).take k).length = _
    rw [List.length_take]
    rcases Nat.le_total k (cut source).length with hle | hle
    · rw [Nat.min_eq_left hle]
    · rw [Nat.min_eq_right hle, List.drop_eq_nil_of_le (le_refl _), List.drop_eq_nil_of_le hle]
  obtain ⟨rest, s'', hrest⟩ := pullAll_total (H := H) s'.inner s' fun x hx =>
    hsmall x (List.mem_of_mem_drop (hinner ▸ hx))
  have hall := pullAll_append hfirst hrest
  rw [hinner, List.take_append_drop] at hall
  have hsame : chunkObject H cut source = .ok (pulled ++ rest, s''.completedManifest H) := by
    show (match ChunkStream.pullAll H (cut source) _ with | .error e => _ | .ok (chunks, s') => _) = _
    rw [hall]
  obtain ⟨rfl, rfl⟩ := Prod.mk.inj (Except.ok.inj (hobject.symm.trans hsame))
  have hdrained : s''.inner = [] := by
    rw [pullAll_inner hrest, List.drop_eq_nil_of_le (le_refl _)]
  refine ⟨pulled, rest, s', s'', _, pulls_eq hfirst, ?_, hdrained, ?_, hwhole, hds, ?_, hrecords,
    hrecords.exact, ?_⟩
  · exact pulls_eq (by rw [List.take_length]; exact hrest)
  · simp only [ChunkStream.finish, hrest]
  · show (match ChunkStream.pullAll H (cut source) _ with | .error e => _ | .ok (_, s') => _) = _
    rw [hall]
  · intro hlen
    have hvalid := (chunkObject_validate hcut hlen hobject).1
    exact ⟨hvalid, (validate_ok hvalid).2.2.1⟩

/-- A cutter that keeps its promises exists. -/
theorem stream_faithful_maximal : Sample.maximalCut.Conforms ∧
    ∃ m, (ChunkStream.new Sample.maximalCut [0x61, 0x62] .fastCdcV1).collectManifest Sample.hashes =
      .ok m ∧ m.Records Sample.hashes [0x61, 0x62] := by
  obtain ⟨-, -, -, -, m, -, -, -, -, -, -, hcollect, hrecords, -⟩ :=
    stream_faithful Sample.maximalCut_conforms Sample.hashes [0x61, 0x62] 1
  exact ⟨Sample.maximalCut_conforms, m, hcollect, hrecords⟩

end GitLfsDelta
