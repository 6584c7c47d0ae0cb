import GitLfsDelta.L3Server.Pointers

/-!
# The paths a scan can read

`git grep` prints a path in double quotes as soon as it has a byte outside printable ASCII, a
quote or a backslash, and `git show` takes the path as it is. The scan hands the output
of the one to the other, so a blob with such a path is asked for under another name. The
same happens to a ref whose name has Unicode white space in it: `split_whitespace` cuts it.

* `quotePath_longer`: what is printed for an unusual path is longer, and unusual itself.
* `scans_iff`: the scan reads the matching blobs and returns their pointers exactly if no
  matching path has to be quoted (and the refs can be named).
* `quoted_path_stops_scan`: a repository with one file `é`.
-/
namespace GitLfsDelta

/-! ## Quoted paths -/

namespace GitRepository

theorem escape_ne_nil (b : UInt8) : escape b ≠ [] := by
  unfold escape
  split
  · simp
  split <;> simp

theorem length_le_encode (t : Text) : t.length ≤ (encode t).length := by
  unfold encode
  induction t with
  | nil => simp
  | cons c t ih =>
    have hc : 0 < (String.utf8EncodeChar c).length := by
      rw [String.length_utf8EncodeChar]
      exact Char.utf8Size_pos c
    rw [List.flatMap_cons, List.length_append, List.length_cons]
    omega

theorem length_le_escaped (path : Bytes) : path.length ≤ (path.flatMap escape).length := by
  induction path with
  | nil => simp
  | cons b path ih =>
    have hb := List.length_pos_iff.2 (escape_ne_nil b)
    rw [List.flatMap_cons, List.length_append, List.length_cons]
    omega

/-- What Git prints for an unusual path is longer, and unusual itself. -/
theorem quotePath_longer {path : Bytes} (h : path.all plainByte = false) :
    path.length < (encode (quotePath path)).length ∧ (encode (quotePath path)).all plainByte = false := by
  have hquote : quotePath path = '"' :: (path.flatMap escape ++ ['"']) := by
    simp [quotePath, h]
  rw [hquote]
  constructor
  · have hencode := length_le_encode ('"' :: (path.flatMap escape ++ ['"']))
    have hescaped := length_le_escaped path
    simp only [List.length_cons, List.length_append] at hencode
    omega
  · have hhead : encode ('"' :: (path.flatMap escape ++ ['"'])) =
        0x22 :: encode (path.flatMap escape ++ ['"']) := by
      simp only [encode, List.flatMap_cons]
      rfl
    rw [hhead, List.all_cons]
    rfl

/-- Among finitely many paths that are each printed as one of them none is unusual. -/
theorem plain_of_closed (paths : List Bytes)
    (hclosed : ∀ p ∈ paths, encode (quotePath p) ∈ paths) : ∀ p ∈ paths, p.all plainByte = true := by
  -- an unusual path leads to longer and longer ones
  have hlong : ∀ n, ∀ p ∈ paths, p.all plainByte = false → ∃ q ∈ paths, n ≤ q.length ∧
      q.all plainByte = false := by
    intro n
    induction n with
    | zero =>
      intro p hp hplain
      exact ⟨p, hp, Nat.zero_le _, hplain⟩
    | succ n ih =>
      intro p hp hplain
      obtain ⟨q, hq, hlen, hqplain⟩ := ih p hp hplain
      obtain ⟨hlonger, hunusual⟩ := quotePath_longer hqplain
      exact ⟨_, hclosed q hq, by omega, hunusual⟩
  intro p hp
  by_contra hplain
  rw [Bool.not_eq_true] at hplain
  obtain ⟨q, hq, hlen, -⟩ := hlong (paths.flatten.length + 1) p hp hplain
  have hshort := (List.sublist_flatten_of_mem hq).length_le
  omega

/-! ## Files of the tips -/

variable {g : GitRepository}

/-- A blob with the version line in the tree of a ref's tip. -/
def Matching (g : GitRepository) (c : Commit) (entry : Bytes × Content) : Prop :=
  (∃ r ∈ g.refs, g.commits[r.target]? = some c) ∧ entry ∈ c.tree ∧ contains versionLine entry.2 = true

/-- `git show` is asked for this path of this commit. -/
def Asked (g : GitRepository) (found : List Text) (c : Commit) (path : Bytes) : Prop :=
  ∃ specification ∈ found, ∃ name shown, splitSpecification specification = some (name, shown) ∧
    g.resolve name = some c ∧ path = encode shown

/-- Every ref can be named by the scan, every tip with a matching blob is found under one of these
names, and no matching path has to be quoted. -/
structure Nameable (g : GitRepository) : Prop where
  utf8 : ∀ r ∈ g.refs, r.name.isUtf8 = true
  names : ∀ r ∈ g.refs, ∃ c, g.resolve (revision r) = some c
  tips : ∀ c entry, g.Matching c entry → ∃ r ∈ g.refs, g.resolve (revision r) = some c
  plain : ∀ c entry, g.Matching c entry → entry.1.all plainByte = true

theorem grep_isSome {pattern : Text} {revisions : List Text} :
    (∃ found, g.grep pattern revisions = some found) ↔ ∀ name ∈ revisions, ∃ c, g.resolve name = some c := by
  induction revisions with
  | nil => simp [grep]
  | cons name rest ih =>
    rw [List.forall_mem_cons, ← ih]
    cases hc : g.resolve name with
    | none => simp [grep, hc]
    | some c => cases hrest : g.grep pattern rest <;> simp [grep, hc, hrest]

/-- A resolved revision is the tip of a ref. -/
theorem matching_of_resolve {name : Text} {c : Commit} (hc : g.resolve name = some c)
    {entry : Bytes × Content} (hentry : entry ∈ c.tree) (hcontains : contains versionLine entry.2 = true) :
    g.Matching c entry := by
  obtain ⟨r, hr, -, htip⟩ := resolve_some hc
  exact ⟨⟨r, hr, htip⟩, hentry, hcontains⟩

/-- A matching path Git need not quote is shown as the blob itself. -/
theorem showPath_plain {name : Text} {c : Commit} {entry : Bytes × Content} (hcolon : ':' ∉ name)
    (hc : g.resolve name = some c) (hentry : entry ∈ c.tree) (hplain : entry.1.all plainByte = true) :
    g.showPath (name ++ ':' :: quotePath entry.1) = some entry.2 := by
  obtain ⟨r, hr, -, htip⟩ := resolve_some hc
  have hlookup := lookup_of_mem (g.paths c (List.mem_of_getElem? htip)) hentry
  simp only [showPath, splitSpecification_colon hcolon, hc, encode_quotePath hplain, hlookup]

/-- What is asked for, ref by ref. -/
theorem asked_iff (hall : ∀ r ∈ g.refs, r.name.isUtf8 = true) {found : List Text}
    (hfound : g.grep versionLine (g.refs.map revision) = some found) {c : Commit} {path : Bytes} :
    g.Asked found c path ↔ (∃ r ∈ g.refs, g.resolve (revision r) = some c) ∧
      ∃ entry ∈ c.tree, contains versionLine entry.2 = true ∧ path = encode (quotePath entry.1) := by
  constructor
  · intro h
    obtain ⟨specification, hspec, name, shown, hsplit, hc, rfl⟩ := h
    obtain ⟨r, hr, c', hc', entry, hentry, hcontains, rfl⟩ := (mem_found hfound specification).1 hspec
    rw [splitSpecification_colon (revision_colon hall hr)] at hsplit
    cases hsplit
    obtain rfl : c = c' := Option.some.inj (hc.symm.trans hc')
    exact ⟨⟨r, hr, hc⟩, entry, hentry, hcontains, rfl⟩
  · intro h
    obtain ⟨⟨r, hr, hc⟩, entry, hentry, hcontains, rfl⟩ := h
    exact ⟨_, (mem_found hfound _).2 ⟨r, hr, c, hc, entry, hentry, hcontains, rfl⟩, revision r,
      quotePath entry.1, splitSpecification_colon (revision_colon hall hr) _, hc, rfl⟩

end GitRepository

/-! ## The scan -/

open GitRepository

variable {g : GitRepository} {H : Hashes} {remote mirror : Text}

/-- The scan reads the matching blobs and no others, and returns the OIDs of the pointers among
them. -/
structure ScansEveryName (H : Hashes) (remote mirror : Text) (g : GitRepository) : Prop where
  reads : ∃ found, g.grep versionLine (g.refs.map revision) = some found ∧
    ∀ c path, g.Asked found c path ↔ ∃ blob, g.Matching c (path, blob)
  result : ∃ result, scan H remote mirror (some g) = .ok result ∧
    ∀ oid, oid ∈ result.reachableObjects ↔ ∃ c entry, g.Matching c entry ∧ IsPointer entry.2 oid

/-- The stages of a scan that goes through. -/
theorem scan_of_stages (H : Hashes) (remote : Text) (hrefs : g.refs ≠ []) (hall : ∀ r ∈ g.refs, r.name.isUtf8 = true)
    {found : List Text} (hfound : g.grep versionLine (g.refs.map revision) = some found)
    {objects : List ObjectOid} (hparse : collectShown g.showPath mirror found [] = .ok objects) :
    ∃ result, scan H remote mirror (some g) = .ok result ∧ result.reachableObjects = objects := by
  have hshow : g.showRef = some (.utf8 ((g.refs.map g.refLine).flatMap (· ++ ['\n']))) := by
    rw [GitRepository.showRef, if_neg hrefs, if_pos (List.all_eq_true.2 hall)]
  simp only [scan, hshow, refNames_showRef hall, hfound, parse_found hfound, hparse]
  exact ⟨_, rfl, rfl⟩

/-- In a repository that can be named, the blobs asked for are the matching ones. -/
theorem GitRepository.Nameable.asked (h : g.Nameable) {found : List Text}
    (hfound : g.grep versionLine (g.refs.map revision) = some found) (c : Commit) (path : Bytes) :
    g.Asked found c path ↔ ∃ blob, g.Matching c (path, blob) := by
  rw [asked_iff h.utf8 hfound]
  constructor
  · intro hasked
    obtain ⟨⟨r, hr, hc⟩, entry, hentry, hcontains, rfl⟩ := hasked
    have hm := matching_of_resolve hc hentry hcontains
    rw [encode_quotePath (h.plain c entry hm)]
    exact ⟨entry.2, hm⟩
  · intro hm
    obtain ⟨blob, hm⟩ := hm
    refine ⟨h.tips c _ hm, (path, blob), hm.2.1, hm.2.2, ?_⟩
    exact (encode_quotePath (h.plain c _ hm)).symm

/-- **The scan succeeds on every file name it can say.** In a repository with a ref, whose
matching blobs are all readable: it reads exactly the matching blobs and returns the OIDs of
their pointers if and only if no matching path has to be quoted and its refs can be named. -/
theorem scans_iff (hrefs : g.refs ≠ []) (hread : ∀ c entry, g.Matching c entry → Readable entry.2) :
    ScansEveryName H remote mirror g ↔ g.Nameable := by
  constructor
  · intro h
    obtain ⟨found, hfound, hasked⟩ := h.reads
    obtain ⟨result, hscan, -⟩ := h.result
    obtain ⟨hall, -⟩ := scan_ok hscan
    have hnames : ∀ r ∈ g.refs, ∃ c, g.resolve (revision r) = some c := by
      intro r hr
      exact grep_isSome.1 ⟨found, hfound⟩ _ (List.mem_map_of_mem hr)
    have htips : ∀ c entry, g.Matching c entry → ∃ r ∈ g.refs, g.resolve (revision r) = some c := by
      intro c entry hm
      exact ((asked_iff hall hfound).1 ((hasked c entry.1).2 ⟨entry.2, hm⟩)).1
    refine ⟨hall, hnames, htips, fun c entry hm => ?_⟩
    -- each matching path of the commit is printed as a matching path
    apply plain_of_closed ((c.tree.filter fun e => contains versionLine e.2).map (·.1))
    · intro p hp
      obtain ⟨e, he, rfl⟩ := List.mem_map.1 hp
      obtain ⟨he, hcontains⟩ := List.mem_filter.1 he
      obtain ⟨blob, hm'⟩ := (hasked c _).1
        ((asked_iff hall hfound).2 ⟨htips c entry hm, e, he, hcontains, rfl⟩)
      exact List.mem_map.2 ⟨(_, blob), List.mem_filter.2 ⟨hm'.2.1, hm'.2.2⟩, rfl⟩
    · exact List.mem_map_of_mem (List.mem_filter.2 ⟨hm.2.1, hm.2.2⟩)
  · intro h
    obtain ⟨found, hfound⟩ : ∃ found, g.grep versionLine (g.refs.map revision) = some found := by
      rw [grep_isSome]
      intro name hname
      obtain ⟨r, hr, rfl⟩ := List.mem_map.1 hname
      exact h.names r hr
    -- every specification is shown as the matching blob it was printed for
    have hshown : ∀ s ∈ found, ∃ c entry, g.Matching c entry ∧ g.showPath s = some entry.2 := by
      intro s hs
      obtain ⟨r, hr, c, hc, entry, hentry, hcontains, rfl⟩ := (mem_found hfound s).1 hs
      have hm := matching_of_resolve hc hentry hcontains
      exact ⟨c, entry, hm, showPath_plain (revision_colon h.utf8 hr) hc hentry (h.plain c entry hm)⟩
    obtain ⟨objects, hobjects⟩ : ∃ objects, collectShown g.showPath mirror found [] = .ok objects := by
      rw [collectShown_ok_iff]
      intro s hs
      obtain ⟨c, entry, hm, hshow⟩ := hshown s hs
      exact ⟨entry.2, hshow, hread c entry hm⟩
    obtain ⟨result, hscan, rfl⟩ := scan_of_stages H remote hrefs h.utf8 hfound hobjects
    refine ⟨⟨found, hfound, h.asked hfound⟩, _, hscan, fun oid => ?_⟩
    rw [mem_collected hobjects]
    constructor
    · intro ho
      rcases ho with hnil | ⟨s, hs, blob, hshow, hp⟩
      · cases hnil
      obtain ⟨c, entry, hm, hshow'⟩ := hshown s hs
      rw [hshow'] at hshow
      cases hshow
      exact ⟨c, entry, hm, hp⟩
    · intro ho
      obtain ⟨c, entry, hm, hp⟩ := ho
      obtain ⟨r, hr, hc⟩ := h.tips c entry hm
      refine .inr ⟨_, (mem_found hfound _).2 ⟨r, hr, c, hc, entry, hm.2.1, hm.2.2, rfl⟩, entry.2, ?_, hp⟩
      exact showPath_plain (revision_colon h.utf8 hr) hc hm.2.1 (h.plain c entry hm)

namespace Sample

/-- The name `é` in UTF-8. -/
def accented : Bytes := [0xc3, 0xa9]

end Sample

/-- What stands in the tip of the sample. -/
theorem matching_repository {path : Bytes} {hpaths} {c : Commit} {entry : Bytes × Content}
    (h : (Sample.repository [(path, .utf8 Sample.pointer)] hpaths).Matching c entry) :
    c = ⟨2, [0], [(path, .utf8 Sample.pointer)]⟩ ∧ entry = (path, .utf8 Sample.pointer) := by
  obtain ⟨⟨r, hr, htip⟩, hentry, -⟩ := h
  simp only [Sample.repository, List.mem_singleton] at hr
  subst hr
  cases htip
  exact ⟨rfl, List.mem_singleton.1 hentry⟩

theorem readable_pointer : Readable (.utf8 Sample.pointer) :=
  ⟨Sample.pointer, rfl, .inr (pointerText_iff.2 ⟨Sample.oid, Sample.pointer_isPointer⟩)⟩

/-- A plain name is read. -/
theorem scans_plain_name :
    (Sample.repository [(Sample.asset, .utf8 Sample.pointer)] (by simp)).refs ≠ [] ∧
    ScansEveryName Sample.refHashes "remote".toList "repository.git".toList
      (Sample.repository [(Sample.asset, .utf8 Sample.pointer)] (by simp)) := by
  have hrefs : (Sample.repository [(Sample.asset, .utf8 Sample.pointer)] (by simp)).refs ≠ [] := by
    simp [Sample.repository]
  refine ⟨hrefs, (scans_iff hrefs ?_).2 ⟨?_, ?_, ?_, ?_⟩⟩
  · intro c entry hm
    obtain ⟨-, rfl⟩ := matching_repository hm
    exact readable_pointer
  · decide +kernel
  · have hall : (Sample.repository [(Sample.asset, .utf8 Sample.pointer)] (by simp)).refs.all
        (fun r => ((Sample.repository [(Sample.asset, .utf8 Sample.pointer)] (by simp)).resolve
          (revision r)).isSome) = true := by decide +kernel
    intro r hr
    exact Option.isSome_iff_exists.1 (List.all_eq_true.1 hall r hr)
  · intro c entry hm
    obtain ⟨rfl, -⟩ := matching_repository hm
    exact ⟨⟨.utf8 "refs/heads/master".toList, 1⟩, by simp [Sample.repository], by decide +kernel⟩
  · intro c entry hm
    obtain ⟨-, rfl⟩ := matching_repository hm
    show Sample.asset.all plainByte = true
    decide +kernel

/-- One file named `é` stops the scan: Git prints the path in quotes, and there is no file of that
name. -/
theorem quoted_path_stops_scan :
    (Sample.repository [(Sample.accented, .utf8 Sample.pointer)] (by simp)).refs ≠ [] ∧
    (∀ c entry, (Sample.repository [(Sample.accented, .utf8 Sample.pointer)] (by simp)).Matching c entry →
      Readable entry.2) ∧
    scan Sample.refHashes "remote".toList "repository.git".toList
      (some (Sample.repository [(Sample.accented, .utf8 Sample.pointer)] (by simp))) =
      .error (.command (formatCommand ["-C".toList, "repository.git".toList, "show".toList,
        "refs/heads/master:\"\\303\\251\"".toList]) 128) ∧
    ¬ ScansEveryName Sample.refHashes "remote".toList "repository.git".toList
      (Sample.repository [(Sample.accented, .utf8 Sample.pointer)] (by simp)) := by
  have hscan : scan Sample.refHashes "remote".toList "repository.git".toList
      (some (Sample.repository [(Sample.accented, .utf8 Sample.pointer)] (by simp))) =
      .error (.command (formatCommand ["-C".toList, "repository.git".toList, "show".toList,
        "refs/heads/master:\"\\303\\251\"".toList]) 128) := by decide +kernel
  refine ⟨by simp [Sample.repository], ?_, hscan, ?_⟩
  · intro c entry hm
    obtain ⟨-, rfl⟩ := matching_repository hm
    exact readable_pointer
  · intro h
    obtain ⟨result, hok, -⟩ := h.result
    rw [hscan] at hok
    cases hok

end GitLfsDelta
