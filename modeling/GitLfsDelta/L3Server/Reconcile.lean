import GitLfsDelta.Core.Percent
import GitLfsDelta.L3Server.Git
import Mathlib.Data.List.TakeWhile

/-!
# The reachability scan (`git-lfs-delta-server/src/reconcile.rs`)

`scan` mirrors a repository, greps for the version line of Git LFS pointers in the trees of
the refs, and parses every blob the grep lists. `git grep <revision>` searches the tree of
that one commit: the scan sees what stands in the tips and nothing of the history below.

* `mem_scan`: a scan that succeeds has found exactly the pointers that stand in the tree of
  a ref's tip (`AtTip`).
* `scan_covers_iff`: so it covers the history exactly if every pointer of the history has
  its OID in a tip as well. `scan_misses_history` is a repository whose second commit
  removes a file.
-/
namespace GitLfsDelta

/-- mirrors crates/git-lfs-delta-server/src/reconcile.rs:136-157; an `Io` failure has no
counterpart in a scan whose processes run. -/
inductive ScanError
  | command (program : Text) (status : Nat)
  | utf8
  | malformed (specification : Text)
  deriving DecidableEq, Repr

/-- mirrors crates/git-lfs-delta-server/src/reconcile.rs:9-14 -/
structure ReachabilityScan where
  refFingerprint : String
  reachableObjects : List ObjectOid
  deriving DecidableEq, Repr

/-- `format_command` on `git` with the arguments. -/
def formatCommand (arguments : List Text) : Text := "git".toList ++ arguments.flatMap (' ' :: ·)

def versionLine : Text := "version https://git-lfs.github.com/spec/v1".toList

/-! ## Pointers -/

/-- `ObjectOid::from_str`: 64 hexadecimal digits of either case.
mirrors crates/git-lfs-delta-core/src/digest.rs:40-51 -/
def parseOid (t : Text) : Option ObjectOid :=
  if (encode t).length ≠ 64 then none
  else (t.mapM hexValue).map fun digits =>
    ⟨BitVec.ofNat 256 (digits.foldl (fun n d => 16 * n + d) 0)⟩

/-- One blob: not a pointer, a pointer, or neither.
mirrors crates/git-lfs-delta-server/src/reconcile.rs:64-86 -/
def parsePointer (specification pointer : Text) : Except ScanError (Option ObjectOid) :=
  match lines pointer with
  | [] => .ok none
  | first :: rest =>
    if first ≠ versionLine then .ok none
    else match rest with
    | oidLine :: sizeLine :: rest =>
      if rest ≠ [] ∨ ¬ "size ".toList <+: sizeLine then .error (.malformed specification)
      else match dropBeginning "oid sha256:".toList oidLine with
      | none => .error (.malformed specification)
      | some digest =>
        match parseOid digest with
        | none => .error (.malformed specification)
        | some oid => .ok (some oid)
    | _ => .error (.malformed specification)

/-- `BTreeSet::insert`. -/
def insertOid (oid : ObjectOid) : List ObjectOid → List ObjectOid
  | [] => [oid]
  | x :: xs =>
    if oid.digest < x.digest then oid :: x :: xs
    else if oid = x then x :: xs
    else x :: insertOid oid xs

/-- The loop over the listed specifications, on what some `git show` prints for each.
mirrors crates/git-lfs-delta-server/src/reconcile.rs:57-87 -/
def collectShown (shown : Text → Option Content) (mirror : Text) : List Text → List ObjectOid →
    Except ScanError (List ObjectOid)
  | [], objects => .ok objects
  | specification :: rest, objects =>
    match shown specification with
    | none =>
      .error (.command (formatCommand ["-C".toList, mirror, "show".toList, specification]) 128)
    | some (.invalid _) => .error .utf8
    | some (.utf8 pointer) =>
      match parsePointer specification pointer with
      | .error e => .error e
      | .ok none => collectShown shown mirror rest objects
      | .ok (some oid) => collectShown shown mirror rest (insertOid oid objects)

/-- The lines that name a blob: `text.lines()` less the blank ones. -/
def listed (candidates : Text) : List Text := (lines candidates).filter fun line => !line.all isWhitespace

/-- `parse_pointer_candidates` for any behaviour of `git show`.
mirrors crates/git-lfs-delta-server/src/reconcile.rs:51-88 -/
def parseShown (shown : Text → Option Content) (mirror candidates : Text) :
    Except ScanError (List ObjectOid) :=
  collectShown shown mirror (listed candidates) []

/-- On a repository it is what its `git show` prints that is parsed. -/
def parsePointerCandidates (g : GitRepository) (mirror candidates : Text) :
    Except ScanError (List ObjectOid) :=
  parseShown g.showPath mirror candidates

/-! ## The scan -/

/-- The names of `git show-ref`'s lines.
mirrors crates/git-lfs-delta-server/src/reconcile.rs:31-34 -/
def refNames (text : Text) : List Text :=
  (lines text).filterMap fun line => (splitWhitespace line)[1]?

/-- `scan`, given what `git clone --mirror` leaves in the mirror directory.
mirrors crates/git-lfs-delta-server/src/reconcile.rs:23-49 -/
def scan (H : Hashes) (remote mirror : Text) (cloned : Option GitRepository) :
    Except ScanError ReachabilityScan :=
  match cloned with
  | none =>
    .error (.command (formatCommand ["clone".toList, "--mirror".toList, remote, mirror]) 128)
  | some g =>
    match g.showRef with
    | none => .error (.command (formatCommand ["-C".toList, mirror, "show-ref".toList]) 1)
    | some refs =>
      let refFingerprint := hexEncode (H.sha256 refs.bytes).digest
      match refs with
      | .invalid _ => .error .utf8
      | .utf8 text =>
        match g.grep versionLine (refNames text) with
        | none =>
          .error (.command (formatCommand (["-C".toList, mirror, "grep".toList, "-l".toList,
            "-F".toList, versionLine] ++ refNames text ++ ["--".toList])) 128)
        | some found =>
          match parsePointerCandidates g mirror (found.flatMap (· ++ ['\n'])) with
          | .error e => .error e
          | .ok reachableObjects => .ok ⟨refFingerprint, reachableObjects⟩

/-! ## What a scan should find -/

/-- A three-line Git LFS v1 pointer of the object. -/
def IsPointer (blob : Content) (oid : ObjectOid) : Prop :=
  ∃ t digest size, blob = .utf8 t ∧
    lines t = [versionLine, "oid sha256:".toList ++ digest, "size ".toList ++ size] ∧
    parseOid digest = some oid

/-- A pointer of the object occurs in the tree of a commit reachable from a ref. -/
def InHistory (g : GitRepository) (oid : ObjectOid) : Prop :=
  ∃ i c path blob, g.Reachable i ∧ g.commits[i]? = some c ∧ (path, blob) ∈ c.tree ∧ IsPointer blob oid

/-- A name `split_whitespace` leaves whole. -/
def OneWord (name : Text) : Prop := ∀ c ∈ name, isWhitespace c = false

instance (name : Text) : Decidable (OneWord name) :=
  decidable_of_iff (name.all (!isWhitespace ·) = true) (by simp [OneWord])

/-- A pointer of the object stands in the tree of a ref's tip, where the scan looks: the
ref's name is one word, and the path is one Git prints for a file of that tree with the
version line. For a path that Git need not quote this is the file itself
(`atTip_of_plain`). -/
def AtTip (g : GitRepository) (oid : ObjectOid) : Prop :=
  ∃ r ∈ g.refs, (∃ name, r.name = .utf8 name ∧ OneWord name) ∧
    ∃ c, g.commits[r.target]? = some c ∧ ∃ entry ∈ c.tree,
      GitRepository.contains versionLine entry.2 = true ∧
      ∃ blob, c.tree.lookup (encode (GitRepository.quotePath entry.1)) = some blob ∧ IsPointer blob oid

/-! ## Parsing -/

theorem parsePointer_some {specification t : Text} {oid : ObjectOid} :
    parsePointer specification t = .ok (some oid) ↔ IsPointer (.utf8 t) oid := by
  constructor
  · intro h
    unfold parsePointer at h
    split at h; · cases h
    rename_i first rest hl
    split at h; · cases h
    rename_i hfirst
    split at h
    · rename_i oidLine sizeLine rest
      split at h; · cases h
      rename_i hsize
      split at h; · cases h
      rename_i digest hdigest
      split at h; · cases h
      rename_i oid' hoid
      cases h
      rw [not_or, not_not, not_not] at hsize
      rw [ne_eq, not_not] at hfirst
      obtain ⟨rfl, size, hsz⟩ := hsize
      refine ⟨t, digest, size, rfl, ?_, hoid⟩
      rw [hl, hfirst, dropBeginning_some.1 hdigest, hsz]
    · cases h
  · intro hs
    obtain ⟨t', digest, size, ht, hl, hoid⟩ := hs
    cases ht
    have hsize : "size ".toList <+: "size ".toList ++ size := List.prefix_append _ _
    have hdigest : dropBeginning "oid sha256:".toList ("oid sha256:".toList ++ digest) = some digest :=
      dropBeginning_some.2 rfl
    simp only [parsePointer, hl, hdigest, hoid, hsize, ne_eq, not_true_eq_false, or_self, if_false]

/-- A pointer begins with the version line. -/
theorem IsPointer.begins {t : Text} {oid : ObjectOid} (h : IsPointer (.utf8 t) oid) :
    versionLine <+: t := by
  obtain ⟨t', digest, size, ht, hl, -⟩ := h
  cases ht
  exact lines_head hl

theorem IsPointer.contains {blob : Content} {oid : ObjectOid} (h : IsPointer blob oid) :
    GitRepository.contains versionLine blob = true := by
  obtain ⟨t, digest, size, rfl, hl, -⟩ := h
  simp only [GitRepository.contains, decide_eq_true_eq]
  exact (lines_head hl).isInfix

theorem mem_insertOid {oid x : ObjectOid} : ∀ {xs : List ObjectOid},
    x ∈ insertOid oid xs ↔ x = oid ∨ x ∈ xs
  | [] => by simp [insertOid]
  | y :: ys => by
    unfold insertOid
    split
    · simp
    split
    · rename_i heq
      subst heq
      simp
    · simp only [List.mem_cons, mem_insertOid]
      tauto

/-- The loop collects the pointers among the blobs it is shown. -/
theorem mem_collected {shown : Text → Option Content} {mirror : Text} : ∀ {specs : List Text}
    {objects result : List ObjectOid}, collectShown shown mirror specs objects = .ok result →
    ∀ oid, oid ∈ result ↔ oid ∈ objects ∨
      ∃ spec ∈ specs, ∃ blob, shown spec = some blob ∧ IsPointer blob oid
  | [], objects, result, h => by cases h; simp
  | spec :: specs, objects, result, h => by
    unfold collectShown at h
    split at h
    · cases h
    · cases h
    rename_i t hshow
    intro oid
    have hspec : (∃ blob, shown spec = some blob ∧ IsPointer blob oid) ↔
        parsePointer spec t = .ok (some oid) := by
      rw [parsePointer_some, hshow]
      simp
    split at h
    · cases h
    · rename_i hp
      rw [mem_collected h oid]
      simp [hspec, hp]
    · rename_i oid' hp
      rw [mem_collected h oid, mem_insertOid]
      simp only [List.mem_cons, exists_eq_or_imp, hspec, hp, Except.ok.injEq, Option.some.injEq]
      rw [eq_comm, or_assoc, or_left_comm]

/-! ## The commands' output, read back -/

theorem RefName.text {name : Text} (h : RefName name) :
    (∃ rest, name = 'r' :: rest) ∧ '\n' ∉ name ∧ '\r' ∉ name ∧ ':' ∉ name := by
  obtain ⟨⟨rest, hrest⟩, hchars⟩ := h
  refine ⟨⟨_, hrest.symm⟩, fun hc => ?_, fun hc => ?_, fun hc => ?_⟩
  all_goals exact hchars _ hc (by decide)

theorem OneWord.line {name : Text} (h : OneWord name) : '\n' ∉ name ∧ '\r' ∉ name :=
  ⟨fun hc => absurd (h _ hc) (by decide), fun hc => absurd (h _ hc) (by decide)⟩

theorem lines_of_visible {ls : List Text} (h : ∀ l ∈ ls, '\n' ∉ l ∧ '\r' ∉ l) :
    lines (ls.flatMap (· ++ ['\n'])) = ls :=
  lines_unlines fun l hl => ⟨(h l hl).1, fun hcr => (h l hl).2 (List.mem_of_getLast? hcr)⟩

theorem lookup_of_mem {tree : List (Bytes × Content)} {path : Bytes} {blob : Content}
    (hnodup : (tree.map (·.1)).Nodup) (h : (path, blob) ∈ tree) : tree.lookup path = some blob := by
  obtain ⟨before, after, rfl⟩ := List.append_of_mem h
  refine List.lookup_eq_some_iff.2 ⟨before, after, rfl, fun entry hentry => ?_⟩
  rw [List.map_append, List.nodup_append] at hnodup
  have hne := hnodup.2.2 entry.1 (List.mem_map_of_mem hentry) path (by simp)
  exact bne_iff_ne.2 hne.symm

/-- The revision the scan makes of a ref: its name up to white space. -/
def revision (r : Ref) : Text := r.name.text.takeWhile (!isWhitespace ·)

theorem revision_oneWord (r : Ref) : OneWord (revision r) := by
  intro c hc
  simpa using List.mem_takeWhile_imp hc

theorem OneWord.revision_eq {r : Ref} {name : Text} (h : OneWord name) (hn : r.name = .utf8 name) :
    revision r = name := by
  rw [revision, hn]
  apply List.takeWhile_eq_self_iff.2
  intro c hc
  simp [h c hc]

section Repository
variable {g : GitRepository}

theorem RefName.of_isUtf8 {r : Ref} (hr : r ∈ g.refs) (hutf8 : r.name.isUtf8 = true) :
    RefName r.name.text := by
  cases hn : r.name with
  | utf8 t => exact g.refNames r hr t hn
  | invalid b => simp [hn, Content.isUtf8] at hutf8

theorem refNames_showRef (hall : ∀ r ∈ g.refs, r.name.isUtf8 = true) :
    refNames ((g.refs.map g.refLine).flatMap (· ++ ['\n'])) = g.refs.map revision := by
  have hid : ∀ id, '\n' ∉ GitRepository.hexId id ∧ '\r' ∉ GitRepository.hexId id :=
    fun id => OneWord.line (GitRepository.hexId_plain id)
  unfold refNames
  rw [lines_of_visible, List.filterMap_map]
  · rw [← List.filterMap_eq_map]
    apply List.filterMap_congr
    intro r hr
    obtain ⟨⟨rest, hrest⟩, -⟩ := (RefName.of_isUtf8 hr (hall r hr)).text
    simp only [Function.comp_apply, GitRepository.refLine, revision, hrest]
    exact second_word (GitRepository.hexId_plain _) (GitRepository.hexId_ne_nil _) (by decide)
  · intro l hl
    obtain ⟨r, hr, rfl⟩ := List.mem_map.1 hl
    obtain ⟨-, hnl, hcr, -⟩ := (RefName.of_isUtf8 hr (hall r hr)).text
    simp [GitRepository.refLine, hid, hnl, hcr]

theorem candidates_oneWord {revision name : Text} (h : OneWord revision)
    (hn : name ∈ GitRepository.candidates revision) : OneWord name := by
  have happ : ∀ {a b : Text}, OneWord a → OneWord b → OneWord (a ++ b) := by
    intro a b ha hb c hc
    exact (List.mem_append.1 hc).elim (ha c) (hb c)
  have hfixed : ∀ t ∈ ["refs/".toList, "refs/tags/".toList, "refs/heads/".toList,
      "refs/remotes/".toList, "/HEAD".toList], OneWord t := by decide
  simp only [GitRepository.candidates, List.mem_cons, List.not_mem_nil, or_false] at hn
  rcases hn with rfl | rfl | rfl | rfl | rfl | rfl
  · exact h
  · exact happ (hfixed _ (by decide)) h
  · exact happ (hfixed _ (by decide)) h
  · exact happ (hfixed _ (by decide)) h
  · exact happ (hfixed _ (by decide)) h
  · exact happ (happ (hfixed _ (by decide)) h) (hfixed _ (by decide))

/-- `git show` shows a pointer only where the path is a file of the tree: a listing of a
directory does not begin like one. -/
theorem showPath_pointer {rev path : Text} {c : Commit} (hrev : ':' ∉ rev)
    (hc : g.resolve rev = some c) {oid : ObjectOid} :
    (∃ blob, g.showPath (rev ++ ':' :: path) = some blob ∧ IsPointer blob oid) ↔
      ∃ blob, c.tree.lookup (encode path) = some blob ∧ IsPointer blob oid := by
  simp only [GitRepository.showPath, GitRepository.splitSpecification_colon hrev, hc]
  cases c.tree.lookup (encode path) with
  | some blob => rfl
  | none =>
    simp only [reduceCtorEq, false_and, exists_false, iff_false]
    intro h
    obtain ⟨blob, hshow, hp⟩ := h
    split at hshow
    · cases hshow
      obtain ⟨t, digest, size, ht, hl, -⟩ := hp
      obtain ⟨rest, hrest⟩ := lines_head hl
      have hhead := g.listing_tree _ t ht
      rw [← hrest] at hhead
      cases hhead
    · cases hshow

/-- The listed specifications are read back one by one. -/
theorem parsePointerCandidates_specifications {mirror : Text} {specs : List Text}
    (h : ∀ s ∈ specs, ('\n' ∉ s ∧ '\r' ∉ s) ∧ ':' ∈ s) :
    parsePointerCandidates g mirror (specs.flatMap (· ++ ['\n'])) =
      collectShown g.showPath mirror specs [] := by
  have hblank : ∀ s ∈ specs, (!s.all isWhitespace) = true := by
    intro s hs
    rw [Bool.not_eq_true', List.all_eq_false]
    exact ⟨':', (h s hs).2, by decide⟩
  rw [parsePointerCandidates, parseShown, listed, lines_of_visible fun s hs => (h s hs).1,
    List.filter_eq_self.2 hblank]

/-! ## What the scan finds -/

/-- The stages of a scan that succeeds. -/
theorem scan_ok {H : Hashes} {remote mirror : Text} {result : ReachabilityScan}
    (h : scan H remote mirror (some g) = .ok result) :
    (∀ r ∈ g.refs, r.name.isUtf8 = true) ∧
    ∃ found, g.grep versionLine (g.refs.map revision) = some found ∧
      parsePointerCandidates g mirror (found.flatMap (· ++ ['\n'])) = .ok result.reachableObjects := by
  simp only [scan] at h
  split at h; · cases h
  rename_i refs hrefs
  split at h; · cases h
  rename_i text
  split at h; · cases h
  rename_i found hfound
  split at h; · cases h
  rename_i objects hobjects
  cases h
  unfold GitRepository.showRef at hrefs
  split at hrefs; · cases hrefs
  split at hrefs
  · rename_i hall
    cases hrefs
    rw [List.all_eq_true] at hall
    rw [refNames_showRef hall] at hfound
    exact ⟨hall, found, hfound, hobjects⟩
  · cases hrefs

/-- What `git grep` prints: a revision of one word, resolved, and a quoted path. -/
theorem mem_found {found : List Text} (hfound : g.grep versionLine (g.refs.map revision) = some found)
    (s : Text) : s ∈ found ↔ ∃ r ∈ g.refs, ∃ c, g.resolve (revision r) = some c ∧
      ∃ entry ∈ c.tree, GitRepository.contains versionLine entry.2 = true ∧
        revision r ++ ':' :: GitRepository.quotePath entry.1 = s := by
  rw [GitRepository.mem_grep hfound]
  simp [GitRepository.specifications, and_assoc]

theorem revision_colon (hall : ∀ r ∈ g.refs, r.name.isUtf8 = true) {r : Ref} (hr : r ∈ g.refs) :
    ':' ∉ revision r := by
  intro hc
  exact (RefName.of_isUtf8 hr (hall r hr)).text.2.2.2 (List.takeWhile_subset _ hc)

/-- The output of `git grep` is read back line by line. -/
theorem parse_found {mirror : Text} {found : List Text}
    (hfound : g.grep versionLine (g.refs.map revision) = some found) :
    parsePointerCandidates g mirror (found.flatMap (· ++ ['\n'])) =
      collectShown g.showPath mirror found [] := by
  apply parsePointerCandidates_specifications
  intro s hs
  obtain ⟨r, hr, c, hc, entry, hentry, hcontains, rfl⟩ := (mem_found hfound s).1 hs
  obtain ⟨hnl, hcr⟩ := (revision_oneWord r).line
  have hpath := GitRepository.quotePath_visible entry.1
  refine ⟨⟨?_, ?_⟩, by simp⟩
  · simp only [List.mem_append, List.mem_cons, hnl, false_or, not_or]
    exact ⟨by decide, fun hc => (hpath _ hc).1 rfl⟩
  · simp only [List.mem_append, List.mem_cons, hcr, false_or, not_or]
    exact ⟨by decide, fun hc => (hpath _ hc).2 rfl⟩

/-- **A scan that succeeds has found exactly the pointers in the trees of the tips.** -/
theorem mem_scan {H : Hashes} {remote mirror : Text} {result : ReachabilityScan}
    (h : scan H remote mirror (some g) = .ok result) (oid : ObjectOid) :
    oid ∈ result.reachableObjects ↔ AtTip g oid := by
  obtain ⟨hall, found, hfound, hresult⟩ := scan_ok h
  rw [parse_found hfound] at hresult
  rw [mem_collected hresult]
  constructor
  · intro hp
    rcases hp with hnil | ⟨spec, hspec, hshow⟩
    · cases hnil
    obtain ⟨r, hr, c, hc, entry, hentry, hcontains, rfl⟩ := (mem_found hfound spec).1 hspec
    obtain ⟨r', hr', ⟨name, hname, hn⟩, htip⟩ := GitRepository.resolve_some hc
    have hword := candidates_oneWord (revision_oneWord r) hname
    exact ⟨r', hr', ⟨name, hn, hword⟩, c, htip, entry, hentry, hcontains,
      (showPath_pointer (revision_colon hall hr) hc).1 hshow⟩
  · intro hp
    obtain ⟨r, hr, ⟨name, hn, hword⟩, c, htip, entry, hentry, hcontains, hblob⟩ := hp
    obtain ⟨c', hc, htip'⟩ := GitRepository.resolve_name hr hn
    obtain rfl : c = c' := Option.some.inj (htip.symm.trans htip')
    rw [← hword.revision_eq hn] at hc
    exact .inr ⟨_, (mem_found hfound _).2 ⟨r, hr, c, hc, entry, hentry, hcontains, rfl⟩,
      (showPath_pointer (revision_colon hall hr) hc).2 hblob⟩

/-- A pointer at a path Git need not quote, in the tip of a ref whose name is one word, is
where the scan looks. -/
theorem atTip_of_plain {r : Ref} {name : Text} {c : Commit} {path : Bytes} {blob : Content}
    {oid : ObjectOid} (hr : r ∈ g.refs) (hn : r.name = .utf8 name) (hword : OneWord name)
    (hc : g.commits[r.target]? = some c) (hentry : (path, blob) ∈ c.tree)
    (hplain : path.all GitRepository.plainByte = true) (hp : IsPointer blob oid) : AtTip g oid := by
  refine ⟨r, hr, ⟨name, hn, hword⟩, c, hc, (path, blob), hentry, hp.contains, blob, ?_, hp⟩
  rw [GitRepository.encode_quotePath hplain]
  exact lookup_of_mem (g.paths c (List.mem_of_getElem? hc)) hentry

/-- **The scan covers the history exactly if the tips do**: it sees no commit below them. -/
theorem scan_covers_iff {H : Hashes} {remote mirror : Text} {result : ReachabilityScan}
    (h : scan H remote mirror (some g) = .ok result) :
    (∀ oid, InHistory g oid → oid ∈ result.reachableObjects) ↔
      ∀ oid, InHistory g oid → AtTip g oid := by
  simp only [mem_scan h]

end Repository

namespace Sample

def asset : Bytes := encode "asset.bin".toList

def digest : Text := List.replicate 64 'a'

def pointer : Text :=
  versionLine ++ "\noid sha256:".toList ++ digest ++ "\nsize 3\n".toList

theorem master_refName : RefName "refs/heads/master".toList := by decide +kernel

/-- A file is committed as a pointer; a second commit leaves this tree. -/
def repository (tree : List (Bytes × Content)) (hpaths : (tree.map (·.1)).Nodup) : GitRepository where
  commits := [⟨1, [], [(asset, .utf8 pointer)]⟩, ⟨2, [0], tree⟩]
  refs := [⟨.utf8 "refs/heads/master".toList, 1⟩]
  listing specification := .utf8 ("tree ".toList ++ specification ++ "\n\n".toList)
  acyclic i c hc p hp := by
    match i with
    | 0 => cases hc; cases hp
    | 1 => cases hc; simp_all
    | i + 2 => simp at hc
  targets := by simp
  names := List.nodup_singleton _
  refNames r hr t ht := by
    simp only [List.mem_singleton] at hr
    subst hr
    cases ht
    exact master_refName
  paths c hc := by
    simp only [List.mem_cons, List.not_mem_nil, or_false] at hc
    rcases hc with rfl | rfl
    · simp
    · exact hpaths
  listing_tree specification t ht := by cases ht; rfl

def oid : ObjectOid := ⟨BitVec.ofNat 256 (0xa * ((16 ^ 64 - 1) / 15))⟩

/-- SHA-256 on what `git show-ref` prints for the sample. -/
def refHashes : Hashes where
  blake3 _ := ⟨0⟩
  sha256 b :=
    if b = encode (List.replicate 39 '0' ++ "2 refs/heads/master\n".toList) then
      ⟨0x1afdb8243cbed2cc75f522ce6f2e4b51baa5575d41d1244133ff9ce0471f790e⟩
    else ⟨0⟩

def fingerprint : String := "1afdb8243cbed2cc75f522ce6f2e4b51baa5575d41d1244133ff9ce0471f790e"

theorem pointer_isPointer : IsPointer (.utf8 pointer) oid :=
  ⟨pointer, digest, ['3'], rfl, by decide +kernel, by decide +kernel⟩

end Sample

/-- A file that the second commit removes is in the history, and not in the scan. -/
theorem scan_misses_history :
    ∃ result, scan Sample.refHashes "remote".toList "repository.git".toList
        (some (Sample.repository [] (by simp))) = .ok result ∧
      InHistory (Sample.repository [] (by simp)) Sample.oid ∧
      Sample.oid ∉ result.reachableObjects := by
  refine ⟨⟨Sample.fingerprint, []⟩, by decide +kernel, ?_, by simp⟩
  have htip : (Sample.repository [] (by simp)).Reachable 1 :=
    .tip (r := ⟨.utf8 "refs/heads/master".toList, 1⟩) (by simp [Sample.repository])
  exact ⟨0, _, Sample.asset, _, htip.parent rfl (by simp), rfl, by simp, Sample.pointer_isPointer⟩

/-- As long as the file is still there the scan finds it. -/
theorem scan_covers_kept :
    ∃ result, scan Sample.refHashes "remote".toList "repository.git".toList
        (some (Sample.repository [(Sample.asset, .utf8 Sample.pointer)] (by simp))) = .ok result ∧
      InHistory (Sample.repository [(Sample.asset, .utf8 Sample.pointer)] (by simp)) Sample.oid ∧
      ∀ oid, InHistory (Sample.repository [(Sample.asset, .utf8 Sample.pointer)] (by simp)) oid →
        oid ∈ result.reachableObjects := by
  have htip : (⟨.utf8 "refs/heads/master".toList, 1⟩ : Ref) ∈
      (Sample.repository [(Sample.asset, .utf8 Sample.pointer)] (by simp)).refs := by
    simp [Sample.repository]
  have hscan : scan Sample.refHashes "remote".toList "repository.git".toList
      (some (Sample.repository [(Sample.asset, .utf8 Sample.pointer)] (by simp))) =
      .ok ⟨Sample.fingerprint, [Sample.oid]⟩ := by decide +kernel
  refine ⟨_, hscan, ?_, (scan_covers_iff hscan).2 ?_⟩
  · exact ⟨1, _, Sample.asset, _, .tip htip, rfl, by simp, Sample.pointer_isPointer⟩
  · intro oid h
    obtain ⟨i, c, path, blob, -, hc, hentry, hp⟩ := h
    -- both commits have the same tree
    have htree : c.tree = [(Sample.asset, .utf8 Sample.pointer)] := by
      match i with
      | 0 => cases hc; rfl
      | 1 => cases hc; rfl
      | i + 2 => simp [Sample.repository] at hc
    rw [htree, List.mem_singleton] at hentry
    cases hentry
    have hplain : Sample.asset.all GitRepository.plainByte = true := by decide +kernel
    exact atTip_of_plain htip rfl (by decide) rfl List.mem_cons_self hplain hp

end GitLfsDelta
