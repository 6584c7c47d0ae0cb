import GitLfsDelta.Core.Text
import GitLfsDelta.L1Data.Manifest
import Mathlib.Data.List.Nodup

/-!
# Git, as the reconciler uses it

A repository is a finite commit graph, each commit with a tree from paths to blobs, and
refs that point at commits. The commands are the ones `reconcile.rs` runs on its mirror,
with the behaviour Git documents:

* `git show-ref` prints one `<id> <name>` line per ref, and fails if there is none;
* `git grep -l -F <pattern> <revisions>` prints `<revision>:<path>` for every blob with the
  pattern in the tree of *these* revisions, quoting unusual paths (`core.quotePath`), and
  fails if a revision does not name a commit;
* `git show <revision>:<path>` prints the blob, or a listing if the path is a directory.

A revision is resolved by the rules of `gitrevisions`: the name itself first, then below
`refs/`, `refs/tags/` and so on.
-/
namespace GitLfsDelta

/-- A byte string, as `std::str::from_utf8` takes it. -/
inductive Content
  | utf8 (text : Text)
  | invalid (bytes : Bytes)
  deriving DecidableEq, Repr

/-- UTF-8. -/
def encode (t : Text) : Bytes := t.flatMap String.utf8EncodeChar

def Content.bytes : Content → Bytes
  | .utf8 t => encode t
  | .invalid b => b

def Content.text : Content → Text
  | .utf8 t => t
  | .invalid _ => []

def Content.isUtf8 : Content → Bool
  | .utf8 _ => true
  | .invalid _ => false

structure Commit where
  id : BitVec 160
  /-- Parents, by number; a commit is younger than its parents. -/
  parents : List Nat
  tree : List (Bytes × Content)
  deriving DecidableEq, Repr

structure Ref where
  name : Content
  target : Nat
  deriving DecidableEq, Repr

/-- What `git check-ref-format` asks of a full ref name, as far as it matters here. -/
def RefName (name : Text) : Prop :=
  ['r', 'e', 'f', 's', '/'] <+: name ∧ ∀ c ∈ name, ¬ (c.toNat ≤ 0x20 ∨ c.toNat = 0x7f ∨ c = ':')

instance (name : Text) : Decidable (RefName name) :=
  decidable_of_iff (['r', 'e', 'f', 's', '/'].isPrefixOf name = true ∧
    name.all (fun c => !(c.toNat ≤ 0x20 || c.toNat = 0x7f || c = ':')) = true)
    (by simp [RefName, not_or, and_assoc])

structure GitRepository where
  commits : List Commit
  refs : List Ref
  /-- What `git show` prints for a directory: a line `tree <specification>` and the names. -/
  listing : Text → Content
  acyclic : ∀ (i : Nat) (c : Commit), commits[i]? = some c → ∀ p ∈ c.parents, p < i
  targets : ∀ r ∈ refs, r.target < commits.length
  names : (refs.map (·.name)).Nodup
  refNames : ∀ r ∈ refs, ∀ t, r.name = .utf8 t → RefName t
  paths : ∀ c ∈ commits, (c.tree.map (·.1)).Nodup
  listing_tree : ∀ specification t, listing specification = .utf8 t → t.head? = some 't'

namespace GitRepository

variable (g : GitRepository)

/-- A commit in the history of a ref. -/
inductive Reachable : Nat → Prop
  | tip {r : Ref} : r ∈ g.refs → Reachable r.target
  | parent {i p : Nat} {c : Commit} : Reachable i → g.commits[i]? = some c → p ∈ c.parents →
      Reachable p

/-! ## `git show-ref` -/

/-- The 40 hexadecimal digits of an object id. -/
def hexId (id : BitVec 160) : Text :=
  (List.range 40).map fun i => Nat.digitChar (id.toNat / 16 ^ (39 - i) % 16)

def refLine (r : Ref) : Text :=
  hexId (g.commits[r.target]?.elim 0 (·.id)) ++ ' ' :: r.name.text

/-- The output, unless there is no ref. Names that are not UTF-8 make the whole output so. -/
def showRef : Option Content :=
  if g.refs = [] then none
  else if g.refs.all (·.name.isUtf8) then some (.utf8 ((g.refs.map g.refLine).flatMap (· ++ ['\n'])))
  else some (.invalid (g.refs.flatMap fun r =>
    encode (hexId (g.commits[r.target]?.elim 0 (·.id)) ++ [' ']) ++ r.name.bytes ++ encode ['\n']))

/-! ## Revisions -/

/-- The names a revision may stand for, in order. -/
def candidates (revision : Text) : List Text :=
  [revision, "refs/".toList ++ revision, "refs/tags/".toList ++ revision,
    "refs/heads/".toList ++ revision, "refs/remotes/".toList ++ revision,
    "refs/remotes/".toList ++ revision ++ "/HEAD".toList]

def resolve (revision : Text) : Option Commit :=
  (candidates revision).findSome? fun name =>
    (g.refs.find? fun r => r.name = .utf8 name).bind fun r => g.commits[r.target]?

/-! ## `git grep -l -F` -/

/-- A byte Git prints as it is. -/
def plainByte (b : UInt8) : Bool := 0x20 ≤ b ∧ b < 0x7f ∧ b ≠ 0x22 ∧ b ≠ 0x5c

def byteChar (b : UInt8) : Char := Char.ofNat b.toNat

/-- One byte inside a quoted path. -/
def escape (b : UInt8) : Text :=
  if plainByte b then [byteChar b]
  else match b.toNat with
  | 7 => ['\\', 'a'] | 8 => ['\\', 'b'] | 9 => ['\\', 't'] | 10 => ['\\', 'n'] | 11 => ['\\', 'v']
  | 12 => ['\\', 'f'] | 13 => ['\\', 'r'] | 34 => ['\\', '"'] | 92 => ['\\', '\\']
  | n => ['\\', Nat.digitChar (n / 64), Nat.digitChar (n / 8 % 8), Nat.digitChar (n % 8)]

/-- `quote_c_style`: a path with unusual bytes is printed in double quotes. -/
def quotePath (path : Bytes) : Text :=
  if path.all plainByte then path.map byteChar else '"' :: path.flatMap escape ++ ['"']

/-- The blob has the pattern, which has no newline, in one of its lines. -/
def contains (pattern : Text) : Content → Bool
  | .utf8 t => pattern <:+: t
  | .invalid b => encode pattern <:+: b

/-- The specifications `git grep` lists for one revision. -/
def specifications (pattern revision : Text) (c : Commit) : List Text :=
  (c.tree.filter fun entry => contains pattern entry.2).map fun entry =>
    revision ++ ':' :: quotePath entry.1

/-- The lines of the output, unless a revision does not resolve. -/
def grep (pattern : Text) : List Text → Option (List Text)
  | [] => some []
  | revision :: rest =>
    match g.resolve revision, grep pattern rest with
    | some c, some found => some (specifications pattern revision c ++ found)
    | _, _ => none

/-! ## `git show` -/

/-- A specification is a revision up to the first colon and a path. -/
def splitSpecification (specification : Text) : Option (Text × Text) :=
  match specification.dropWhile (· ≠ ':') with
  | _ :: path => some (specification.takeWhile (· ≠ ':'), path)
  | [] => none

def isDirectory (c : Commit) (path : Bytes) : Bool :=
  c.tree.any fun entry => (path ++ [0x2f]).isPrefixOf entry.1

/-- What `git show <revision>:<path>` prints, unless it fails. -/
def showPath (specification : Text) : Option Content :=
  match splitSpecification specification with
  | none => none
  | some (revision, path) =>
    match g.resolve revision with
    | none => none
    | some c =>
      match c.tree.lookup (encode path) with
      | some blob => some blob
      | none => if isDirectory c (encode path) then some (g.listing specification) else none

/-! ## What is printed is read back -/

variable {g}

theorem hexId_ne_nil (id : BitVec 160) : hexId id ≠ [] := by simp [hexId]

theorem digitChar_plain : ∀ n < 16, isWhitespace (Nat.digitChar n) = false := by decide

theorem hexId_plain (id : BitVec 160) : ∀ c ∈ hexId id, isWhitespace c = false := by
  intro c hc
  obtain ⟨i, -, rfl⟩ := List.mem_map.1 hc
  exact digitChar_plain _ (Nat.mod_lt _ (by decide))

theorem escape_visible (b : UInt8) : ∀ c ∈ escape b, c ≠ '\n' ∧ c ≠ '\r' := by
  have h : ∀ n < 256, (escape (UInt8.ofNat n)).all (fun c => c != '\n' && c != '\r') = true := by
    decide +kernel
  have := h b.toNat b.toNat_lt
  rw [UInt8.ofNat_toNat] at this
  simpa using this

theorem encode_plain {b : UInt8} (hb : plainByte b = true) :
    String.utf8EncodeChar (byteChar b) = [b] ∧ byteChar b ≠ '\n' ∧ byteChar b ≠ '\r' := by
  have h : ∀ n < 256, plainByte (UInt8.ofNat n) = true →
      String.utf8EncodeChar (byteChar (UInt8.ofNat n)) = [UInt8.ofNat n] ∧
      byteChar (UInt8.ofNat n) ≠ '\n' ∧ byteChar (UInt8.ofNat n) ≠ '\r' := by decide +kernel
  have := h b.toNat b.toNat_lt
  rw [UInt8.ofNat_toNat] at this
  exact this hb

/-- A printed path stays on its line. -/
theorem quotePath_visible (path : Bytes) : ∀ c ∈ quotePath path, c ≠ '\n' ∧ c ≠ '\r' := by
  intro c hc
  unfold quotePath at hc
  split at hc
  · rename_i hplain
    obtain ⟨b, hb, rfl⟩ := List.mem_map.1 hc
    exact (encode_plain (List.all_eq_true.1 hplain b hb)).2
  · simp only [List.cons_append, List.mem_cons, List.mem_append, List.not_mem_nil,
      or_false] at hc
    rcases hc with rfl | hc | rfl
    · decide
    · obtain ⟨b, -, hb⟩ := List.mem_flatMap.1 hc
      exact escape_visible b c hb
    · decide

/-- A path Git need not quote is read back from what it prints. -/
theorem encode_quotePath {path : Bytes} (h : path.all plainByte = true) :
    encode (quotePath path) = path := by
  rw [quotePath, if_pos h]
  induction path with
  | nil => rfl
  | cons b path ih =>
    rw [List.all_cons, Bool.and_eq_true] at h
    rw [List.map_cons, encode, List.flatMap_cons, (encode_plain h.1).1]
    exact congrArg (b :: ·) (ih h.2)

theorem splitSpecification_colon {revision : Text} (h : ':' ∉ revision) (path : Text) :
    splitSpecification (revision ++ ':' :: path) = some (revision, path) := by
  have hall : ∀ c ∈ revision, (fun c : Char => decide (c ≠ ':')) c = true := by
    intro c hc
    simp only [decide_eq_true_eq]
    rintro rfl
    exact h hc
  unfold splitSpecification
  rw [List.dropWhile_append_of_pos hall, List.takeWhile_append_of_pos hall]
  simp

/-- A resolved revision is a ref; the name has the characters of the revision. -/
theorem resolve_some {revision : Text} {c : Commit} (h : g.resolve revision = some c) :
    ∃ r ∈ g.refs, (∃ name ∈ candidates revision, r.name = .utf8 name) ∧
      g.commits[r.target]? = some c := by
  obtain ⟨name, hname, h⟩ := List.exists_of_findSome?_eq_some h
  obtain ⟨r, hr, hc⟩ := Option.bind_eq_some_iff.1 h
  exact ⟨r, List.mem_of_find?_eq_some hr, ⟨name, hname, by simpa using List.find?_some hr⟩, hc⟩

/-- A full ref name resolves to its ref. -/
theorem resolve_name {r : Ref} (hr : r ∈ g.refs) {name : Text} (hn : r.name = .utf8 name) :
    ∃ c, g.resolve name = some c ∧ g.commits[r.target]? = some c := by
  obtain ⟨c, hc⟩ : ∃ c, g.commits[r.target]? = some c :=
    ⟨_, List.getElem?_eq_getElem (g.targets r hr)⟩
  have hfind : g.refs.find? (fun r => r.name = .utf8 name) = some r := by
    cases hf : g.refs.find? fun r => r.name = .utf8 name with
    | none => exact absurd hn (by simpa using List.find?_eq_none.1 hf r hr)
    | some r' =>
      have hn' : r'.name = .utf8 name := by simpa using List.find?_some hf
      rw [List.inj_on_of_nodup_map g.names (List.mem_of_find?_eq_some hf) hr (hn'.trans hn.symm)]
  refine ⟨c, ?_, hc⟩
  simp [resolve, candidates, hfind, hc]

/-- `git grep` lists what stands in the trees of its revisions. -/
theorem mem_grep {pattern : Text} : ∀ {revisions found : List Text},
    g.grep pattern revisions = some found →
    ∀ s, s ∈ found ↔ ∃ revision ∈ revisions, ∃ c, g.resolve revision = some c ∧
      s ∈ specifications pattern revision c
  | [], found, h => by cases h; simp
  | revision :: rest, found, h => by
    unfold grep at h
    split at h
    · rename_i c found' hc hrest
      cases h
      intro s
      rw [List.mem_append, mem_grep hrest s]
      simp [hc]
    · cases h

end GitRepository
end GitLfsDelta
