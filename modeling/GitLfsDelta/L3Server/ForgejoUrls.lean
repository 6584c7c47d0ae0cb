import GitLfsDelta.Core.UrlPath
import GitLfsDelta.L3Server.Downloads

/-!
# Where the Forgejo checks go (`git-lfs-delta-server/src/lib.rs`)

`authenticate_forgejo` builds the URL of its user request by resolving `api/v1/user` against the
base URL, and the URL of its repository request by appending segments to the base path.
Resolution drops a last segment that has no trailing slash, and appending keeps the empty
segment behind one: the two URLs share a server root only where the base path is `/`.
`action_url` removes that empty segment first. A name reaches its place in the path only if it is
no dot segment and has no character that a URL parser passes over (`PlainName`).

Which characters the URL library escapes is a parameter, an `EscapeSet`.

* `same_root_iff`: when both checks go to the base path's server root and the requested names.
* `site_path`: what `action_url` appends stands behind the whole base path.
-/
namespace GitLfsDelta

/-- A parsed `http` or `https` URL. -/
structure Url where
  origin : Text
  path : UrlPath
  query : Option Text

/-- What a request is sent to. -/
structure Target where
  origin : Text
  path : Text
  query : Option Text
  deriving DecidableEq, Repr

section Requests

variable (set : EscapeSet) (base : Url) (owner repository : Text)

/-- mirrors crates/git-lfs-delta-server/src/lib.rs:1348-1350 -/
def userUrl : Target :=
  ⟨base.origin, UrlPath.textOf (base.path.join ["api".toList, "v1".toList, "user".toList]), none⟩

/-- mirrors crates/git-lfs-delta-server/src/lib.rs:1351-1355 -/
def repoUrl : Target :=
  ⟨base.origin,
    UrlPath.textOf (base.path.extend set ["api".toList, "v1".toList, "repos".toList, owner, repository]),
    base.query⟩

/-- Both checks address the server root that the base URL names, and the requested names, each
percent-encoded. -/
structure SameRoot : Prop where
  origins : (userUrl base).origin = base.origin ∧ (repoUrl set base owner repository).origin = base.origin
  user : (userUrl base).path = base.path.stem ++ "/api/v1/user".toList
  repository : (repoUrl set base owner repository).path =
    base.path.stem ++ "/api/v1/repos/".toList ++ set.encode owner ++ '/' :: set.encode repository

/-- `action_url`'s base URL with segments appended.
mirrors crates/git-lfs-delta-server/src/lib.rs:1519-1530 -/
def Url.site : Site := fun segments =>
  some (base.origin ++
    UrlPath.textOf (UrlPath.extendSegments set (UrlPath.popIfEmpty base.path.segments) segments) ++
    base.query.elim [] ('?' :: ·))

end Requests

section Root

variable {set : EscapeSet} {base : Url} {owner repository : Text} {init : List Text} {last : Text}

/-- The user request forgets the last segment of the base. -/
theorem userUrl_path (h : base.path.segments = init ++ [last]) :
    (userUrl base).path = UrlPath.textOf init ++ "/api/v1/user".toList := by
  unfold userUrl
  rw [base.path.join_eq (by simp [DotSegment]), h]
  simp [UrlPath.textOf]

/-- It reaches the server root where the base has a trailing slash. -/
theorem user_at_stem (h : base.path.segments = init ++ [last]) :
    (userUrl base).path = base.path.stem ++ "/api/v1/user".toList ↔ last = [] := by
  rw [userUrl_path h, UrlPath.stem_eq, UrlPath.front_eq h]
  by_cases hlast : last = []
  · simp [hlast]
  · rw [if_neg hlast, h, UrlPath.textOf_append, UrlPath.textOf_singleton]
    simp only [hlast, iff_false]
    intro e
    have hlength := congrArg List.length e
    simp only [List.length_append, List.length_cons] at hlength
    omega

/-- The segments before the names. -/
def reposSegments : List Text := ["api".toList, "v1".toList, "repos".toList]

/-- The names are appended behind these, whatever the base path is. -/
theorem repoUrl_segments (set : EscapeSet) (base : Url) (owner repository : Text) :
    base.path.extend set ["api".toList, "v1".toList, "repos".toList, owner, repository] =
      UrlPath.pushSegment set
        (UrlPath.pushSegment set (UrlPath.begun base.path.segments ++ reposSegments) owner) repository := by
  have hfixed : UrlPath.extendSegments set base.path.segments reposSegments =
      UrlPath.begun base.path.segments ++ reposSegments := by
    rw [reposSegments, UrlPath.extendSegments_begun (by decide) (by decide) (by decide)]
    simp only [List.map_cons, List.map_nil]
    rw [set.encode_word (by decide), set.encode_word (by decide), set.encode_word (by decide)]
  rw [← hfixed]
  rfl

/-- Where the requested names are to be, as segments. -/
theorem repository_path_iff : (repoUrl set base owner repository).path =
      base.path.stem ++ "/api/v1/repos/".toList ++ set.encode owner ++ '/' :: set.encode repository ↔
    base.path.extend set ["api".toList, "v1".toList, "repos".toList, owner, repository] =
      base.path.front ++ reposSegments ++ [set.encode owner] ++ [set.encode repository] := by
  have htext : base.path.stem ++ "/api/v1/repos/".toList ++ set.encode owner ++ '/' :: set.encode repository =
      UrlPath.textOf (base.path.front ++ reposSegments ++ [set.encode owner] ++ [set.encode repository]) := by
    rw [UrlPath.stem_eq]
    simp [UrlPath.textOf, reposSegments]
  rw [htext]
  constructor
  · intro h
    refine UrlPath.textOf_injective (fun s hs => UrlPath.slash_extendSegments base.path.plain hs) ?_ h
    intro s hs
    simp only [List.append_assoc, List.mem_append, List.mem_singleton] at hs
    rcases hs with hs | hs | rfl | rfl
    · exact base.path.plain s (UrlPath.mem_front hs)
    · revert s
      decide
    · exact set.slash_encode owner
    · exact set.slash_encode repository
  · intro h
    unfold repoUrl
    rw [h]

theorem isRoot_iff (h : base.path.segments = init ++ [last]) : base.path.IsRoot ↔ init = [] ∧ last = [] := by
  unfold UrlPath.IsRoot
  rw [h]
  constructor
  · intro e
    have hinit : init = [] := by
      have hlength := congrArg List.length e
      simp only [List.length_append, List.length_singleton] at hlength
      exact List.length_eq_zero_iff.1 (by omega)
    subst hinit
    exact ⟨rfl, by simpa using e⟩
  · intro e
    rw [e.1, e.2]
    rfl

/-- Behind a trailing slash the repository request keeps an empty segment, which the pushed names
cannot take away. -/
theorem isRoot_of_repository (h : base.path.segments = init ++ [[]])
    (hrepo : base.path.extend set ["api".toList, "v1".toList, "repos".toList, owner, repository] =
      base.path.front ++ reposSegments ++ [set.encode owner] ++ [set.encode repository]) :
    base.path.IsRoot := by
  by_contra hroot
  have hne : base.path.segments ≠ [[]] := hroot
  rw [repoUrl_segments, UrlPath.front_eq h, if_pos rfl, UrlPath.begun_of_ne hne, h] at hrepo
  have hone : init ++ [[], "api".toList, "v1".toList] <+:
      UrlPath.pushSegment set (init ++ [[]] ++ reposSegments) owner := by
    refine UrlPath.prefix_pushSegment (x := "repos".toList) ?_ (by simp) set owner
    simp [reposSegments]
  have htwo : init ++ [[], "api".toList] <+:
      UrlPath.pushSegment set (UrlPath.pushSegment set (init ++ [[]] ++ reposSegments) owner) repository := by
    refine UrlPath.prefix_pushSegment (x := "v1".toList) ?_ (by simp) set repository
    simpa using hone
  rw [hrepo] at htwo
  obtain ⟨tail, htail⟩ := htwo
  simp [reposSegments] at htail

/-- **When the two Forgejo checks address one server root** and the requested names: the base path
is `/`, and each name is a path segment as it is. -/
theorem same_root_iff (set : EscapeSet) (base : Url) (owner repository : Text) :
    SameRoot set base owner repository ↔
      base.path.IsRoot ∧ PlainName owner ∧ PlainName repository := by
  obtain ⟨init, last, h⟩ := base.path.exists_last
  constructor
  · intro hs
    -- the user request wants a trailing slash, the repository request wants none
    obtain rfl : last = [] := (user_at_stem h).1 hs.user
    have hrepo := repository_path_iff.1 hs.repository
    have hroot := isRoot_of_repository h hrepo
    have hsegments : base.path.segments = [[]] := hroot
    obtain ⟨rfl, -⟩ := (isRoot_iff h).1 hroot
    rw [repoUrl_segments, UrlPath.front_eq h, if_pos rfl, hsegments] at hrepo
    have hfixed : UrlPath.begun (UrlPath.begun [[]] ++ reposSegments) = reposSegments := by decide
    have hlength := UrlPath.pushSegment_length set (UrlPath.begun [[]] ++ reposSegments) owner
    rw [hfixed] at hlength
    obtain ⟨hr, hback, -⟩ := UrlPath.pushSegment_back (s := repository)
      (l := [] ++ reposSegments ++ [set.encode owner]) (a := set.encode repository)
      (by rw [hrepo, UrlPath.begun_concat]; simp) (set.percentDecode_encode repository) (by simpa using hlength)
    obtain ⟨ho, -⟩ := UrlPath.pushSegment_back (s := owner) hback (set.percentDecode_encode owner)
      (by rw [hfixed]; simp)
    exact ⟨hroot, ho, hr⟩
  · rintro ⟨hroot, ho, hr⟩
    have hsegments : base.path.segments = [[]] := hroot
    obtain ⟨rfl, rfl⟩ := (isRoot_iff h).1 hroot
    refine ⟨⟨rfl, rfl⟩, (user_at_stem h).2 rfl, repository_path_iff.2 ?_⟩
    have hnames : UrlPath.begun (reposSegments ++ [set.encode owner]) = reposSegments ++ [set.encode owner] :=
      UrlPath.begun_of_ne (by simp [reposSegments])
    rw [repoUrl_segments, UrlPath.pushSegment_plain hr, UrlPath.pushSegment_plain ho, hsegments,
      UrlPath.front_eq h, if_pos rfl, show UrlPath.begun (UrlPath.begun [[]] ++ reposSegments) = reposSegments by
        decide, hnames]
    rfl

namespace Sample

theorem toNat_of_alphanum {c : Char} (h : c.isAlphanum = true) : 48 ≤ c.toNat ∧ c.toNat ≤ 122 := by
  have hranges : (decide (c.val ≥ 'A'.val ∧ c.val ≤ 'Z'.val) ||
      (decide (c.val ≥ 'a'.val) && decide (c.val ≤ 'z'.val)) ||
      (decide (c.val ≥ '0'.val) && decide (c.val ≤ '9'.val))) = true := h
  simp only [Bool.or_eq_true, decide_eq_true_eq, Bool.and_eq_true, UInt32.le_iff_toNat_le,
    ge_iff_le] at hranges
  have hA : 'A'.val.toNat = 65 := rfl
  have hZ : 'Z'.val.toNat = 90 := rfl
  have ha : 'a'.val.toNat = 97 := rfl
  have hz : 'z'.val.toNat = 122 := rfl
  have h0 : '0'.val.toNat = 48 := rfl
  have h9 : '9'.val.toNat = 57 := rfl
  unfold Char.toNat
  omega

theorem not_escaped {c : Char} (h : Unreserved c) : ¬ (Reserved c ∨ c = '^') := by
  rcases h with h | h
  · obtain ⟨hlow, hhigh⟩ := toNat_of_alphanum h
    rintro ((he | he | he) | rfl)
    · omega
    · omega
    · simp only [List.mem_cons, List.not_mem_nil, or_false] at he
      rcases he with rfl | rfl | rfl | rfl | rfl | rfl | rfl | rfl | rfl | rfl | rfl <;>
        exact absurd h (by decide)
    · exact absurd h (by decide)
  · simp only [List.mem_cons, List.not_mem_nil, or_false] at h
    rcases h with rfl | rfl | rfl | rfl <;> decide

/-- What a URL parser escapes in a path segment of an `http` URL. -/
def pathSegmentSet : EscapeSet where
  escapes c := decide (Reserved c ∨ c = '^')
  reserved _ hc := decide_eq_true (.inl hc)
  unreserved _ hc := decide_eq_false (not_escaped hc)

def forge (path : UrlPath) : Url := ⟨"https://forge.example".toList, path, none⟩

/-- `/git`. -/
def gitPath : UrlPath := ⟨["git".toList], by simp, by decide, by decide⟩

end Sample

/-- At `https://forge.example/git` the user check leaves the prefix that the repository check keeps. -/
theorem forgejo_prefix_lost :
    (userUrl (Sample.forge Sample.gitPath)).path = "/api/v1/user".toList ∧
      (repoUrl Sample.pathSegmentSet (Sample.forge Sample.gitPath) "team".toList "assets".toList).path =
        "/git/api/v1/repos/team/assets".toList ∧
      ¬ SameRoot Sample.pathSegmentSet (Sample.forge Sample.gitPath) "team".toList "assets".toList := by
  refine ⟨by decide, by decide, fun h => ?_⟩
  exact absurd h.user (by decide)

theorem same_root_iff_root :
    SameRoot Sample.pathSegmentSet (Sample.forge UrlPath.root) "team".toList "assets".toList :=
  (same_root_iff Sample.pathSegmentSet _ _ _).2 ⟨rfl, by decide, by decide⟩

-- a tab in the owner is passed over, so another owner is asked about
example : (repoUrl Sample.pathSegmentSet (Sample.forge UrlPath.root) "te\tam".toList "assets".toList).path =
    "/api/v1/repos/team/assets".toList := by decide

/-! ## The sibling -/

/-- **`action_url` keeps the prefix**: with the empty last segment removed, every base path but `//`
stands before what is appended. -/
theorem site_path {first : Text} (hfirst : PlainName first) (hne : first ≠ [])
    (h : base.path.segments ≠ [[], []]) {added : List Text} (hadded : ∀ s ∈ added, PlainName s) :
    base.site set (first :: added) = some (base.origin ++ (base.path.stem ++
      UrlPath.textOf ((first :: added).map set.encode)) ++ base.query.elim [] ('?' :: ·)) := by
  unfold Url.site
  rw [UrlPath.extendSegments_begun hfirst hne hadded, UrlPath.begun_popIfEmpty.2 h, UrlPath.textOf_append,
    UrlPath.stem_eq]

end Root
end GitLfsDelta
