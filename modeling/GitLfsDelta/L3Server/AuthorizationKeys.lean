import GitLfsDelta.L3Server.Authentication
import GitLfsDelta.L3Server.Routes

/-!
# Keys of the authorization cache

`authenticate_forgejo` looks a decision up under the SHA-256 of the request's header, owner,
repository and access level, with a zero byte behind the first two. A header value has no zero
byte. An owner or a repository can: the router decodes `%00` in a path segment. It also delivers
an empty one, so a zero at either end counts as well.

* `keyInput_unique_iff`: a request shares its input with no other exactly if neither its owner
  nor its repository has a zero.
* `keyInput_collision`: two requests for different repositories with one input.
-/
namespace GitLfsDelta

/-! ## Requests -/

/-- What `HeaderValue::to_str` accepts: visible ASCII and the tab. -/
def HeaderText (t : Text) : Prop := ∀ c ∈ t, (32 ≤ c.toNat ∧ c.toNat < 127) ∨ c = '\t'

/-- What the router delivers to a handler as owner and repository. -/
def RoutedTo (owner repository : Text) : Prop :=
  ∃ method path e, receive method path = .call owner repository e

/-- Any two texts: a segment may hold any character percent-encoded, and none. -/
theorem routedTo_any (set : EscapeSet) (owner repository : Text) : RoutedTo owner repository :=
  ⟨.get, address set owner repository .listLocks, .listLocks, receive_address set (e := .listLocks) trivial⟩

/-- What a decision is asked for. -/
structure AuthRequest where
  authorization : Text
  owner : Text
  repository : Text
  access : Access
  deriving DecidableEq, Repr

namespace AuthRequest

/-- The bytes fed to SHA-256. -/
def keyInput (x : AuthRequest) : Bytes :=
  cacheKeyInput x.authorization x.owner x.repository x.access

/-- A request that can reach `authenticate_forgejo`. -/
structure Deliverable (x : AuthRequest) : Prop where
  header : HeaderText x.authorization
  routed : RoutedTo x.owner x.repository

/-- The key's text, less the access byte. -/
def keyText (x : AuthRequest) : Text :=
  x.authorization ++ '\x00' :: (x.owner ++ '\x00' :: x.repository)

variable {x y : AuthRequest}

theorem keyInput_eq_iff : x.keyInput = y.keyInput ↔ x.keyText = y.keyText ∧ x.access = y.access := by
  have hzero : ∀ t : Text, utf8 ('\x00' :: t) = [0] ++ utf8 t := fun t => rfl
  have hform : ∀ z : AuthRequest, z.keyInput = utf8 z.keyText ++
      [if z.access = .read then (0 : UInt8) else 1] := by
    intro z
    obtain ⟨authorization, owner, repository, access⟩ := z
    cases access
    · simp [keyInput, cacheKeyInput, keyText, utf8_append, hzero]
    · simp [keyInput, cacheKeyInput, keyText, utf8_append, hzero]
  rw [hform, hform]
  constructor
  · intro h
    obtain ⟨htext, hbyte⟩ := List.append_inj' h rfl
    refine ⟨utf8_injective htext, ?_⟩
    cases hx : x.access <;> cases hy : y.access <;> simp [hx, hy] at hbyte ⊢
  · intro h
    rw [h.1, h.2]

/-- A header ends at the first zero. -/
theorem header_nul {t : Text} (h : HeaderText t) : '\x00' ∉ t := by
  intro hmem
  rcases h _ hmem with h | h
  · exact absurd h.1 (by decide)
  · exact absurd h (by decide)

end AuthRequest

/-- Texts split at their first zero. -/
theorem split_first {a a' b b' : Text} (ha : '\x00' ∉ a) (ha' : '\x00' ∉ a')
    (h : a ++ '\x00' :: b = a' ++ '\x00' :: b') : a = a' ∧ b = b' := by
  rcases List.append_eq_append_iff.1 h with ⟨c, hc, hrest⟩ | ⟨c, hc, hrest⟩
  · cases c with
    | nil => exact ⟨by simpa using hc.symm, by simpa using hrest⟩
    | cons z c =>
      obtain ⟨rfl, -⟩ := List.cons.inj hrest
      exact absurd (by rw [hc]; simp) ha'
  · cases c with
    | nil => exact ⟨by simpa using hc, by simpa using hrest.symm⟩
    | cons z c =>
      obtain ⟨rfl, -⟩ := List.cons.inj hrest
      exact absurd (by rw [hc]; simp) ha

namespace AuthRequest

variable {x y : AuthRequest}

/-- Only one split of the owner and the repository is possible. -/
def Unambiguous (x : AuthRequest) : Prop := '\x00' ∉ x.owner ∧ '\x00' ∉ x.repository

theorem segments_unique {o o' r r' : Text} (ho : '\x00' ∉ o) (hr : '\x00' ∉ r)
    (h : o ++ '\x00' :: r = o' ++ '\x00' :: r') : o = o' ∧ r = r' := by
  rcases List.append_eq_append_iff.1 h with ⟨c, hc, hrest⟩ | ⟨c, hc, hrest⟩
  · cases c with
    | nil => exact ⟨by simpa using hc.symm, by simpa using hrest⟩
    | cons z c =>
      -- the other split is later, inside the repository
      have hrepo : r = c ++ '\x00' :: r' := (List.cons.inj hrest).2
      refine absurd ?_ hr
      rw [hrepo]
      exact List.mem_append_right c List.mem_cons_self
  · cases c with
    | nil => exact ⟨by simpa using hc, by simpa using hrest.symm⟩
    | cons z c =>
      -- the other split is earlier, inside the owner
      obtain ⟨rfl, -⟩ := List.cons.inj hrest
      refine absurd ?_ ho
      rw [hc]
      exact List.mem_append_right o' List.mem_cons_self

/-- Another request with the same input, for one that can be split elsewhere. -/
theorem exists_collision (set : EscapeSet) (hx : x.Deliverable) (h : ¬ x.Unambiguous) :
    ∃ y : AuthRequest, y.Deliverable ∧ x.keyInput = y.keyInput ∧ x ≠ y := by
  obtain ⟨authorization, owner, repository, access⟩ := x
  have hlonger : ∀ {y : AuthRequest}, owner.length ≠ y.owner.length →
      (⟨authorization, owner, repository, access⟩ : AuthRequest) ≠ y := by
    rintro y hne rfl
    exact hne rfl
  rw [Unambiguous, not_and_or, not_not, not_not] at h
  rcases h with h | h
  · -- split at the zero inside the owner
    obtain ⟨a, b, rfl⟩ := List.append_of_mem h
    refine ⟨⟨authorization, a, b ++ '\x00' :: repository, access⟩, ⟨hx.header, routedTo_any set _ _⟩, ?_, ?_⟩
    · exact keyInput_eq_iff.2 ⟨by simp [keyText], rfl⟩
    · exact hlonger (by simp)
  · -- split at the zero inside the repository
    obtain ⟨a, b, rfl⟩ := List.append_of_mem h
    refine ⟨⟨authorization, owner ++ '\x00' :: a, b, access⟩, ⟨hx.header, routedTo_any set _ _⟩, ?_, ?_⟩
    · exact keyInput_eq_iff.2 ⟨by simp [keyText], rfl⟩
    · exact hlonger (by simp)

/-- **Which requests have a key of their own.** -/
theorem keyInput_unique_iff (x : AuthRequest) (hx : x.Deliverable) :
    (∀ y : AuthRequest, y.Deliverable → x.keyInput = y.keyInput → x = y) ↔ x.Unambiguous := by
  constructor
  · intro h
    by_contra hamb
    obtain ⟨y, hy, hkey, hne⟩ := exists_collision Sample.pathSegmentSet hx hamb
    exact hne (h y hy hkey)
  · intro h y hy hkey
    obtain ⟨htext, haccess⟩ := keyInput_eq_iff.1 hkey
    obtain ⟨hauth, hsegments⟩ := split_first (header_nul hx.header) (header_nul hy.header) htext
    obtain ⟨howner, hrepository⟩ := segments_unique h.1 h.2 hsegments
    obtain ⟨authorization, owner, repository, access⟩ := x
    obtain ⟨authorization', owner', repository', access'⟩ := y
    simp only at hauth howner hrepository haccess
    rw [hauth, howner, hrepository, haccess]

end AuthRequest

namespace Sample

/-- A request without a zero. -/
def plainRequest : AuthRequest := ⟨"t".toList, "o".toList, "n".toList, .read⟩

/-- `GET /a%00b/c/...` and `GET /a/b%00c/...`. -/
def smuggledOwner : AuthRequest := ⟨"t".toList, ['a', '\x00', 'b'], ['c'], .read⟩

def smuggledRepository : AuthRequest := ⟨"t".toList, ['a'], ['b', '\x00', 'c'], .read⟩

theorem headerText_t : HeaderText "t".toList := by
  intro c hc
  obtain rfl : c = 't' := by simpa using hc
  exact .inl (by decide)

end Sample

/-- A request without a zero has a key of its own. -/
theorem keyInput_unique_plain : Sample.plainRequest.Deliverable ∧
    ∀ y : AuthRequest, y.Deliverable → Sample.plainRequest.keyInput = y.keyInput →
      Sample.plainRequest = y := by
  have hplain : Sample.plainRequest.Deliverable :=
    ⟨Sample.headerText_t, routedTo_any Sample.pathSegmentSet _ _⟩
  exact ⟨hplain, (AuthRequest.keyInput_unique_iff Sample.plainRequest hplain).2 ⟨by decide, by decide⟩⟩

/-- Two requests that are delivered, for different owners and repositories, with one input. -/
theorem keyInput_collision : Sample.smuggledOwner.Deliverable ∧ Sample.smuggledRepository.Deliverable ∧
    Sample.smuggledOwner.keyInput = Sample.smuggledRepository.keyInput ∧
    Sample.smuggledOwner ≠ Sample.smuggledRepository := by
  refine ⟨⟨Sample.headerText_t, routedTo_any Sample.pathSegmentSet _ _⟩,
    ⟨Sample.headerText_t, routedTo_any Sample.pathSegmentSet _ _⟩, ?_, by decide⟩
  exact AuthRequest.keyInput_eq_iff.2 ⟨by decide, rfl⟩

-- behind the last zero nothing need be left: `GET /o%00n//info/lfs/locks` and `GET /o/n%00/info/lfs/locks`
example : receive .get ["o%00n".toList, [], "info".toList, "lfs".toList, "locks".toList] =
      .call ['o', '\x00', 'n'] [] .listLocks ∧
    receive .get ["o".toList, "n%00".toList, "info".toList, "lfs".toList, "locks".toList] =
      .call ['o'] ['n', '\x00'] .listLocks := by decide +kernel

end GitLfsDelta
