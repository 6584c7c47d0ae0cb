import GitLfsDelta.Core.Text

/-!
# Routers

A router maps a path, the list of its segments, to a route and the segments that the route's
parameters stand for. A parameter stands for one segment, an empty one too unless the path ends
with it. Where several routes match, a fixed text goes before a parameter, at the first segment where they differ; a choice that
leads nowhere is taken back.

* `find_none`: a path is not found only where no route matches.
* `find_sound`: what is found is one of the routes, it matches, and no route that matches precedes it.
* `find_preferred`: a matching route that precedes all others that match is the one found.
-/
namespace GitLfsDelta
namespace Router

inductive Piece
  | text (t : Text)
  | parameter
  deriving DecidableEq

/-- What the parameters of a pattern stand for in a path that matches. -/
def captures : List Piece → List Text → Option (List Text)
  | [], [] => some []
  | .text t :: pattern, s :: path => if s = t then captures pattern path else none
  | .parameter :: pattern, s :: path =>
    if s = [] ∧ path = [] then none else (captures pattern path).map (s :: ·)
  | [], _ :: _ | _ :: _, [] => none

/-- The routes of a router, each with its pattern. -/
abbrev Routes (α : Type) := List (List Piece × α)

variable {α : Type} {routes : Routes α} {pattern : List Piece} {a : α} {path cs : List Text}

theorem captures_text {t : Text} : captures (.text t :: pattern) path = some cs ↔
    ∃ rest, path = t :: rest ∧ captures pattern rest = some cs := by
  cases path with
  | nil => simp [captures]
  | cons s rest =>
    by_cases hs : s = t
    · simp [captures, hs]
    · simp [captures, hs]

theorem captures_parameter : captures (.parameter :: pattern) path = some cs ↔
    ∃ s rest tail, path = s :: rest ∧ cs = s :: tail ∧ ¬ (s = [] ∧ rest = []) ∧
      captures pattern rest = some tail := by
  cases path with
  | nil => simp [captures]
  | cons s rest =>
    by_cases hs : s = [] ∧ rest = []
    · obtain ⟨rfl, rfl⟩ := hs
      simp [captures]
    · simp only [captures, if_neg hs, Option.map_eq_some_iff]
      constructor
      · rintro ⟨tail, htail, rfl⟩
        exact ⟨s, rest, tail, rfl, rfl, hs, htail⟩
      · rintro ⟨_, _, tail, h, rfl, -, htail⟩
        cases h
        exact ⟨tail, htail, rfl⟩

theorem captures_length (h : captures pattern path = some cs) : path.length = pattern.length := by
  induction pattern generalizing path cs with
  | nil =>
    cases path with
    | nil => rfl
    | cons s path => simp [captures] at h
  | cons piece pattern ih =>
    cases piece with
    | text t =>
      obtain ⟨rest, rfl, hrest⟩ := captures_text.1 h
      rw [List.length_cons, List.length_cons, ih hrest]
    | parameter =>
      obtain ⟨s, rest, tail, rfl, -, -, hrest⟩ := captures_parameter.1 h
      rw [List.length_cons, List.length_cons, ih hrest]

/-- The first pattern has a text where the second has a parameter, and up to there they agree. -/
inductive Precedes : List Piece → List Piece → Prop
  | here (t : Text) (p q : List Piece) : Precedes (.text t :: p) (.parameter :: q)
  | there (x : Piece) {p q : List Piece} (h : Precedes p q) : Precedes (x :: p) (x :: q)

/-- What is left of the routes behind a piece. -/
def below (piece : Piece) (routes : Routes α) : Routes α :=
  routes.filterMap fun
    | (q :: pattern, a) => if q = piece then some (pattern, a) else none
    | ([], _) => none

def find (routes : Routes α) : List Text → Option (α × List Text)
  | [] => (routes.find? (·.1.isEmpty)).map fun r => (r.2, [])
  | s :: path =>
    match find (below (.text s) routes) path with
    | some found => some found
    | none =>
      if s = [] ∧ path = [] then none
      else (find (below .parameter routes) path).map fun found => (found.1, s :: found.2)

@[simp] theorem mem_below {piece : Piece} :
    (pattern, a) ∈ below piece routes ↔ (piece :: pattern, a) ∈ routes := by
  unfold below
  rw [List.mem_filterMap]
  constructor
  · rintro ⟨⟨p, b⟩, hmem, h⟩
    cases p with
    | nil => cases h
    | cons q p =>
      by_cases hq : q = piece
      · subst hq
        simp only [if_true, Option.some.injEq, Prod.mk.injEq] at h
        obtain ⟨rfl, rfl⟩ := h
        exact hmem
      · simp [hq] at h
  · intro h
    exact ⟨_, h, by simp⟩

theorem find_complete (hmem : (pattern, a) ∈ routes) (hmatch : captures pattern path = some cs) :
    (find routes path).isSome = true := by
  induction path generalizing routes pattern cs with
  | nil =>
    obtain rfl : pattern = [] := by
      cases pattern with
      | nil => rfl
      | cons q pattern => simp [captures] at hmatch
    rw [find, Option.isSome_map, List.find?_isSome]
    exact ⟨_, hmem, rfl⟩
  | cons s path ih =>
    rw [find]
    cases htext : find (below (.text s) routes) path with
    | some found => rfl
    | none =>
      cases pattern with
      | nil => simp [captures] at hmatch
      | cons q pattern =>
        cases q with
        | text t =>
          by_cases ht : s = t
          · subst ht
            simp only [captures, if_true] at hmatch
            have hsome := ih (mem_below.2 hmem) hmatch
            simp [htext] at hsome
          · simp [captures, ht] at hmatch
        | parameter =>
          by_cases hs : s = [] ∧ path = []
          · rw [captures, if_pos hs] at hmatch
            cases hmatch
          · rw [captures, if_neg hs] at hmatch
            obtain ⟨rest, hrest, -⟩ := Option.map_eq_some_iff.1 hmatch
            simp only [if_neg hs, Option.isSome_map]
            exact ih (mem_below.2 hmem) hrest

theorem find_none (h : find routes path = none) (hmem : (pattern, a) ∈ routes) :
    captures pattern path = none := by
  by_contra hmatch
  obtain ⟨cs, hcs⟩ := Option.ne_none_iff_exists'.1 hmatch
  have hfound := find_complete hmem hcs
  simp [h] at hfound

/-- **What is found matches, and no route that matches precedes it.** -/
theorem find_sound (h : find routes path = some (a, cs)) :
    ∃ pattern, (pattern, a) ∈ routes ∧ captures pattern path = some cs ∧
      ∀ p b, (p, b) ∈ routes → (captures p path).isSome = true → ¬ Precedes p pattern := by
  induction path generalizing routes cs with
  | nil =>
    obtain ⟨⟨pattern, b⟩, hfound, h⟩ := Option.map_eq_some_iff.1 h
    cases h
    have hempty := List.find?_some hfound
    obtain rfl : pattern = [] := List.isEmpty_iff.1 hempty
    exact ⟨[], List.mem_of_find?_eq_some hfound, rfl, fun p b _ _ hp => by cases hp⟩
  | cons s path ih =>
    rw [find] at h
    cases htext : find (below (.text s) routes) path with
    | some found =>
      rw [htext] at h
      cases h
      obtain ⟨pattern, hmem, hcaptures, hfirst⟩ := ih htext
      refine ⟨_, mem_below.1 hmem, by simp [captures, hcaptures], fun p b hp hmatch hprecedes => ?_⟩
      cases hprecedes with
      | there x hrest =>
        simp only [captures, if_true] at hmatch
        exact hfirst _ b (mem_below.2 hp) hmatch hrest
    | none =>
      rw [htext] at h
      by_cases hs : s = [] ∧ path = []
      · simp [hs] at h
      · simp only [if_neg hs] at h
        obtain ⟨⟨b, rest⟩, hfound, h⟩ := Option.map_eq_some_iff.1 h
        cases h
        obtain ⟨pattern, hmem, hcaptures, hfirst⟩ := ih hfound
        refine ⟨_, mem_below.1 hmem, by rw [captures, if_neg hs, hcaptures]; rfl, fun p b hp hmatch hprecedes => ?_⟩
        cases hprecedes with
        | here t p q =>
          -- a text that matches would have been found before
          by_cases ht : s = t
          · subst ht
            have hnone := find_none htext (mem_below.2 hp)
            simp [captures, hnone] at hmatch
          · simp [captures, ht] at hmatch
        | there x hrest =>
          simp only [captures, if_neg hs, Option.isSome_map] at hmatch
          exact hfirst _ b (mem_below.2 hp) hmatch hrest

/-- **A matching route that precedes the others is found.** -/
theorem find_preferred (hmem : (pattern, a) ∈ routes) (hmatch : captures pattern path = some cs)
    (hfirst : ∀ p b, (p, b) ∈ routes → (captures p path).isSome = true →
      p = pattern ∧ b = a ∨ Precedes pattern p) :
    find routes path = some (a, cs) := by
  obtain ⟨⟨b, ds⟩, hfound⟩ := Option.isSome_iff_exists.1 (find_complete hmem hmatch)
  obtain ⟨p, hp, hcaptures, hnone⟩ := find_sound hfound
  rcases hfirst p b hp (by rw [hcaptures]; rfl) with ⟨rfl, rfl⟩ | hprecedes
  · rw [hmatch] at hcaptures
    cases hcaptures
    exact hfound
  · exact absurd hprecedes (hnone pattern a hmem (by rw [hmatch]; rfl))

end Router
end GitLfsDelta
