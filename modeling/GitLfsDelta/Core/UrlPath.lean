import GitLfsDelta.Core.Percent

/-!
# Paths of URLs

A hierarchical URL's path as the list of its segments: `/a/b` is `[a, b]`, `/a/b/` is
`[a, b, ""]` and `/` is `[""]`. Two ways to go on from a base:

* `UrlPath.join`: a relative reference is resolved against the base (RFC 3986), so it takes the
  place of the base's last segment.
* `UrlPath.extend`: segments are appended, each percent-encoded. The last segment of the base
  stays, also an empty one; only the path `/` has nothing that could stay. Dot segments are
  skipped. A tab, a line feed or a carriage return is passed over, and a dot segment that comes
  to light so is resolved.

`text` writes a path down and `stem` is it without its trailing slash; `stem_eq` says which
segments it keeps. `pushSegment_back` says when an appended name can be read back.
-/
namespace GitLfsDelta

/-- The characters that a URL parser passes over. -/
def Ignored (c : Char) : Prop := c = '\t' ∨ c = '\n' ∨ c = '\r'

instance (c : Char) : Decidable (Ignored c) := by unfold Ignored; infer_instance

/-- A text that is a path segment as it is. -/
def PlainName (s : Text) : Prop := ¬ DotSegment s ∧ ∀ c ∈ s, ¬ Ignored c

instance (s : Text) : Decidable (PlainName s) :=
  @instDecidableAnd _ _ inferInstance (List.decidableBAll _ s)

/-- The path of a parsed URL. -/
structure UrlPath where
  segments : List Text
  nonempty : segments ≠ []
  plain : ∀ s ∈ segments, '/' ∉ s
  /-- A parser has removed them. -/
  normal : ∀ s ∈ segments, ¬ DotSegment s

namespace UrlPath

/-- A path as it stands in a URL. -/
def textOf (segments : List Text) : Text := segments.flatMap fun s => '/' :: s

def text (p : UrlPath) : Text := textOf p.segments

/-- `/`. -/
def root : UrlPath := ⟨[[]], by simp, by simp, by simp [DotSegment]⟩

def IsRoot (p : UrlPath) : Prop := p.segments = [[]]

instance (p : UrlPath) : Decidable p.IsRoot := by unfold IsRoot; infer_instance

@[simp] theorem textOf_append (a b : List Text) : textOf (a ++ b) = textOf a ++ textOf b := by
  simp [textOf]

@[simp] theorem textOf_singleton (s : Text) : textOf [s] = '/' :: s := by simp [textOf]

/-- Segments are read off a path's text. -/
theorem textOf_injective {a b : List Text} (ha : ∀ s ∈ a, '/' ∉ s) (hb : ∀ s ∈ b, '/' ∉ s)
    (h : textOf a = textOf b) : a = b := by
  -- behind a segment the text ends or goes on with a slash
  have hslash : ∀ {c : Char} {cs rest : Text} {l : List Text}, textOf l = c :: cs ++ rest → c = '/' := by
    intro c cs rest l e
    cases l with
    | nil => simp [textOf] at e
    | cons s l =>
      simp only [textOf, List.flatMap_cons, List.cons_append, List.cons.injEq] at e
      exact e.1.symm
  induction a generalizing b with
  | nil =>
    cases b with
    | nil => rfl
    | cons t b => simp [textOf] at h
  | cons s a ih =>
    cases b with
    | nil => simp [textOf] at h
    | cons t b =>
      obtain ⟨hs, ha'⟩ := List.forall_mem_cons.1 ha
      obtain ⟨ht, hb'⟩ := List.forall_mem_cons.1 hb
      have htext : s ++ textOf a = t ++ textOf b := by simpa [textOf] using h
      rcases List.append_eq_append_iff.1 htext with ⟨c, rfl, hrest⟩ | ⟨c, rfl, hrest⟩
      · cases c with
        | nil => rw [List.append_nil, ih ha' hb' hrest]
        | cons c cs =>
          obtain rfl := hslash hrest
          exact absurd (List.mem_append_right s List.mem_cons_self) ht
      · cases c with
        | nil => rw [List.append_nil, ih ha' hb' hrest.symm]
        | cons c cs =>
          obtain rfl := hslash hrest
          exact absurd (List.mem_append_right t List.mem_cons_self) hs

/-! ## Resolution of references -/

/-- `remove_dot_segments`; `out` is what is output so far, last segment first. -/
def removeDots (out : List Text) : List Text → List Text
  | [] => out.reverse
  | s :: rest =>
    if s = ['.'] then
      if rest = [] then ([] :: out).reverse else removeDots out rest
    else if s = ['.', '.'] then
      if rest = [] then ([] :: out.tail).reverse else removeDots out.tail rest
    else removeDots (s :: out) rest

theorem removeDots_eq {segments : List Text} (h : ∀ s ∈ segments, ¬ DotSegment s) (out : List Text) :
    removeDots out segments = out.reverse ++ segments := by
  induction segments generalizing out with
  | nil => simp [removeDots]
  | cons s rest ih =>
    obtain ⟨hs, hrest⟩ := List.forall_mem_cons.1 h
    rw [DotSegment, not_or] at hs
    rw [removeDots, if_neg hs.1, if_neg hs.2, ih hrest]
    simp

/-- `Url::join` of a relative path: the base without its last segment, then the reference. -/
def join (base : UrlPath) (reference : List Text) : List Text :=
  removeDots [] (base.segments.dropLast ++ reference)

theorem join_eq (base : UrlPath) {reference : List Text} (h : ∀ s ∈ reference, ¬ DotSegment s) :
    base.join reference = base.segments.dropLast ++ reference := by
  unfold join
  rw [removeDots_eq]
  · rfl
  · intro s hs
    rcases List.mem_append.1 hs with hs | hs
    · exact base.normal s (List.dropLast_subset _ hs)
    · exact h s hs

/-! ## Appending segments -/

/-- What a new segment is put behind; the path `/` is filled first. -/
def begun (segments : List Text) : List Text := if segments = [[]] then [] else segments

/-- `C:` and the like, which `..` does not remove. -/
def DriveLetter : Text → Prop
  | [letter, c] => letter.isAlpha = true ∧ (c = ':' ∨ c = '|')
  | _ => False

instance : DecidablePred DriveLetter
  | [] | [_] | _ :: _ :: _ :: _ => .isFalse id
  | [letter, c] => inferInstanceAs (Decidable (letter.isAlpha = true ∧ (c = ':' ∨ c = '|')))

section Extend

variable (set : EscapeSet)

/-- One segment of `path_segments_mut().extend`. -/
def pushSegment (segments : List Text) (s : Text) : List Text :=
  if DotSegment s then segments
  else
    let kept := s.filter fun c => ¬ Ignored c
    if kept = ['.'] then begun segments ++ [[]]
    else if kept = ['.', '.'] then
      if ∃ t ∈ (begun segments).getLast?, DriveLetter t then begun segments ++ [[]]
      else (begun segments).dropLast ++ [[]]
    else begun segments ++ [set.encode kept]

/-- `path_segments_mut().extend`. -/
def extendSegments (segments : List Text) (added : List Text) : List Text :=
  added.foldl (pushSegment set) segments

def extend (base : UrlPath) (added : List Text) : List Text := extendSegments set base.segments added

/-- `path_segments_mut().pop_if_empty`. -/
def popIfEmpty (segments : List Text) : List Text :=
  if segments.getLast? = some [] ∧ segments ≠ [[]] then segments.dropLast else segments

variable {set} {segments : List Text} {s : Text}

theorem begun_of_ne (h : segments ≠ [[]]) : begun segments = segments := if_neg h

theorem begun_concat {init l : List Text} {x a : Text} :
    begun (init ++ [x]) = l ++ [a] ↔ init = l ∧ x = a ∧ ¬ (l = [] ∧ a = []) := by
  by_cases h : init ++ [x] = [[]]
  · have hboth : init = [] ∧ x = [] := by
      have hlength := congrArg List.length h
      simp only [List.length_append, List.length_singleton] at hlength
      obtain rfl : init = [] := List.length_eq_zero_iff.1 (by omega)
      exact ⟨rfl, by simpa using h⟩
    obtain ⟨rfl, rfl⟩ := hboth
    simp only [begun, List.nil_append, if_true]
    constructor
    · intro e
      simp at e
    · rintro ⟨rfl, rfl, hne⟩
      exact absurd ⟨rfl, rfl⟩ hne
  · rw [begun_of_ne h]
    constructor
    · intro e
      obtain ⟨rfl, hx⟩ := List.append_inj' e rfl
      obtain rfl : x = a := by simpa using hx
      refine ⟨rfl, rfl, ?_⟩
      rintro ⟨rfl, rfl⟩
      exact h rfl
    · rintro ⟨rfl, rfl, -⟩
      rfl

theorem kept_plain (h : ∀ c ∈ s, ¬ Ignored c) : (s.filter fun c => ¬ Ignored c) = s :=
  List.filter_eq_self.2 fun c hc => decide_eq_true (h c hc)

/-- What pushing a segment can do: nothing, leave an empty segment, or append what is kept of it. -/
theorem pushSegment_cases (set : EscapeSet) (segments : List Text) (s : Text) :
    DotSegment s ∧ pushSegment set segments s = segments ∨
    (DotSegment (s.filter fun c => ¬ Ignored c) ∧ ∃ init, (init = begun segments ∨ init = (begun segments).dropLast) ∧
      pushSegment set segments s = init ++ [[]]) ∨
    ¬ DotSegment s ∧ ¬ DotSegment (s.filter fun c => ¬ Ignored c) ∧
      pushSegment set segments s = begun segments ++ [set.encode (s.filter fun c => ¬ Ignored c)] := by
  unfold pushSegment
  by_cases hs : DotSegment s
  · exact .inl ⟨hs, if_pos hs⟩
  · rw [if_neg hs]
    by_cases hone : (s.filter fun c => ¬ Ignored c) = ['.']
    · exact .inr (.inl ⟨.inl hone, _, .inl rfl, if_pos hone⟩)
    · by_cases htwo : (s.filter fun c => ¬ Ignored c) = ['.', '.']
      · refine .inr (.inl ⟨.inr htwo, ?_⟩)
        simp only [if_neg hone, if_pos htwo]
        split
        · exact ⟨_, .inl rfl, rfl⟩
        · exact ⟨_, .inr rfl, rfl⟩
      · refine .inr (.inr ⟨hs, not_or.2 ⟨hone, htwo⟩, ?_⟩)
        simp only [if_neg hone, if_neg htwo]

theorem mem_pushSegment {x : Text} (h : x ∈ pushSegment set segments s) :
    x ∈ segments ∨ ∃ t, ¬ DotSegment t ∧ x = set.encode t := by
  have hbegun : ∀ {y : Text}, y ∈ begun segments → y ∈ segments := by
    intro y hy
    unfold begun at hy
    split at hy
    · cases hy
    · exact hy
  rcases pushSegment_cases set segments s with ⟨-, heq⟩ | ⟨-, init, hinit, heq⟩ | ⟨-, hkept, heq⟩
  · rw [heq] at h
    exact .inl h
  · rw [heq] at h
    rcases List.mem_append.1 h with h | h
    · rcases hinit with rfl | rfl
      · exact .inl (hbegun h)
      · exact .inl (hbegun (List.dropLast_subset _ h))
    · exact .inr ⟨[], by decide, List.mem_singleton.1 h⟩
  · rw [heq] at h
    rcases List.mem_append.1 h with h | h
    · exact .inl (hbegun h)
    · exact .inr ⟨_, hkept, List.mem_singleton.1 h⟩

theorem mem_extendSegments {added : List Text} {x : Text} (h : x ∈ extendSegments set segments added) :
    x ∈ segments ∨ ∃ t, ¬ DotSegment t ∧ x = set.encode t := by
  induction added generalizing segments with
  | nil => exact .inl h
  | cons s added ih =>
    have hadded : x ∈ extendSegments set (pushSegment set segments s) added := h
    rcases ih hadded with hmem | henc
    · exact mem_pushSegment hmem
    · exact .inr henc

theorem slash_extendSegments {added : List Text} (hplain : ∀ t ∈ segments, '/' ∉ t) {x : Text}
    (h : x ∈ extendSegments set segments added) : '/' ∉ x := by
  rcases mem_extendSegments h with hx | ⟨t, -, rfl⟩
  · exact hplain x hx
  · exact set.slash_encode t

theorem pushSegment_plain (h : PlainName s) : pushSegment set segments s = begun segments ++ [set.encode s] := by
  have hkept := kept_plain h.2
  rcases pushSegment_cases set segments s with ⟨hs, -⟩ | ⟨hs, -⟩ | ⟨-, -, heq⟩
  · exact absurd hs h.1
  · rw [hkept] at hs
    exact absurd hs h.1
  · rw [heq, hkept]

theorem pushSegment_length (set : EscapeSet) (segments : List Text) (s : Text) :
    (begun (pushSegment set segments s)).length ≤ (begun segments).length + 1 := by
  have hle : ∀ l : List Text, (begun l).length ≤ l.length := by
    intro l
    unfold begun
    split <;> simp
  rcases pushSegment_cases set segments s with ⟨-, heq⟩ | ⟨-, init, hinit, heq⟩ | ⟨-, -, heq⟩
  · rw [heq]
    omega
  · have hlength := hle (init ++ [[]])
    rw [heq]
    rcases hinit with rfl | rfl
    · simpa using hlength
    · simp only [List.length_append, List.length_dropLast, List.length_singleton] at hlength ⊢
      omega
  · have hlength := hle (begun segments ++ [set.encode (s.filter fun c => ¬ Ignored c)])
    rw [heq]
    simpa using hlength

/-- All but the last segment stay. -/
theorem prefix_pushSegment {l : List Text} {x : Text} (h : l ++ [x] <+: segments) (hne : l ≠ [])
    (set : EscapeSet) (s : Text) : l <+: pushSegment set segments s := by
  obtain ⟨tail, rfl⟩ := h
  have hlong : l ++ [x] ++ tail ≠ [[]] := by
    intro e
    have hlength := congrArg List.length e
    have hpos := List.length_pos_iff.2 hne
    simp only [List.length_append, List.length_singleton] at hlength
    omega
  have hinit : l <+: (l ++ [x] ++ tail).dropLast := by
    rw [List.append_assoc, List.dropLast_append_of_ne_nil (by simp)]
    exact List.prefix_append _ _
  have hwhole : l <+: l ++ [x] ++ tail := hinit.trans (List.dropLast_prefix _)
  rcases pushSegment_cases set (l ++ [x] ++ tail) s with ⟨-, heq⟩ | ⟨-, init, hor, heq⟩ | ⟨-, -, heq⟩
  · rwa [heq]
  · rw [heq]
    rw [begun_of_ne hlong] at hor
    rcases hor with rfl | rfl
    · exact hwhole.trans (List.prefix_append _ _)
    · exact hinit.trans (List.prefix_append _ _)
  · rw [heq, begun_of_ne hlong]
    exact hwhole.trans (List.prefix_append _ _)

/-- **A name is read back** at the place where it was pushed only if it is a segment as it is, and
not an empty one pushed on `/`. -/
theorem pushSegment_back {l : List Text} {a : Text} (h : begun (pushSegment set segments s) = l ++ [a])
    (hread : percentDecode a = some s) (hlength : (begun segments).length ≤ l.length) :
    PlainName s ∧ begun segments = l ∧ ¬ (l = [] ∧ s = []) := by
  rcases pushSegment_cases set segments s with ⟨-, heq⟩ | ⟨hdot, init, -, heq⟩ | ⟨hs, -, heq⟩
  · rw [heq] at h
    rw [h, List.length_append, List.length_singleton] at hlength
    omega
  · rw [heq, begun_concat] at h
    obtain ⟨-, rfl, -⟩ := h
    have hnil := set.percentDecode_encode []
    rw [set.encode_nil, hread] at hnil
    obtain rfl : s = [] := Option.some.inj hnil
    rcases hdot with hdot | hdot <;> simp at hdot
  · rw [heq, begun_concat] at h
    obtain ⟨hl, rfl, hne⟩ := h
    rw [set.percentDecode_encode] at hread
    have hkept : (s.filter fun c => ¬ Ignored c) = s := Option.some.inj hread
    refine ⟨⟨hs, fun c hc => ?_⟩, hl, ?_⟩
    · simpa using List.filter_eq_self.1 hkept c hc
    · rintro ⟨rfl, rfl⟩
      exact hne ⟨rfl, by simp⟩

/-- Names that are segments as they are come behind a path that does not end in nothing. -/
theorem extendSegments_append (h : segments ≠ [[]]) (h' : segments ≠ []) {added : List Text}
    (hadded : ∀ s ∈ added, PlainName s) :
    extendSegments set segments added = segments ++ added.map set.encode := by
  induction added generalizing segments with
  | nil => simp [extendSegments]
  | cons s added ih =>
    obtain ⟨hs, hrest⟩ := List.forall_mem_cons.1 hadded
    have hlong : segments ++ [set.encode s] ≠ [[]] := by
      intro e
      have hlength := congrArg List.length e
      simp only [List.length_append, List.length_singleton] at hlength
      exact h' (List.length_eq_zero_iff.1 (by omega))
    unfold extendSegments at ih ⊢
    rw [List.foldl_cons, pushSegment_plain hs, begun_of_ne h, ih hlong (by simp) hrest]
    simp

/-- On any path, where the first of them is not empty. -/
theorem extendSegments_begun {added : List Text} (hs : PlainName s) (hne : s ≠ [])
    (hadded : ∀ s ∈ added, PlainName s) :
    extendSegments set segments (s :: added) = begun segments ++ (s :: added).map set.encode := by
  have hlong : begun segments ++ [set.encode s] ≠ [[]] := by
    intro e
    have hmem : set.encode s ∈ ([[]] : List Text) := e ▸ List.mem_append_right _ List.mem_cons_self
    exact hne (set.encode_eq_nil.1 (List.mem_singleton.1 hmem))
  have hpush : extendSegments set segments (s :: added) =
      extendSegments set (begun segments ++ [set.encode s]) added := by
    unfold extendSegments
    rw [List.foldl_cons, pushSegment_plain hs]
  rw [hpush, extendSegments_append hlong (by simp) hadded]
  simp

end Extend

/-! ## The base as a prefix -/

/-- The path's text without its trailing slash. -/
def stem (p : UrlPath) : Text := if p.text.getLast? = some '/' then p.text.dropLast else p.text

/-- The segments of the path without its trailing slash. -/
def front (p : UrlPath) : List Text :=
  if p.segments.getLast? = some [] then p.segments.dropLast else p.segments

theorem exists_last (p : UrlPath) : ∃ init last, p.segments = init ++ [last] :=
  ⟨_, _, (List.dropLast_append_getLast p.nonempty).symm⟩

theorem front_eq {p : UrlPath} {init : List Text} {last : Text} (h : p.segments = init ++ [last]) :
    p.front = if last = [] then init else p.segments := by
  unfold front
  rw [h]
  by_cases hlast : last = []
  · simp [hlast]
  · simp [hlast]

theorem stem_eq (p : UrlPath) : p.stem = textOf p.front := by
  obtain ⟨init, last, h⟩ := p.exists_last
  have htext : p.text = textOf init ++ '/' :: last := by
    rw [text, h, textOf_append, textOf_singleton]
  have hlast : p.text.getLast? = some '/' ↔ last = [] := by
    rw [htext, List.getLast?_append]
    cases last with
    | nil => simp
    | cons c cs =>
      have hslash : '/' ∉ c :: cs := p.plain _ (by rw [h]; simp)
      simp only [reduceCtorEq, iff_false, List.getLast?_cons_cons]
      intro e
      cases hget : (c :: cs).getLast? with
      | none => simp at hget
      | some d =>
        rw [hget] at e
        have hd := List.mem_of_getLast? hget
        have : d = '/' := by simpa using e
        exact hslash (this ▸ hd)
  rw [front_eq h]
  unfold stem
  by_cases hempty : last = []
  · rw [if_pos (hlast.2 hempty), if_pos hempty, htext, hempty]
    simp
  · rw [if_neg (mt hlast.1 hempty), if_neg hempty]
    rfl

theorem mem_front {p : UrlPath} {s : Text} (h : s ∈ p.front) : s ∈ p.segments := by
  unfold front at h
  split at h
  · exact List.dropLast_subset _ h
  · exact h

theorem front_eq_nil {p : UrlPath} : p.front = [] ↔ p.IsRoot := by
  obtain ⟨init, last, h⟩ := p.exists_last
  rw [front_eq h, IsRoot, h]
  by_cases hlast : last = []
  · subst hlast
    cases init <;> simp
  · rw [if_neg hlast]
    constructor
    · intro e
      simp at e
    · intro e
      have hmem : last ∈ ([[]] : List Text) := e ▸ List.mem_append_right _ List.mem_cons_self
      exact absurd (List.mem_singleton.1 hmem) hlast

/-- With its empty last segment removed a path is its front, unless it is `//`. -/
theorem begun_popIfEmpty {p : UrlPath} :
    begun (popIfEmpty p.segments) = p.front ↔ p.segments ≠ [[], []] := by
  obtain ⟨init, last, hlast⟩ := p.exists_last
  rw [front_eq hlast, hlast]
  unfold popIfEmpty
  by_cases hempty : last = []
  · subst hempty
    rw [if_pos rfl]
    by_cases hinit : init = []
    · subst hinit
      decide
    · rw [if_pos ⟨by simp, by simpa using hinit⟩, List.dropLast_concat]
      by_cases hone : init = [[]]
      · subst hone
        decide
      · rw [begun_of_ne hone]
        refine iff_of_true rfl fun e => hone ?_
        have heq : init ++ [[]] = [[]] ++ [[]] := e
        exact List.append_inj_left' heq rfl
  · have hne : init ++ [last] ≠ [[]] := by
      intro e
      have hmem : last ∈ ([[]] : List Text) := e ▸ List.mem_append_right _ List.mem_cons_self
      exact hempty (List.mem_singleton.1 hmem)
    rw [if_neg (by simp [hempty]), if_neg hempty, begun_of_ne hne]
    refine iff_of_true rfl fun e => hempty ?_
    have heq : init ++ [last] = [[]] ++ [[]] := e
    exact List.singleton_inj.1 (List.append_inj_right' heq rfl)

theorem length_popIfEmpty (p : UrlPath) : (begun (popIfEmpty p.segments)).length ≤ p.front.length := by
  by_cases h : p.segments = [[], []]
  · rw [h, show begun (popIfEmpty [[], []]) = [] by decide]
    exact Nat.zero_le _
  · rw [begun_popIfEmpty.2 h]

end UrlPath
end GitLfsDelta
