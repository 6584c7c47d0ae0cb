import Mathlib.Data.List.Sort
import Mathlib.Data.List.Perm.Basic

/-!
# Keyset pagination

A page holds the next `limit` rows beyond a cursor, in the order of their keys; one row more
is read to see whether there is another page, and the cursor of that one is the last key of
this. `follow` is a client that asks for pages until no cursor comes back. The rows may be
others at every request.

* `page_cases`: the last page, and the others.
* `follow_terminates`: with bounded keys the client comes to an end.
* `Walk`, `follow_walk`: what it has got then, whatever happened to the rows in between.
-/
namespace GitLfsDelta

/-- A client that follows cursors: `request i cursor` is the answer to the `i`-th request. The
result is `none` while a cursor is left after `n` requests. -/
def follow {π κ : Type} (request : Nat → Option κ → π × Option κ) : Nat → Nat → Option κ →
    Option (List π)
  | 0, _, _ => none
  | n + 1, i, cursor =>
    match request i cursor with
    | (p, none) => some [p]
    | (p, some next) => (follow request n (i + 1) (some next)).map (p :: ·)

theorem follow_map {π σ κ : Type} (f : π → σ) (request : Nat → Option κ → π × Option κ) (n : Nat) :
    ∀ i cursor, follow (fun i c => (f (request i c).1, (request i c).2)) n i cursor =
      (follow request n i cursor).map (List.map f) := by
  induction n with
  | zero => intro i cursor; rfl
  | succ n ih =>
    intro i cursor
    unfold follow
    rcases request i cursor with ⟨p, _ | next⟩
    · rfl
    · simp only [ih, Option.map_map]
      rfl

section Pages

variable {α κ : Type} (key : α → κ) (rank : κ → Nat)

/-- The row comes after the cursor. -/
def Past (cursor : Option κ) (a : α) : Prop := ∀ c, cursor = some c → rank c < rank (key a)

/-- Strictly in the order of the keys. -/
def InOrder (l : List α) : Prop := l.Pairwise fun a b => rank (key a) < rank (key b)

/-- `WHERE key > cursor ORDER BY key`. -/
def beyond (cursor : Option κ) (rows : List α) : List α :=
  (rows.filter fun a => cursor.all fun c => rank c < rank (key a)).insertionSort
    fun a b => rank (key a) ≤ rank (key b)

/-- A page: one row more is read than is shown. -/
def page (limit : Nat) (rows : List α) (cursor : Option κ) : List α × Option κ :=
  let found := (beyond key rank cursor rows).take (limit + 1)
  (found.take limit, if limit < found.length then (found.take limit).getLast?.map key else none)

variable {key rank} {limit : Nat} {rows : List α} {cursor : Option κ}

theorem mem_beyond {a : α} : a ∈ beyond key rank cursor rows ↔ a ∈ rows ∧ Past key rank cursor a := by
  rw [beyond, (List.perm_insertionSort _ _).mem_iff, List.mem_filter]
  cases cursor <;> simp [Past]

theorem inOrder_beyond (cursor : Option κ) (hnodup : (rows.map fun a => rank (key a)).Nodup) :
    InOrder key rank (beyond key rank cursor rows) := by
  have hperm : (beyond key rank cursor rows).Perm _ := List.perm_insertionSort _ _
  have hle : (beyond key rank cursor rows).Pairwise fun a b => rank (key a) ≤ rank (key b) :=
    haveI : Std.Total fun a b : α => rank (key a) ≤ rank (key b) := ⟨fun a b => Nat.le_total _ _⟩
    haveI : IsTrans α fun a b => rank (key a) ≤ rank (key b) := ⟨fun _ _ _ => Nat.le_trans⟩
    List.pairwise_insertionSort _ _
  have hne : ((beyond key rank cursor rows).map fun a => rank (key a)).Nodup := by
    rw [(hperm.map _).nodup_iff]
    exact hnodup.sublist (List.filter_sublist.map _)
  refine hle.imp₂ (fun a b hab hneq => ?_) (List.pairwise_map.1 hne)
  omega

theorem InOrder.nodup {l : List α} (h : InOrder key rank l) : l.Nodup := by
  refine h.imp fun hlt heq => ?_
  rw [heq] at hlt
  exact Nat.lt_irrefl _ hlt

/-- Rows in order are fixed by which they are. -/
theorem InOrder.eq {l l' : List α} (hl : InOrder key rank l) (hl' : InOrder key rank l')
    (h : ∀ a, a ∈ l ↔ a ∈ l') : l = l' := by
  have hperm : l.Perm l' := (List.perm_ext_iff_of_nodup hl.nodup hl'.nodup).2 h
  refine hperm.eq_of_pairwise (fun a b _ _ hab hba => ?_) hl hl'
  omega

/-- The last page holds all that is left; every other one is full, and its cursor is the key
of its last row. -/
theorem page_cases (key : α → κ) (rank : κ → Nat) (rows : List α) (cursor : Option κ)
    (hlimit : 0 < limit) :
    (page key rank limit rows cursor = (beyond key rank cursor rows, none) ∧
      (beyond key rank cursor rows).length ≤ limit) ∨
    ∃ front last next rest, beyond key rank cursor rows = front ++ last :: next :: rest ∧
      front.length + 1 = limit ∧
      page key rank limit rows cursor = (front ++ [last], some (key last)) := by
  rcases Nat.lt_or_ge limit (beyond key rank cursor rows).length with hmore | hlast
  · right
    generalize hfound : beyond key rank cursor rows = found at hmore
    obtain ⟨front, tail, hsplit, hfront⟩ : ∃ front tail, found = front ++ tail ∧
        front.length = limit - 1 :=
      ⟨found.take (limit - 1), found.drop (limit - 1), (List.take_append_drop _ _).symm, by
        rw [List.length_take]; omega⟩
    rw [hsplit, List.length_append] at hmore
    obtain ⟨last, next, rest, rfl⟩ : ∃ last next rest, tail = last :: next :: rest := by
      match tail with
      | [] => simp at hmore; omega
      | [_] => simp at hmore; omega
      | last :: next :: rest => exact ⟨last, next, rest, rfl⟩
    refine ⟨front, last, next, rest, hsplit, by omega, ?_⟩
    have hshown : ((front ++ last :: next :: rest).take (limit + 1)).take limit = front ++ [last] := by
      rw [List.take_take, Nat.min_eq_left (Nat.le_succ _), List.take_append, List.take_of_length_le (by omega),
        show limit - front.length = 1 by omega]
      rfl
    have hlength : limit < ((front ++ last :: next :: rest).take (limit + 1)).length := by
      rw [List.length_take, List.length_append]
      simp only [List.length_cons] at hmore ⊢
      omega
    simp only [page, hfound, hsplit, hshown, if_pos hlength, List.getLast?_append, List.getLast?_singleton,
      Option.some_or, Option.map_some]
  · left
    refine ⟨?_, hlast⟩
    have hall : (beyond key rank cursor rows).take (limit + 1) = beyond key rank cursor rows :=
      List.take_of_length_le (by omega)
    simp only [page, hall, List.take_of_length_le hlast, if_neg (Nat.not_lt.2 hlast)]

/-! ## Following the cursors -/

/-- A client that has pages left to fetch gets a greater cursor, so it comes to an end. -/
theorem follow_terminates {π : Type} (request : Nat → Option κ → π × Option κ) {bound : Nat}
    (hbound : ∀ c, rank c < bound)
    (hnext : ∀ i cursor p next, request i cursor = (p, some next) →
      ∀ c, cursor = some c → rank c < rank next) :
    ∀ i cursor, ∃ n pages, follow request n i cursor = some pages := by
  -- the distance of the cursor from the bound falls
  have hfall : ∀ fuel i c, bound - rank c ≤ fuel → ∃ n pages, follow request n i (some c) = some pages := by
    intro fuel
    induction fuel with
    | zero =>
      intro i c hc
      have := hbound c
      omega
    | succ fuel ih =>
      intro i c hc
      rcases hreq : request i (some c) with ⟨p, _ | next⟩
      · exact ⟨1, [p], by simp only [follow, hreq]⟩
      · have hlt := hnext i (some c) p next hreq c rfl
        have := hbound next
        obtain ⟨n, pages, hn⟩ := ih (i + 1) next (by omega)
        exact ⟨n + 1, p :: pages, by simp only [follow, hreq, hn, Option.map_some]⟩
  intro i cursor
  rcases hreq : request i cursor with ⟨p, _ | next⟩
  · exact ⟨1, [p], by simp only [follow, hreq]⟩
  · obtain ⟨n, pages, hn⟩ := hfall _ (i + 1) next (Nat.le_refl _)
    exact ⟨n + 1, p :: pages, by simp only [follow, hreq, hn, Option.map_some]⟩

/-- What a client has got that began at request `i` with a cursor, the rows of the `j`-th
request being `tables j`. -/
structure Walk (key : α → κ) (rank : κ → Nat) (limit : Nat) (tables : Nat → List α) (i : Nat)
    (cursor : Option κ) (pages : List (List α)) : Prop where
  inOrder : InOrder key rank pages.flatten
  past : ∀ a ∈ pages.flatten, Past key rank cursor a
  read : ∀ j p, pages[j]? = some p → ∀ a ∈ p, a ∈ tables (i + j)
  kept : ∀ a, Past key rank cursor a → (∀ j < pages.length, a ∈ tables (i + j)) → a ∈ pages.flatten
  full : ∀ p ∈ pages.dropLast, p.length = limit
  short : ∀ p ∈ pages, p.length ≤ limit

theorem follow_walk (hlimit : 0 < limit) {tables : Nat → List α}
    (hnodup : ∀ i, ((tables i).map fun a => rank (key a)).Nodup) (n : Nat) :
    ∀ {i cursor pages}, follow (fun i c => page key rank limit (tables i) c) n i cursor = some pages →
      pages ≠ [] ∧ Walk key rank limit tables i cursor pages := by
  induction n with
  | zero => intro i cursor pages h; cases h
  | succ n ih =>
    intro i cursor pages h
    unfold follow at h
    have hsorted := inOrder_beyond cursor (hnodup i)
    rcases page_cases key rank (tables i) cursor hlimit with
      ⟨hpage, hlength⟩ | ⟨front, last, next, rest, hsplit, hfront, hpage⟩
    · -- the last page
      simp only [hpage, Option.some.injEq] at h
      subst h
      refine ⟨by simp, ⟨by simpa using hsorted, ?_, ?_, ?_, by simp, by simpa using hlength⟩⟩
      · intro a ha
        rw [List.flatten_singleton] at ha
        exact (mem_beyond.1 ha).2
      · intro j p hp a ha
        match j with
        | 0 => cases hp; exact (mem_beyond.1 ha).1
        | j + 1 => simp at hp
      · intro a ha hkept
        rw [List.flatten_singleton]
        exact mem_beyond.2 ⟨hkept 0 (by simp), ha⟩
    · -- a full page, and what the next cursor brings
      simp only [hpage, Option.map_eq_some_iff] at h
      obtain ⟨later, hlater, rfl⟩ := h
      obtain ⟨hne, hw⟩ := ih hlater
      rw [hsplit] at hsorted
      have hmem : ∀ a ∈ front ++ [last], a ∈ beyond key rank cursor (tables i) := by
        intro a ha
        rw [hsplit]
        simp only [List.mem_append, List.mem_cons, List.not_mem_nil, or_false] at ha ⊢
        tauto
      have hpage_le : ∀ a ∈ front ++ [last], rank (key a) ≤ rank (key last) := by
        intro a ha
        rcases List.mem_append.1 ha with ha | ha
        · exact Nat.le_of_lt ((List.pairwise_append.1 hsorted).2.2 a ha last List.mem_cons_self)
        · rw [List.mem_singleton.1 ha]
      have hlast_past : ∀ c, cursor = some c → rank c < rank (key last) :=
        (mem_beyond.1 (hmem last (by simp))).2
      refine ⟨by simp, ⟨?_, ?_, ?_, ?_, ?_, ?_⟩⟩
      · rw [List.flatten_cons]
        refine List.pairwise_append.2 ⟨?_, hw.inOrder, fun a ha b hb => ?_⟩
        · refine hsorted.sublist ?_
          exact (List.sublist_append_left [last] (next :: rest)).append_left front
        · exact Nat.lt_of_le_of_lt (hpage_le a ha) (hw.past b hb _ rfl)
      · intro a ha
        rw [List.flatten_cons, List.mem_append] at ha
        rcases ha with ha | ha
        · exact (mem_beyond.1 (hmem a ha)).2
        · intro c hc
          exact Nat.lt_trans (hlast_past c hc) (hw.past a ha _ rfl)
      · intro j p hp a ha
        match j with
        | 0 => cases hp; exact (mem_beyond.1 (hmem a ha)).1
        | j + 1 =>
          rw [show i + (j + 1) = i + 1 + j by omega]
          exact hw.read j p (by simpa using hp) a ha
      · intro a ha hkept
        rw [List.flatten_cons, List.mem_append]
        have hhere : a ∈ beyond key rank cursor (tables i) := mem_beyond.2 ⟨hkept 0 (by simp), ha⟩
        rw [hsplit] at hhere
        by_cases hshown : a ∈ front ++ [last]
        · exact .inl hshown
        · -- the row comes after the page, so after its cursor
          have hrest : a ∈ next :: rest := by
            simp only [List.mem_append, List.mem_cons, List.not_mem_nil, or_false] at hhere hshown ⊢
            tauto
          have hpast : rank (key last) < rank (key a) :=
            (List.pairwise_cons.1 (List.pairwise_append.1 hsorted).2.1).1 a hrest
          refine .inr (hw.kept a (fun c hc => by cases hc; exact hpast) fun j hj => ?_)
          have := hkept (j + 1) (by simpa using hj)
          rwa [show i + (j + 1) = i + 1 + j by omega] at this
      · intro p hp
        rw [List.dropLast_cons_of_ne_nil hne, List.mem_cons] at hp
        rcases hp with rfl | hp
        · simpa using hfront
        · exact hw.full p hp
      · intro p hp
        rcases List.mem_cons.1 hp with rfl | hp
        · simp [hfront]
        · exact hw.short p hp

end Pages
end GitLfsDelta
