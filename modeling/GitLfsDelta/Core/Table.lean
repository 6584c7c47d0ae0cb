import Mathlib.Data.List.Nodup
import Mathlib.Data.List.Sort
import Mathlib.Algebra.BigOperators.Group.List.Basic

/-!
# Relational tables

A table is a finite list of rows together with a proof that no two rows share a
key, so that a primary key cannot be violated. The operations are the SQL
statements a program uses on one table: keyed lookup, `INSERT ... ON CONFLICT DO
NOTHING` (`insert`), `DELETE ... WHERE` (`deleteWhere`) and `UPDATE ... SET ...
WHERE` (`updateWhere`, for assignments that leave the key alone).

Everything is stated through membership: `mem_insert`, `mem_deleteWhere` and
`mem_updateWhere` say which rows a table holds afterwards, and `eq_of_key` says a
key determines its row; `HasKey` and its lemmas say which keys are there. `newest` is `ORDER BY ... DESC LIMIT n`.
-/
namespace GitLfsDelta

structure Table {ρ κ : Type} (key : ρ → κ) where
  rows : List ρ
  nodup : (rows.map key).Nodup

namespace Table

variable {ρ κ : Type} {key : ρ → κ}

instance : Membership ρ (Table key) := ⟨fun t r => r ∈ t.rows⟩

theorem mem_rows {t : Table key} {r : ρ} : r ∈ t.rows ↔ r ∈ t := Iff.rfl

def empty : Table key := ⟨[], List.nodup_nil⟩

@[simp] theorem not_mem_empty (r : ρ) : r ∉ (empty : Table key) := by
  intro h; cases h

theorem rows_nodup (t : Table key) : t.rows.Nodup := List.Nodup.of_map key t.nodup

/-- A key determines its row. -/
theorem eq_of_key {t : Table key} {a b : ρ} (ha : a ∈ t) (hb : b ∈ t) (h : key a = key b) : a = b :=
  List.inj_on_of_nodup_map t.nodup ha hb h

instance (t : Table key) (p : ρ → Prop) [DecidablePred p] : Decidable (∀ r ∈ t, p r) :=
  inferInstanceAs (Decidable (∀ r ∈ t.rows, p r))

instance (t : Table key) (p : ρ → Prop) [DecidablePred p] : Decidable (∃ r ∈ t, p r) :=
  inferInstanceAs (Decidable (∃ r ∈ t.rows, p r))

instance [DecidableEq ρ] (t : Table key) (r : ρ) : Decidable (r ∈ t) :=
  inferInstanceAs (Decidable (r ∈ t.rows))

/-! ## Lookup -/

/-- `SELECT ... WHERE p`, the first row found. -/
def find? (t : Table key) (p : ρ → Bool) : Option ρ := t.rows.find? p

theorem mem_of_find? {t : Table key} {p : ρ → Bool} {r : ρ} (h : t.find? p = some r) :
    r ∈ t ∧ p r = true :=
  ⟨List.mem_of_find?_eq_some h, List.find?_some h⟩

theorem find?_none {t : Table key} {p : ρ → Bool} : t.find? p = none ↔ ∀ r ∈ t, p r = false := by
  simp [find?, mem_rows]

/-- A query that pins the key finds the row with it. -/
theorem find?_of_key {t : Table key} {p : ρ → Bool} {r : ρ} (hr : r ∈ t) (hp : p r = true)
    (hkey : ∀ r', p r' = true → key r' = key r) : t.find? p = some r := by
  cases h : t.find? p with
  | none => rw [find?_none.1 h r hr] at hp; cases hp
  | some r' =>
    obtain ⟨hm, hp'⟩ := mem_of_find? h
    rw [eq_of_key hm hr (hkey r' hp')]

variable [DecidableEq κ]

/-- `SELECT ... WHERE key = k`. -/
def get? (t : Table key) (k : κ) : Option ρ := t.find? fun r => key r = k

theorem get?_some {t : Table key} {k : κ} {r : ρ} : t.get? k = some r ↔ r ∈ t ∧ key r = k := by
  constructor
  · intro h
    obtain ⟨hm, hk⟩ := mem_of_find? h
    exact ⟨hm, by simpa using hk⟩
  · intro hs
    obtain ⟨hm, rfl⟩ := hs
    cases h : t.get? (key r) with
    | none =>
      have := find?_none.1 h r hm
      simp at this
    | some r' =>
      obtain ⟨hm', hk'⟩ := mem_of_find? h
      rw [eq_of_key hm' hm (by simpa using hk')]

theorem get?_none {t : Table key} {k : κ} : t.get? k = none ↔ ∀ r ∈ t, key r ≠ k := by
  simp [get?, find?_none]

/-- Lookups agree where the tables hold the same rows. -/
theorem get?_congr {t t' : Table key} {k : κ} (h : ∀ r, key r = k → (r ∈ t ↔ r ∈ t')) :
    t.get? k = t'.get? k := by
  cases hg : t'.get? k with
  | none => exact get?_none.2 fun r hr hk => get?_none.1 hg r ((h r hk).1 hr) hk
  | some r =>
    obtain ⟨hr, hk⟩ := get?_some.1 hg
    exact get?_some.2 ⟨(h r hk).2 hr, hk⟩

/-! ## `INSERT ... ON CONFLICT DO NOTHING` -/

def insert (t : Table key) (r : ρ) : Table key :=
  if h : t.get? (key r) = none then
    ⟨t.rows ++ [r], by
      rw [List.map_append, List.nodup_append]
      refine ⟨t.nodup, by simp, ?_⟩
      intro a ha b hb
      obtain ⟨x, hx, rfl⟩ := List.mem_map.1 ha
      simp only [List.map_cons, List.map_nil, List.mem_singleton] at hb
      rw [hb]; exact get?_none.1 h x hx⟩
  else t

theorem mem_insert {t : Table key} {r a : ρ} :
    a ∈ t.insert r ↔ a ∈ t ∨ (a = r ∧ t.get? (key r) = none) := by
  unfold insert
  split
  · rename_i h
    rw [← mem_rows, List.mem_append, List.mem_singleton, mem_rows]
    simp [h]
  · rename_i h
    simp [h]

theorem mem_insert_of_mem {t : Table key} {r a : ρ} (h : a ∈ t) : a ∈ t.insert r :=
  mem_insert.2 (.inl h)

/-- After the insert some row has the key. -/
theorem exists_mem_insert (t : Table key) (r : ρ) : ∃ a ∈ t.insert r, key a = key r := by
  cases h : t.get? (key r) with
  | none => exact ⟨r, mem_insert.2 (.inr ⟨rfl, h⟩), rfl⟩
  | some a =>
    obtain ⟨hm, hk⟩ := get?_some.1 h
    exact ⟨a, mem_insert_of_mem hm, hk⟩

theorem rows_insert_of_none {t : Table key} {r : ρ} (h : t.get? (key r) = none) :
    (t.insert r).rows = t.rows ++ [r] := by
  unfold insert; rw [dif_pos h]

theorem insert_of_some {t : Table key} {r a : ρ} (h : t.get? (key r) = some a) : t.insert r = t := by
  unfold insert; rw [dif_neg (by rw [h]; simp)]

theorem get?_insert_of_ne {t : Table key} {r : ρ} {k : κ} (h : key r ≠ k) :
    (t.insert r).get? k = t.get? k := by
  cases hget : t.get? (key r) with
  | some a => rw [insert_of_some hget]
  | none =>
    unfold get? find?
    rw [rows_insert_of_none hget, List.find?_append]
    simp [h]

theorem get?_insert {t : Table key} {r : ρ} {k : κ} :
    (t.insert r).get? k = (t.get? k).or (if key r = k then some r else none) := by
  by_cases hk : key r = k
  · subst hk
    rw [if_pos rfl]
    cases hget : t.get? (key r) with
    | some a => rw [insert_of_some hget, hget, Option.some_or]
    | none => exact get?_some.2 ⟨mem_insert.2 (.inr ⟨rfl, hget⟩), rfl⟩
  · rw [get?_insert_of_ne hk, if_neg hk, Option.or_none]

/-! ## `DELETE ... WHERE` -/

omit [DecidableEq κ] in
theorem nodup_filter (t : Table key) (p : ρ → Bool) : ((t.rows.filter p).map key).Nodup :=
  (List.filter_sublist.map key).nodup t.nodup

def deleteWhere (t : Table key) (p : ρ → Bool) : Table key :=
  ⟨t.rows.filter fun r => !p r, nodup_filter t _⟩

omit [DecidableEq κ] in
@[simp] theorem mem_deleteWhere {t : Table key} {p : ρ → Bool} {a : ρ} :
    a ∈ t.deleteWhere p ↔ a ∈ t ∧ p a = false := by
  simp [← mem_rows, deleteWhere]

omit [DecidableEq κ] in
theorem deleteWhere_deleteWhere {t : Table key} {p q s : ρ → Bool} (h : ∀ r ∈ t, s r = (p r || q r)) :
    (t.deleteWhere p).deleteWhere q = t.deleteWhere s := by
  simp only [deleteWhere, Table.mk.injEq, List.filter_filter]
  apply List.filter_congr
  intro r hr
  rw [h r hr, Bool.not_or, Bool.and_comm]

omit [DecidableEq κ] in
theorem deleteWhere_of_none {t : Table key} {p : ρ → Bool} (h : ∀ r ∈ t, p r = false) :
    t.deleteWhere p = t := by
  obtain ⟨rows, hnd⟩ := t
  simp only [deleteWhere, Table.mk.injEq, List.filter_eq_self]
  intro r hr
  rw [h r hr]
  rfl

/-! ## `UPDATE ... SET ... WHERE` -/

def updateWhere (t : Table key) (p : ρ → Bool) (f : ρ → ρ) (hf : ∀ r, key (f r) = key r) :
    Table key :=
  ⟨t.rows.map fun r => if p r then f r else r, by
    rw [List.map_map]
    have : (key ∘ fun r => if p r then f r else r) = key := by
      funext r; simp only [Function.comp]; split
      · exact hf r
      · rfl
    rw [this]; exact t.nodup⟩

omit [DecidableEq κ] in
theorem mem_updateWhere {t : Table key} {p : ρ → Bool} {f : ρ → ρ} (hf : ∀ r, key (f r) = key r)
    {a : ρ} : a ∈ t.updateWhere p f hf ↔ (a ∈ t ∧ p a = false) ∨ ∃ b ∈ t, p b = true ∧ a = f b := by
  simp only [← mem_rows, updateWhere, List.mem_map]
  constructor
  · intro h
    obtain ⟨b, hb, rfl⟩ := h
    by_cases hp : p b = true
    · exact .inr ⟨b, hb, hp, by simp [hp]⟩
    · exact .inl ⟨by simpa [hp] using hb, by simp [hp]⟩
  · intro h
    rcases h with ⟨ha, hp⟩ | ⟨b, hb, hp, rfl⟩
    · exact ⟨a, ha, by simp [hp]⟩
    · exact ⟨b, hb, by simp [hp]⟩

omit [DecidableEq κ] in
/-- An update that selects no row changes nothing. -/
theorem updateWhere_of_none {t : Table key} {p : ρ → Bool} {f : ρ → ρ} (hf : ∀ r, key (f r) = key r)
    (h : ∀ r ∈ t, p r = false) : t.updateWhere p f hf = t := by
  obtain ⟨rows, hnd⟩ := t
  simp only [updateWhere, Table.mk.injEq]
  calc rows.map (fun r => if p r then f r else r) = rows.map id := by
        apply List.map_congr_left
        intro r hr
        rw [h r hr]; rfl
    _ = rows := List.map_id rows

omit [DecidableEq κ] in
/-- A row an update changes has the same key as the row it was. -/
theorem exists_of_mem_updateWhere {t : Table key} {p : ρ → Bool} {f : ρ → ρ}
    (hf : ∀ r, key (f r) = key r) {a : ρ} (h : a ∈ t.updateWhere p f hf) :
    ∃ b ∈ t, key a = key b ∧ (a = b ∨ p b = true ∧ a = f b) := by
  rcases (mem_updateWhere hf).1 h with ⟨ha, _⟩ | ⟨b, hb, hp, rfl⟩
  · exact ⟨a, ha, rfl, .inl rfl⟩
  · exact ⟨b, hb, hf b, .inr ⟨hp, rfl⟩⟩

theorem get?_updateWhere {t : Table key} {p : ρ → Bool} {f : ρ → ρ} (hf : ∀ r, key (f r) = key r) {k : κ} :
    (t.updateWhere p f hf).get? k = (t.get? k).map fun r => if p r then f r else r := by
  cases hget : t.get? k with
  | none =>
    refine get?_none.2 fun a ha hk => ?_
    obtain ⟨b, hb, hkey, -⟩ := exists_of_mem_updateWhere hf ha
    exact get?_none.1 hget b hb (hkey.symm.trans hk)
  | some b =>
    obtain ⟨hb, rfl⟩ := get?_some.1 hget
    rw [Option.map_some]
    by_cases hp : p b = true
    · rw [if_pos hp]
      exact get?_some.2 ⟨(mem_updateWhere hf).2 (.inr ⟨b, hb, hp, rfl⟩), hf b⟩
    · rw [if_neg hp]
      exact get?_some.2 ⟨(mem_updateWhere hf).2 (.inl ⟨hb, by simpa using hp⟩), rfl⟩

/-! ## Keys -/

/-- Some row has the key. -/
def HasKey (t : Table key) (k : κ) : Prop := ∃ r ∈ t, key r = k

theorem get?_ne_none {t : Table key} {k : κ} : t.get? k ≠ none ↔ t.HasKey k := by
  simp [get?_none, HasKey]

theorem hasKey_insert {t : Table key} {r : ρ} {k : κ} :
    (t.insert r).HasKey k ↔ t.HasKey k ∨ key r = k := by
  constructor
  · intro h
    obtain ⟨a, ha, rfl⟩ := h
    rcases mem_insert.1 ha with ha | ⟨rfl, -⟩
    · exact .inl ⟨a, ha, rfl⟩
    · exact .inr rfl
  · intro h
    rcases h with ⟨a, ha, rfl⟩ | rfl
    · exact ⟨a, mem_insert_of_mem ha, rfl⟩
    · exact exists_mem_insert t r

omit [DecidableEq κ] in
theorem hasKey_updateWhere {t : Table key} {p : ρ → Bool} {f : ρ → ρ} (hf : ∀ r, key (f r) = key r)
    {k : κ} : (t.updateWhere p f hf).HasKey k ↔ t.HasKey k := by
  constructor
  · intro h
    obtain ⟨a, ha, rfl⟩ := h
    obtain ⟨b, hb, hkey, -⟩ := exists_of_mem_updateWhere hf ha
    exact ⟨b, hb, hkey.symm⟩
  · intro h
    obtain ⟨a, ha, rfl⟩ := h
    by_cases hp : p a = true
    · exact ⟨f a, (mem_updateWhere hf).2 (.inr ⟨a, ha, hp, rfl⟩), hf a⟩
    · exact ⟨a, (mem_updateWhere hf).2 (.inl ⟨ha, by simpa using hp⟩), rfl⟩

omit [DecidableEq κ] in
theorem HasKey.of_deleteWhere {t : Table key} {p : ρ → Bool} {k : κ} (h : (t.deleteWhere p).HasKey k) :
    t.HasKey k := by
  obtain ⟨a, ha, hk⟩ := h
  exact ⟨a, (mem_deleteWhere.1 ha).1, hk⟩

omit [DecidableEq κ] in
theorem HasKey.deleteWhere {t : Table key} {p : ρ → Bool} {k : κ} (h : t.HasKey k)
    (hp : ∀ r, key r = k → p r = false) : (t.deleteWhere p).HasKey k := by
  obtain ⟨a, ha, hk⟩ := h
  exact ⟨a, mem_deleteWhere.2 ⟨ha, hp a hk⟩, hk⟩

end Table

/-! ## `ORDER BY rank DESC LIMIT n` -/

section Newest

variable {ρ τ : Type} [LinearOrder τ]

def newest (rank : ρ → τ) (n : Nat) (l : List ρ) : List ρ :=
  (l.insertionSort fun a b => rank b ≤ rank a).take n

variable {rank : ρ → τ} {n : Nat} {l : List ρ} {x : ρ}

theorem sorted_by_rank (rank : ρ → τ) (l : List ρ) :
    (l.insertionSort fun a b => rank b ≤ rank a).Pairwise fun a b => rank b ≤ rank a :=
  haveI : Std.Total fun a b : ρ => rank b ≤ rank a := ⟨fun a b => le_total (rank b) (rank a)⟩
  haveI : IsTrans ρ fun a b => rank b ≤ rank a := ⟨fun _ _ _ h₁ h₂ => le_trans h₂ h₁⟩
  List.pairwise_insertionSort _ l

theorem perm_by_rank (rank : ρ → τ) (l : List ρ) :
    (l.insertionSort fun a b => rank b ≤ rank a).Perm l := List.perm_insertionSort _ l

theorem mem_of_mem_newest (h : x ∈ newest rank n l) : x ∈ l :=
  (perm_by_rank rank l).mem_iff.1 (List.mem_of_mem_take h)

/-- With distinct ranks, a row is among the `n` newest iff fewer than `n` rows outrank it. -/
theorem mem_newest (hnd : (l.map rank).Nodup) :
    x ∈ newest rank n l ↔ x ∈ l ∧ l.countP (fun y => rank x < rank y) < n := by
  have hp := perm_by_rank rank l
  have hs := sorted_by_rank rank l
  have hnd' := (hp.map rank).nodup_iff.2 hnd
  unfold newest
  rw [← hp.mem_iff, ← hp.countP_eq]
  generalize l.insertionSort (fun a b => rank b ≤ rank a) = s at hs hnd'
  by_cases hx : x ∈ s
  · obtain ⟨pre, post, rfl⟩ := List.append_of_mem hx
    rw [List.pairwise_append, List.pairwise_cons] at hs
    rw [List.map_append, List.map_cons, List.nodup_append, List.nodup_cons] at hnd'
    -- everything before `x` outranks it, nothing after it does
    have hpre : ∀ y ∈ pre, rank x < rank y := fun y hy =>
      lt_of_le_of_ne (hs.2.2 y hy x (by simp)) fun e =>
        hnd'.2.2 _ (List.mem_map_of_mem hy) _ List.mem_cons_self e.symm
    have hpost : ∀ y ∈ post, ¬ rank x < rank y := fun y hy => not_lt.2 (hs.2.1.1 y hy)
    have hcount : (pre ++ x :: post).countP (fun y => rank x < rank y) = pre.length := by
      rw [List.countP_append, List.countP_cons,
        List.countP_eq_length.2 (by simpa using hpre), List.countP_eq_zero.2 (by simpa using hpost)]
      simp
    rw [hcount]
    refine ⟨fun h => ⟨hx, ?_⟩, fun ⟨_, h⟩ => ?_⟩
    · by_contra hn
      rw [List.take_append_of_le_length (by omega)] at h
      exact absurd (hpre x (List.mem_of_mem_take h)) (lt_irrefl _)
    · rw [List.take_append, show n - pre.length = n - pre.length - 1 + 1 by omega]
      simp
  · exact ⟨fun h => absurd (List.mem_of_mem_take h) hx, fun h => absurd h.1 hx⟩

theorem length_newest : (newest rank n l).length = min n l.length := by
  unfold newest; rw [List.length_take, (perm_by_rank rank l).length_eq]

theorem two_le_length {α : Type} {l : List α} {a b : α} (ha : a ∈ l) (hb : b ∈ l) (hne : a ≠ b) :
    2 ≤ l.length := by
  match l with
  | [] => cases ha
  | [x] =>
    rw [List.mem_singleton] at ha hb
    exact absurd (ha.trans hb.symm) hne
  | _ :: _ :: _ => simp

theorem exists_pair_of_two_le {α : Type} {l : List α} (hnd : l.Nodup) (h : 2 ≤ l.length) :
    ∃ a ∈ l, ∃ b ∈ l, a ≠ b := by
  match l with
  | [] => simp at h
  | [_] => simp at h
  | a :: b :: _ =>
    refine ⟨a, by simp, b, by simp, ?_⟩
    rintro rfl
    simp at hnd

end Newest
end GitLfsDelta
