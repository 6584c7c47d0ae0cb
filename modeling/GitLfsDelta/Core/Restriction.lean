import GitLfsDelta.Core.Table

/-!
# The rows of a table that concern someone

`keep p` is a table without the rows outside `p`. A query that looks at rows of `p` only finds
the same in both, an update or a deletion commutes with `keep`, an insertion does if the row
is one of `p` and its key is not taken outside, and does not show if the row is outside.

So a program that touches a part of a table can be run on that part alone, and a program that
touches the rest leaves the part as it is.
-/
namespace GitLfsDelta
namespace Table

variable {ρ κ : Type} {key : ρ → κ} {p q : ρ → Bool} {t : Table key}

theorem ext {t t' : Table key} (h : t.rows = t'.rows) : t = t' := by
  cases t; cases t'; cases h; rfl

def keep (p : ρ → Bool) (t : Table key) : Table key := ⟨t.rows.filter p, nodup_filter t p⟩

theorem rows_keep : (t.keep p).rows = t.rows.filter p := rfl

@[simp] theorem mem_keep {a : ρ} : a ∈ t.keep p ↔ a ∈ t ∧ p a = true := by
  simp [← mem_rows, keep]

@[simp] theorem keep_empty : (empty : Table key).keep p = empty := rfl

/-- Predicates that agree on the rows keep the same. -/
theorem keep_congr {p' : ρ → Bool} (h : ∀ x ∈ t, p x = p' x) : t.keep p = t.keep p' :=
  ext (List.filter_congr h)

/-! ## Queries -/

theorem filter_keep (h : ∀ x ∈ t, q x = true → p x = true) :
    (t.keep p).rows.filter q = t.rows.filter q := by
  rw [rows_keep, List.filter_filter]
  apply List.filter_congr
  intro x hx
  cases hq : q x with
  | false => rfl
  | true => rw [h x hx hq]; rfl

theorem find?_keep (h : ∀ x ∈ t, q x = true → p x = true) : (t.keep p).find? q = t.find? q := by
  unfold find?
  rw [← List.head?_filter, ← List.head?_filter, filter_keep h]

variable [DecidableEq κ]

theorem get?_keep {k : κ} (h : ∀ x ∈ t, key x = k → p x = true) : (t.keep p).get? k = t.get? k := by
  apply find?_keep
  intro x hx hk
  exact h x hx (by simpa using hk)

/-! ## Statements -/

theorem keep_insert {row : ρ} (hp : p row = true) (h : ∀ x ∈ t, key x = key row → p x = true) :
    (t.insert row).keep p = (t.keep p).insert row := by
  cases hget : t.get? (key row) with
  | some a => rw [insert_of_some hget, insert_of_some ((get?_keep h).trans hget)]
  | none =>
    apply ext
    rw [rows_insert_of_none ((get?_keep h).trans hget), rows_keep, rows_insert_of_none hget,
      List.filter_append, rows_keep]
    simp [hp]

theorem keep_insert_other {row : ρ} (hp : p row = false) : (t.insert row).keep p = t.keep p := by
  cases hget : t.get? (key row) with
  | some a => rw [insert_of_some hget]
  | none =>
    apply ext
    rw [rows_keep, rows_insert_of_none hget, List.filter_append, rows_keep]
    simp [hp]

omit [DecidableEq κ]

theorem keep_deleteWhere {q' : ρ → Bool} (h : ∀ x ∈ t, p x = true → q x = q' x) :
    (t.deleteWhere q).keep p = (t.keep p).deleteWhere q' := by
  apply ext
  simp only [rows_keep, deleteWhere, List.filter_filter]
  apply List.filter_congr
  intro x hx
  cases hp : p x with
  | false => simp
  | true => rw [h x hx hp]; simp

theorem keep_updateWhere {f : ρ → ρ} (hf : ∀ r, key (f r) = key r) (hpf : ∀ x, p (f x) = p x) :
    (t.updateWhere q f hf).keep p = (t.keep p).updateWhere q f hf := by
  apply ext
  simp only [rows_keep, updateWhere, List.filter_map]
  congr 1
  apply List.filter_congr
  intro x _
  simp only [Function.comp]
  split
  · exact hpf x
  · rfl

/-- An update of rows outside does not show. -/
theorem keep_updateWhere_other {f : ρ → ρ} (hf : ∀ r, key (f r) = key r) (hpf : ∀ x, p (f x) = p x)
    (h : ∀ x ∈ t, p x = true → q x = false) : (t.updateWhere q f hf).keep p = t.keep p := by
  rw [keep_updateWhere hf hpf]
  apply ext
  simp only [updateWhere]
  refine (List.map_congr_left ?_).trans (List.map_id _)
  intro x hx
  obtain ⟨hx, hp⟩ := mem_keep.1 hx
  rw [h x hx hp]
  rfl

/-- A deletion of rows outside does not show. -/
theorem keep_deleteWhere_other (h : ∀ x ∈ t, p x = true → q x = false) :
    (t.deleteWhere q).keep p = t.keep p := by
  rw [keep_deleteWhere h]
  apply ext
  exact List.filter_eq_self.2 fun x _ => rfl

/-- What a deletion removes can be counted on the rows it looks at. -/
theorem length_deleteWhere_keep (h : ∀ x ∈ t, q x = true → p x = true) :
    (t.keep p).rows.length - ((t.keep p).deleteWhere q).rows.length =
      t.rows.length - (t.deleteWhere q).rows.length := by
  have hcount : ∀ l : List ρ, l.length - (l.filter fun r => !q r).length = (l.filter q).length := by
    intro l
    have := List.length_eq_length_filter_add (l := l) q
    omega
  have hkeep := hcount (t.keep p).rows
  rw [filter_keep h] at hkeep
  exact hkeep.trans (hcount t.rows).symm

end Table
end GitLfsDelta
