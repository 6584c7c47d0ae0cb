import GitLfsDelta.Core.Paging
import GitLfsDelta.L3Server.Locks

/-!
# Listing locks page by page

`load_locks_page` is keyset pagination over `lfs_locks` by id (`loadLocksPage_eq`), so a client that
follows `next_cursor` sees what `Core.Paging` says of it. The table is another one at
every request, as other clients create and remove locks.

* `lock_pages`: the pages of `list_locks`, and of `verify_locks` by owner, for every limit and
  filter; over a table that stays the same, and over one that changes.
-/
namespace GitLfsDelta

/-- The row is one the query asks for, wherever the cursor stands. -/
def LockListQuery.Matches (q : LockListQuery) (r : Uuid) (l : LockRow) : Prop :=
  l.repositoryId = r ∧ (∀ path, q.path = some path → l.path = path) ∧ ∀ id, q.id = some id → l.id = id

/-- The rows a query asks for, before the cursor. -/
def LockListQuery.rows (q : LockListQuery) (r : Uuid) (t : LockTable) : List LockRow :=
  t.rows.filter fun l => { q with cursor := none }.selects r l

theorem LockListQuery.mem_rows {q : LockListQuery} {r : Uuid} {t : LockTable} {l : LockRow} :
    l ∈ q.rows r t ↔ l ∈ t ∧ q.Matches r l := by
  rw [rows, List.mem_filter, Table.mem_rows]
  cases hpath : q.path <;> cases hid : q.id <;> simp [selects, Matches, hpath, hid, and_assoc]

/-- The ids of the rows are distinct. -/
theorem LockListQuery.rows_nodup (q : LockListQuery) (r : Uuid) (t : LockTable) :
    ((q.rows r t).map fun l => l.id.toNat).Nodup := by
  have hids : ((q.rows r t).map LockRow.id).Nodup := t.nodup.sublist (List.filter_sublist.map _)
  rw [show (fun l : LockRow => l.id.toNat) = BitVec.toNat ∘ LockRow.id from rfl, ← List.map_map]
  exact hids.map fun _ _ h => BitVec.eq_of_toNat_eq h

theorem pageLimit_pos (requested : Option Nat) : 0 < pageLimit requested := by
  unfold pageLimit
  omega

/-- The query pages by id. -/
theorem loadLocksPage_eq (t : LockTable) (r : Uuid) (q : LockListQuery) (cursor : Option Uuid) :
    loadLocksPage t r { q with cursor := cursor } =
      ((page LockRow.id BitVec.toNat (pageLimit q.limit) (q.rows r t) cursor).1.map LockRow.lock,
        (page LockRow.id BitVec.toNat (pageLimit q.limit) (q.rows r t) cursor).2) := by
  have hrows : t.rows.filter (fun l => { q with cursor := cursor }.selects r l) =
      (q.rows r t).filter fun l => cursor.all fun c => c.toNat < l.id.toNat := by
    rw [LockListQuery.rows, List.filter_filter]
    apply List.filter_congr
    intro l _
    simp [LockListQuery.selects, Bool.and_comm]
  simp only [loadLocksPage, page, beyond, hrows, List.length_map, ← List.map_take, List.getLast?_map,
    Option.map_map]
  rfl

/-! ## The clients -/

/-- `n` requests of `GET /locks`, the `i`-th of them on the table `tables i`. -/
def listPages (tables : Nat → LockTable) (r : Uuid) (q : LockListQuery) (n : Nat) :
    Option (List (List Lock)) :=
  follow (fun i cursor => loadLocksPage (tables i) r { q with cursor := cursor }) n 0 none

/-- `n` requests of `POST /locks/verify`: what is ours and what is theirs, page by page. -/
def verifyPages (tables : Nat → LockTable) (r : Uuid) (identity : Identity) (limit : Option Nat)
    (n : Nat) : Option (List (List Lock × List Lock)) :=
  follow (fun i cursor =>
    let (ours, theirs, next) := verifyLocks (tables i) r identity cursor limit
    ((ours, theirs), next)) n 0 none

/-- The pages of rows behind both. -/
def rowPages (tables : Nat → LockTable) (r : Uuid) (q : LockListQuery) (n : Nat) :
    Option (List (List LockRow)) :=
  follow (fun i cursor =>
    page LockRow.id BitVec.toNat (pageLimit q.limit) (q.rows r (tables i)) cursor) n 0 none

variable {tables : Nat → LockTable} {r : Uuid} {q : LockListQuery}

theorem listPages_eq (n : Nat) :
    listPages tables r q n = (rowPages tables r q n).map (List.map (List.map LockRow.lock)) := by
  unfold listPages rowPages
  rw [← follow_map]
  simp only [loadLocksPage_eq]

/-- A page of locks, ours and theirs. -/
def byOwner (identity : Identity) (locks : List Lock) : List Lock × List Lock :=
  (locks.filter fun l => l.owner = identity.subject, locks.filter fun l => l.owner ≠ identity.subject)

theorem verifyPages_eq (identity : Identity) (limit : Option Nat) (n : Nat) :
    verifyPages tables r identity limit n =
      (listPages tables r ⟨none, none, none, limit⟩ n).map (List.map (byOwner identity)) := by
  unfold verifyPages listPages
  rw [← follow_map]
  congr 1
  funext i cursor
  simp [verifyLocks, byOwner, List.partition_eq_filter_filter, Function.comp_def]

/-- The client comes to an end: ids are bounded, and each cursor is greater than the last. -/
theorem rowPages_terminates (tables : Nat → LockTable) (r : Uuid) (q : LockListQuery) :
    ∃ n pages, rowPages tables r q n = some pages ∧
      Walk LockRow.id BitVec.toNat (pageLimit q.limit) (fun i => q.rows r (tables i)) 0 none pages := by
  obtain ⟨n, pages, hn⟩ := follow_terminates (fun i cursor =>
      page LockRow.id BitVec.toNat (pageLimit q.limit) (q.rows r (tables i)) cursor)
    (fun c : Uuid => c.isLt) (by
      intro i cursor p next hpage c hc
      rcases page_cases LockRow.id BitVec.toNat (q.rows r (tables i)) cursor
        (pageLimit_pos q.limit) with ⟨hlast, -⟩ | ⟨front, last, _, _, hsplit, -, hfull⟩
      · rw [hlast] at hpage
        cases hpage
      · rw [hfull] at hpage
        cases hpage
        have hmem : last ∈ beyond LockRow.id BitVec.toNat cursor (q.rows r (tables i)) := by
          rw [hsplit]
          simp
        exact (mem_beyond.1 hmem).2 c hc) 0 none
  exact ⟨n, pages, hn, (follow_walk (pageLimit_pos q.limit) (fun i => q.rows_nodup r (tables i)) n hn).2⟩

/-! ## What the clients have seen -/

/-- Strictly in the order of the ids. -/
def ById (locks : List Lock) : Prop := locks.Pairwise fun a b => a.id.toNat < b.id.toNat

theorem ById.nodup {locks : List Lock} (h : ById locks) : locks.Nodup := by
  refine h.imp fun hlt heq => ?_
  rw [heq] at hlt
  exact Nat.lt_irrefl _ hlt

/-- The locks a query asks for, by id. -/
def LockListQuery.locks (q : LockListQuery) (r : Uuid) (t : LockTable) : List Lock :=
  ((q.rows r t).insertionSort fun a b => a.id.toNat ≤ b.id.toNat).map LockRow.lock

theorem LockListQuery.locks_eq (q : LockListQuery) (r : Uuid) (t : LockTable) :
    q.locks r t = (beyond LockRow.id BitVec.toNat none (q.rows r t)).map LockRow.lock := by
  simp [locks, beyond]

theorem LockListQuery.mem_locks {t : LockTable} {lock : Lock} :
    lock ∈ q.locks r t ↔ ∃ l ∈ t, q.Matches r l ∧ l.lock = lock := by
  simp only [locks, List.mem_map, (List.perm_insertionSort _ _).mem_iff, mem_rows, and_assoc]

/-- What is returned over a table that other clients change. -/
structure Seen (tables : Nat → LockTable) (r : Uuid) (q : LockListQuery) (pages : List (List Lock)) :
    Prop where
  byId : ById pages.flatten
  once : ∀ l, q.Matches r l → (∀ i < pages.length, l ∈ tables i) → pages.flatten.count l.lock = 1
  read : ∀ i p, pages[i]? = some p → ∀ lock ∈ p, ∃ l ∈ tables i, q.Matches r l ∧ l.lock = lock
  full : ∀ p ∈ pages.dropLast, p.length = pageLimit q.limit
  short : ∀ p ∈ pages, p.length ≤ pageLimit q.limit

theorem Seen.of_walk {pages : List (List LockRow)}
    (h : Walk LockRow.id BitVec.toNat (pageLimit q.limit) (fun i => q.rows r (tables i)) 0 none pages) :
    Seen tables r q (pages.map (List.map LockRow.lock)) := by
  have hflat : (pages.map (List.map LockRow.lock)).flatten = pages.flatten.map LockRow.lock :=
    List.map_flatten.symm
  have hbyId : ById (pages.flatten.map LockRow.lock) := List.pairwise_map.2 h.inOrder
  refine ⟨hflat ▸ hbyId, fun l hl hkept => ?_, fun i p hp lock hlock => ?_, fun p hp => ?_, fun p hp => ?_⟩
  · rw [hflat]
    apply List.count_eq_one_of_mem hbyId.nodup
    apply List.mem_map_of_mem
    apply h.kept l (fun c hc => by cases hc)
    intro i hi
    rw [Nat.zero_add]
    exact LockListQuery.mem_rows.2 ⟨hkept i (by simpa using hi), hl⟩
  · rw [List.getElem?_map, Option.map_eq_some_iff] at hp
    obtain ⟨rows, hrows, rfl⟩ := hp
    obtain ⟨l, hl, rfl⟩ := List.mem_map.1 hlock
    have hread := h.read i rows hrows l hl
    rw [Nat.zero_add] at hread
    obtain ⟨ht, hm⟩ := LockListQuery.mem_rows.1 hread
    exact ⟨l, ht, hm, rfl⟩
  · rw [← List.map_dropLast] at hp
    obtain ⟨rows, hrows, rfl⟩ := List.mem_map.1 hp
    rw [List.length_map]
    exact h.full rows hrows
  · obtain ⟨rows, hrows, rfl⟩ := List.mem_map.1 hp
    rw [List.length_map]
    exact h.short rows hrows

theorem listPages_seen (tables : Nat → LockTable) (r : Uuid) (q : LockListQuery) :
    ∃ n pages, listPages tables r q n = some pages ∧ Seen tables r q pages := by
  obtain ⟨n, pages, hn, hw⟩ := rowPages_terminates tables r q
  exact ⟨n, _, by rw [listPages_eq, hn]; rfl, .of_walk hw⟩

/-- A table that stays the same is listed lock by lock. -/
theorem Seen.fixed {t : LockTable} {pages : List (List Lock)} (h : Seen (fun _ => t) r q pages) :
    pages.flatten = q.locks r t := by
  have hlocks : ById (q.locks r t) := by
    rw [q.locks_eq]
    exact List.pairwise_map.2 (inOrder_beyond none (q.rows_nodup r t))
  have hbyId : InOrder Lock.id BitVec.toNat pages.flatten := h.byId
  refine hbyId.eq hlocks fun lock => ?_
  rw [LockListQuery.mem_locks]
  constructor
  · intro hlock
    obtain ⟨p, hp, hlp⟩ := List.mem_flatten.1 hlock
    obtain ⟨i, hi⟩ := List.getElem?_of_mem hp
    exact h.read i p hi lock hlp
  · intro hlock
    obtain ⟨l, hl, hm, rfl⟩ := hlock
    exact List.count_pos_iff.1 (by rw [h.once l hm fun _ _ => hl]; decide)

/-- The pages of `verify_locks` are those of `list_locks`, split by owner. -/
theorem verifyPages_seen (tables : Nat → LockTable) (r : Uuid) (identity : Identity)
    (limit : Option Nat) : ∃ n pages, verifyPages tables r identity limit n =
      some (pages.map (byOwner identity)) ∧ Seen tables r ⟨none, none, none, limit⟩ pages := by
  obtain ⟨n, pages, hn, hseen⟩ := listPages_seen tables r ⟨none, none, none, limit⟩
  exact ⟨n, pages, by rw [verifyPages_eq, hn]; rfl, hseen⟩

/-- **Every lock is listed exactly once**, for every filter and requested limit. A client that
follows `next_cursor` comes to an end; over a table that stays the same its pages are the
matching locks by id, all but the last of the clamped limit; over a table that changes,
ids still increase, and a matching lock that was there all along is returned once. The
pages of `verify_locks` hold the repository's locks split by owner. -/
theorem lock_pages (r : Uuid) (q : LockListQuery) (identity : Identity) :
    (∀ t, ∃ n pages, listPages (fun _ => t) r q n = some pages ∧ pages.flatten = q.locks r t ∧
      ById (q.locks r t) ∧ (∀ lock, lock ∈ q.locks r t ↔ ∃ l ∈ t, q.Matches r l ∧ l.lock = lock) ∧
      (∀ p ∈ pages.dropLast, p.length = pageLimit q.limit) ∧ ∀ p ∈ pages, p.length ≤ pageLimit q.limit) ∧
    (∀ tables, ∃ n pages, listPages tables r q n = some pages ∧ Seen tables r q pages) ∧
    (∀ t, ∃ n pages, verifyPages (fun _ => t) r identity q.limit n = some pages ∧
      (∀ lock, (lock ∈ (pages.map (·.1)).flatten ∨ lock ∈ (pages.map (·.2)).flatten) ↔
        ∃ l ∈ t, l.repositoryId = r ∧ l.lock = lock) ∧
      (∀ lock ∈ (pages.map (·.1)).flatten, lock.owner = identity.subject) ∧
      (∀ lock ∈ (pages.map (·.2)).flatten, lock.owner ≠ identity.subject) ∧
      ById (pages.map (·.1)).flatten ∧ ById (pages.map (·.2)).flatten) ∧
    ∀ tables, ∃ n pages, verifyPages tables r identity q.limit n = some pages ∧
      ∀ l : LockRow, l.repositoryId = r → (∀ i < pages.length, l ∈ tables i) →
        (pages.map (·.1)).flatten.count l.lock = (if l.ownerSubject = identity.subject then 1 else 0) ∧
        (pages.map (·.2)).flatten.count l.lock = (if l.ownerSubject = identity.subject then 0 else 1) := by
  have hours : ∀ pages : List (List Lock), ((pages.map (byOwner identity)).map (·.1)).flatten =
      pages.flatten.filter fun l => l.owner = identity.subject := by
    intro pages
    rw [List.filter_flatten, List.map_map]
    rfl
  have htheirs : ∀ pages : List (List Lock), ((pages.map (byOwner identity)).map (·.2)).flatten =
      pages.flatten.filter fun l => l.owner ≠ identity.subject := by
    intro pages
    rw [List.filter_flatten, List.map_map]
    rfl
  have hmatches : ∀ l : LockRow, LockListQuery.Matches ⟨none, none, none, q.limit⟩ r l ↔
      l.repositoryId = r := by
    intro l
    simp [LockListQuery.Matches]
  refine ⟨fun t => ?_, fun tables => listPages_seen tables r q, fun t => ?_, fun tables => ?_⟩
  · obtain ⟨n, pages, hn, hseen⟩ := listPages_seen (fun _ => t) r q
    exact ⟨n, pages, hn, hseen.fixed, hseen.fixed ▸ hseen.byId, fun _ => LockListQuery.mem_locks,
      hseen.full, hseen.short⟩
  · obtain ⟨n, pages, hn, hseen⟩ := verifyPages_seen (fun _ => t) r identity q.limit
    refine ⟨n, _, hn, fun lock => ?_, fun lock hlock => ?_, fun lock hlock => ?_, ?_, ?_⟩
    · rw [hours, htheirs, hseen.fixed, List.mem_filter, List.mem_filter, ← and_or_left,
        LockListQuery.mem_locks]
      simp only [hmatches, decide_eq_true_eq, em, and_true]
    · rw [hours] at hlock
      simpa using (List.mem_filter.1 hlock).2
    · rw [htheirs] at hlock
      simpa using (List.mem_filter.1 hlock).2
    · rw [hours]
      exact hseen.byId.sublist List.filter_sublist
    · rw [htheirs]
      exact hseen.byId.sublist List.filter_sublist
  · obtain ⟨n, pages, hn, hseen⟩ := verifyPages_seen tables r identity q.limit
    refine ⟨n, _, hn, fun l hl hkept => ?_⟩
    have honce := hseen.once l ((hmatches l).2 hl) (by simpa using hkept)
    rw [hours, htheirs]
    by_cases howner : l.lock.owner = identity.subject
    · have hsubject : l.ownerSubject = identity.subject := howner
      have hcount := List.count_filter (l := pages.flatten) (a := l.lock)
        (p := fun l : Lock => l.owner = identity.subject) (decide_eq_true howner)
      rw [if_pos hsubject, if_pos hsubject, hcount]
      refine ⟨honce, List.count_eq_zero.2 fun hmem => ?_⟩
      exact absurd howner (by simpa using (List.mem_filter.1 hmem).2)
    · have hsubject : l.ownerSubject ≠ identity.subject := howner
      have hcount := List.count_filter (l := pages.flatten) (a := l.lock)
        (p := fun l : Lock => l.owner ≠ identity.subject) (decide_eq_true howner)
      rw [if_neg hsubject, if_neg hsubject, hcount]
      refine ⟨List.count_eq_zero.2 fun hmem => ?_, honce⟩
      exact absurd (by simpa using (List.mem_filter.1 hmem).2) howner

end GitLfsDelta
