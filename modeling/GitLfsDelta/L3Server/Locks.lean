import GitLfsDelta.L3Server.Authentication

/-!
# File locks (`git-lfs-delta-server/src/lib.rs`)

The queries of `create_lock`, `unlock`, `list_locks` and `verify_locks` on `lfs_locks`, each
from the table it starts in. The table has two unique keys, `id` and `(repository_id, path)`;
`insertLock` rejects a row that repeats either.

`createLock_ok` and `deleteLock_ok` say what a query that succeeded has done.
-/
namespace GitLfsDelta

/-- mirrors migrations/202607170001_initial.sql:56-63 -/
structure LockRow where
  id : Uuid
  repositoryId : Uuid
  path : Text
  ownerSubject : Text
  createdAt : Nat
  deriving DecidableEq, Repr

/-- A lock as the API shows it; `lockedAt` is the time `to_char` prints.
mirrors crates/git-lfs-delta-protocol/src/lfs.rs:160-180 -/
structure Lock where
  id : Uuid
  path : Text
  lockedAt : Nat
  owner : Text
  deriving DecidableEq, Repr

def LockRow.lock (l : LockRow) : Lock := ⟨l.id, l.path, l.createdAt, l.ownerSubject⟩

abbrev LockTable := Table LockRow.id

/-- The row that holds a path of a repository. -/
def LockRow.Holds (r : Uuid) (path : Text) (l : LockRow) : Prop :=
  l.repositoryId = r ∧ l.path = path

instance (r : Uuid) (path : Text) (l : LockRow) : Decidable (l.Holds r path) := by
  unfold LockRow.Holds; infer_instance

/-- `INSERT INTO lfs_locks`. -/
def insertLock (t : LockTable) (row : LockRow) : Except DbError LockTable :=
  if t.get? row.id ≠ none ∨ ∃ l ∈ t, l.Holds row.repositoryId row.path then .error .unique
  else .ok (t.insert row)

/-! ## `create_lock` -/

/-- mirrors crates/git-lfs-delta-server/src/lib.rs:756-770 -/
def validateLockPath (path : Text) : Except ApiError Unit :=
  if path = [] ∨ path.head? = some '/' ∨
      (splitAt '/' path).any fun component => component = "..".toList ∨ component = [] then
    .error ⟨422, "lock path must be a normalized repository-relative path"⟩
  else .ok ()

/-- The insertion of `create_lock`; `newId` is `Uuid::new_v4()`. Any unique violation
(23505) is answered with 409.
mirrors crates/git-lfs-delta-server/src/lib.rs:578-616 -/
def createLock (t : LockTable) (now : Nat) (r : Uuid) (identity : Identity) (path : Text)
    (newId : Uuid) : Except ApiError (Lock × LockTable) :=
  let row : LockRow := ⟨newId, r, path, identity.subject, now⟩
  match insertLock t row with
  | .error .unique => .error ⟨409, "path is already locked"⟩
  | .error _ => .error .database
  | .ok t' => .ok (row.lock, t')

/-! ## `unlock` -/

namespace ApiError

def lockNotFound : ApiError := ⟨404, "lock not found"⟩

def unlockForbidden : ApiError :=
  ⟨403, "only the lock owner or an administrator using force may unlock"⟩

end ApiError

/-- `SELECT owner_subject FROM lfs_locks WHERE id = $1 AND repository_id = $2`.
mirrors crates/git-lfs-delta-server/src/lib.rs:720-728 -/
def lockOwner (t : LockTable) (r lockId : Uuid) : Except ApiError Text :=
  match t.find? fun l => l.id = lockId ∧ l.repositoryId = r with
  | none => .error .lockNotFound
  | some l => .ok l.ownerSubject

/-- mirrors crates/git-lfs-delta-server/src/lib.rs:729 -/
def Identity.MayUnlock (identity : Identity) (force : Bool) (owner : Text) : Prop :=
  owner = identity.subject ∨ (force = true ∧ identity.administrator = true)

instance (identity : Identity) (force : Bool) (owner : Text) :
    Decidable (identity.MayUnlock force owner) := by
  unfold Identity.MayUnlock; infer_instance

/-- `DELETE FROM lfs_locks WHERE id = $1 AND repository_id = $2 RETURNING ...`.
mirrors crates/git-lfs-delta-server/src/lib.rs:735-753 -/
def deleteLock (t : LockTable) (r lockId : Uuid) : Except ApiError (Lock × LockTable) :=
  match t.find? fun l => l.id = lockId ∧ l.repositoryId = r with
  | none => .error .lockNotFound
  | some l => .ok (l.lock, t.deleteWhere fun l => l.id = lockId ∧ l.repositoryId = r)

/-! ## `list_locks` and `verify_locks` -/

/-- mirrors crates/git-lfs-delta-server/src/lib.rs:124-130 -/
structure LockListQuery where
  path : Option Text
  id : Option Uuid
  cursor : Option Uuid
  limit : Option Nat
  deriving DecidableEq, Repr

/-- The `WHERE` clause; a `NULL` parameter selects everything. -/
def LockListQuery.selects (q : LockListQuery) (r : Uuid) (l : LockRow) : Bool :=
  l.repositoryId = r && q.path.all (fun path => l.path = path) && q.id.all (fun id => l.id = id) &&
    q.cursor.all fun cursor => cursor.toNat < l.id.toNat

/-- `requested_limit.unwrap_or(100).clamp(1, 100)`. -/
def pageLimit (requested : Option Nat) : Nat := min 100 (max 1 (requested.getD 100))

/-- A page and the cursor of the next one, if there are more rows.
mirrors crates/git-lfs-delta-server/src/lib.rs:639-683 -/
def loadLocksPage (t : LockTable) (r : Uuid) (q : LockListQuery) : List Lock × Option Uuid :=
  let rows := ((t.rows.filter fun l => q.selects r l).insertionSort
    fun a b => a.id.toNat ≤ b.id.toNat).take (pageLimit q.limit + 1)
  let locks := rows.map (·.lock)
  let page := locks.take (pageLimit q.limit)
  (page, if pageLimit q.limit < locks.length then page.getLast?.map (·.id) else none)

/-- mirrors crates/git-lfs-delta-server/src/lib.rs:692-709 -/
def verifyLocks (t : LockTable) (r : Uuid) (identity : Identity) (cursor : Option Uuid)
    (limit : Option Nat) : List Lock × List Lock × Option Uuid :=
  let (locks, next) := loadLocksPage t r ⟨none, none, cursor, limit⟩
  let (ours, theirs) := locks.partition fun l => l.owner = identity.subject
  (ours, theirs, next)

/-! ## What a successful query has done -/

/-- The new row is the creator's, under an id and a path that were free. -/
theorem createLock_ok {t t' : LockTable} {now : Nat} {r newId : Uuid} {identity : Identity}
    {path : Text} {lock : Lock} (h : createLock t now r identity path newId = .ok (lock, t')) :
    lock = ⟨newId, path, now, identity.subject⟩ ∧
      t' = t.insert ⟨newId, r, path, identity.subject, now⟩ ∧
      t.get? newId = none ∧ ∀ l ∈ t, ¬ l.Holds r path := by
  unfold createLock at h
  simp only at h
  split at h; · cases h
  · cases h
  rename_i t₁ hins
  cases h
  unfold insertLock at hins
  split at hins; · cases hins
  rename_i hfree
  cases hins
  rw [not_or, not_not, not_exists] at hfree
  exact ⟨rfl, rfl, hfree.1, fun l hl hh => hfree.2 l ⟨hl, hh⟩⟩

theorem lockOwner_ok {t : LockTable} {r lockId : Uuid} {owner : Text}
    (h : lockOwner t r lockId = .ok owner) :
    ∃ l ∈ t, l.id = lockId ∧ l.repositoryId = r ∧ l.ownerSubject = owner := by
  unfold lockOwner at h
  split at h; · cases h
  rename_i l hfind
  cases h
  obtain ⟨hl, hp⟩ := Table.mem_of_find? hfind
  simp only [decide_eq_true_eq] at hp
  exact ⟨l, hl, hp.1, hp.2, rfl⟩

/-- The row with the id is returned and is the only one to go. -/
theorem deleteLock_ok {t t' : LockTable} {r lockId : Uuid} {lock : Lock}
    (h : deleteLock t r lockId = .ok (lock, t')) :
    ∃ l ∈ t, l.id = lockId ∧ l.repositoryId = r ∧ lock = l.lock ∧
      ∀ x, x ∈ t' ↔ x ∈ t ∧ x.id ≠ lockId := by
  unfold deleteLock at h
  split at h; · cases h
  rename_i l hfind
  cases h
  obtain ⟨hl, hp⟩ := Table.mem_of_find? hfind
  simp only [decide_eq_true_eq] at hp
  refine ⟨l, hl, hp.1, hp.2, rfl, fun x => ?_⟩
  rw [Table.mem_deleteWhere]
  apply and_congr_right
  intro hx
  simp only [decide_eq_false_iff_not, not_and]
  constructor
  · intro hno hid
    -- the primary key makes it the row found
    obtain rfl := Table.eq_of_key hx hl (hid.trans hp.1.symm)
    exact hno hid hp.2
  · intro hne hid
    exact absurd hid hne

end GitLfsDelta
