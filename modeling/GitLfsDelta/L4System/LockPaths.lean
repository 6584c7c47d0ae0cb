import GitLfsDelta.L4System.Locking

/-!
# Lock paths and the files they denote

`lfs_locks` keeps two clients from locking one path. What they mean to lock is a file, and a
path denotes the file that is left when its components are followed one by one (`resolve`).
`validate_lock_path` rejects `..` and empty components, which would give a file a second path;
it does not reject `.`, which does.

* `lockPath_normal_iff`: an accepted path denotes a file, and no dot-free path denotes the same
  one, exactly if it has no `.` component itself.
* `file_exclusive`: as long as clients create locks on such paths only, a file has one lock.
* `dotted_locks`: two clients hold `a` and `./a`.
-/
namespace GitLfsDelta

/-! ## Components -/

theorem piecesFrom_eq (sep : Char) (t : Text) : ∀ current, piecesFrom sep t current =
    (t.splitOn sep).modifyHead (current ++ ·) := by
  induction t with
  | nil =>
    intro current
    simp [piecesFrom]
  | cons c cs ih =>
    intro current
    rw [List.splitOn_cons_eq_if_modifyHead]
    unfold piecesFrom
    by_cases hc : c = sep
    · rw [if_pos hc, if_pos (by simpa using hc), ih]
      obtain ⟨x, xs, hx⟩ := List.exists_cons_of_ne_nil (List.splitOn_ne_nil sep cs)
      simp [hx]
    · rw [if_neg hc, if_neg (by simpa using hc), ih]
      obtain ⟨x, xs, hx⟩ := List.exists_cons_of_ne_nil (List.splitOn_ne_nil sep cs)
      simp [hx]

theorem splitAt_eq (sep : Char) (t : Text) : splitAt sep t = t.splitOn sep := by
  obtain ⟨x, xs, hx⟩ := List.exists_cons_of_ne_nil (List.splitOn_ne_nil sep t)
  rw [splitAt, piecesFrom_eq, hx]
  rfl

theorem not_mem_piecesFrom (sep : Char) (t : Text) : ∀ current, sep ∉ current →
    ∀ piece ∈ piecesFrom sep t current, sep ∉ piece := by
  induction t with
  | nil =>
    intro current hcur piece hp
    rw [piecesFrom, List.mem_singleton] at hp
    rwa [hp]
  | cons c cs ih =>
    intro current hcur piece hp
    unfold piecesFrom at hp
    split at hp
    · rcases List.mem_cons.1 hp with rfl | hp
      · exact hcur
      · exact ih [] List.not_mem_nil piece hp
    · rename_i hc
      refine ih (current ++ [c]) ?_ piece hp
      rw [List.mem_append, List.mem_singleton, not_or]
      exact ⟨hcur, Ne.symm hc⟩

/-! ## Files -/

/-- Follow components from a directory, given innermost name first; `none` leaves the
repository. -/
def resolveFrom : List Text → List Text → Option (List Text)
  | dir, [] => some dir.reverse
  | dir, c :: cs =>
    if c = [] ∨ c = ".".toList then resolveFrom dir cs
    else if c = "..".toList then
      match dir with
      | [] => none
      | _ :: parent => resolveFrom parent cs
    else resolveFrom (c :: dir) cs

/-- The file a path denotes, by the names from the root down. -/
def resolve (p : Text) : Option (List Text) := resolveFrom [] (splitAt '/' p)

/-- No component is `.`. -/
def Undotted (p : Text) : Prop := ".".toList ∉ splitAt '/' p

instance (p : Text) : Decidable (Undotted p) := by unfold Undotted; infer_instance

theorem validateLockPath_ok {p : Text} :
    validateLockPath p = .ok () ↔ ∀ c ∈ splitAt '/' p, c ≠ "..".toList ∧ c ≠ [] := by
  have hany : ((splitAt '/' p).any fun c => c = "..".toList ∨ c = []) = true ↔
      ¬ ∀ c ∈ splitAt '/' p, c ≠ "..".toList ∧ c ≠ [] := by
    simp only [List.any_eq_true, decide_eq_true_eq]
    constructor
    · intro h hall
      obtain ⟨c, hc, h⟩ := h
      exact h.elim (hall c hc).1 (hall c hc).2
    · intro h
      by_contra hnone
      refine h fun c hc => ⟨fun e => hnone ⟨c, hc, .inl e⟩, fun e => hnone ⟨c, hc, .inr e⟩⟩
  -- an empty path and a leading slash have an empty first component
  have hempty : (p = [] ∨ p.head? = some '/') → [] ∈ splitAt '/' p := by
    intro h
    rcases h with rfl | h
    · simp [splitAt, piecesFrom]
    · cases p with
      | nil => cases h
      | cons c cs =>
        obtain rfl : c = '/' := by simpa using h
        simp [splitAt, piecesFrom]
  unfold validateLockPath
  split
  · rename_i hbad
    simp only [reduceCtorEq, false_iff]
    rcases hbad with h | h | h
    · exact fun hall => (hall [] (hempty (.inl h))).2 rfl
    · exact fun hall => (hall [] (hempty (.inr h))).2 rfl
    · exact hany.1 h
  · rename_i hok
    simp only [true_iff]
    by_contra h
    exact hok (.inr (.inr (hany.2 h)))

/-- Without `..` the file has the components of its path that name something. -/
theorem resolveFrom_plain {cs : List Text} : ∀ (dir : List Text),
    (∀ c ∈ cs, c ≠ "..".toList ∧ c ≠ []) →
    resolveFrom dir cs = some (dir.reverse ++ cs.filter (· ≠ ".".toList)) := by
  induction cs with
  | nil =>
    intro dir _
    simp [resolveFrom]
  | cons c cs ih =>
    intro dir h
    obtain ⟨hparent, hempty⟩ := h c List.mem_cons_self
    have hrest : ∀ c ∈ cs, c ≠ "..".toList ∧ c ≠ [] := fun x hx => h x (List.mem_cons_of_mem _ hx)
    unfold resolveFrom
    by_cases hdot : c = ".".toList
    · rw [if_pos (.inr hdot), ih dir hrest, List.filter_cons_of_neg (by simp [hdot])]
    · have hkept : (c :: cs).filter (· ≠ ".".toList) = c :: cs.filter (· ≠ ".".toList) :=
        List.filter_cons_of_pos (decide_eq_true hdot)
      rw [if_neg (not_or.2 ⟨hempty, hdot⟩), if_neg hparent, ih (c :: dir) hrest, hkept,
        List.reverse_cons, List.append_assoc, List.singleton_append]

theorem resolve_accepted {p : Text} (hp : validateLockPath p = .ok ()) :
    resolve p = some ((splitAt '/' p).filter (· ≠ ".".toList)) := by
  exact resolveFrom_plain [] (validateLockPath_ok.1 hp)

theorem undotted_filter {p : Text} (h : Undotted p) :
    (splitAt '/' p).filter (· ≠ ".".toList) = splitAt '/' p := by
  rw [List.filter_eq_self]
  intro c hc
  have : c ≠ ".".toList := fun e => h (e ▸ hc)
  simpa using this

/-- The path with the given components. -/
def joinPath (components : List Text) : Text := ['/'].intercalate components

theorem joinPath_splitAt (p : Text) : joinPath (splitAt '/' p) = p := by
  rw [splitAt_eq, joinPath, List.intercalate_splitOn]

theorem splitAt_joinPath {cs : List Text} (hne : cs ≠ []) (h : ∀ c ∈ cs, '/' ∉ c) :
    splitAt '/' (joinPath cs) = cs := by
  rw [splitAt_eq, joinPath, List.splitOn_intercalate '/' h hne]

/-- An accepted dot-free path for the file of an accepted path. -/
theorem exists_undotted {p : Text} (hp : validateLockPath p = .ok ()) {file : List Text}
    (hfile : resolve p = some file) (hne : file ≠ []) :
    ∃ q, validateLockPath q = .ok () ∧ Undotted q ∧ resolve q = some file := by
  rw [resolve_accepted hp] at hfile
  cases hfile
  have hsplit := splitAt_joinPath hne fun c hc =>
    not_mem_piecesFrom '/' p [] List.not_mem_nil c (List.mem_of_mem_filter hc)
  have hq : validateLockPath (joinPath ((splitAt '/' p).filter (· ≠ ".".toList))) = .ok () := by
    rw [validateLockPath_ok, hsplit]
    intro c hc
    exact validateLockPath_ok.1 hp c (List.mem_of_mem_filter hc)
  have hdot : Undotted (joinPath ((splitAt '/' p).filter (· ≠ ".".toList))) := by
    rw [Undotted, hsplit]
    intro hmem
    simp at hmem
  refine ⟨_, hq, hdot, ?_⟩
  rw [resolve_accepted hq, undotted_filter hdot, hsplit]

/-- **Which accepted paths are normalized.** -/
theorem lockPath_normal_iff {p : Text} (hp : validateLockPath p = .ok ()) :
    ((∃ file, resolve p = some file ∧ file ≠ []) ∧
      ∀ q, validateLockPath q = .ok () → Undotted q → resolve p = resolve q → p = q) ↔
    Undotted p := by
  constructor
  · intro h
    obtain ⟨⟨file, hfile, hne⟩, hunique⟩ := h
    obtain ⟨q, hq, hdot, hresolve⟩ := exists_undotted hp hfile hne
    rw [hunique q hq hdot (hfile.trans hresolve.symm)]
    exact hdot
  · intro hdot
    have hp' := resolve_accepted hp
    rw [undotted_filter hdot] at hp'
    refine ⟨⟨_, hp', ?_⟩, fun q hq hqdot hsame => ?_⟩
    · rw [splitAt_eq]
      exact List.splitOn_ne_nil _ _
    · rw [hp', resolve_accepted hq, undotted_filter hqdot] at hsame
      rw [← joinPath_splitAt p, ← joinPath_splitAt q, Option.some.inj hsame]

/-! ## Locks on files -/

variable {ι : Type} [DecidableEq ι] {s s' : LockState ι} {l : LockLabel ι}

/-- Clients create locks on dot-free paths only. -/
def DotFree (_ : LockState ι) : LockLabel ι → Prop
  | .start _ _ _ (.create path) => Undotted path
  | _ => True

instance (s : LockState ι) (l : LockLabel ι) : Decidable (DotFree s l) := by
  unfold DotFree; split <;> infer_instance

/-- A path that was checked, and has no dots. -/
def Checked (path : Text) : Prop := validateLockPath path = .ok () ∧ Undotted path

/-- Every lock, and every lock about to be created, is on such a path. -/
structure PathInv (s : LockState ι) : Prop where
  rows : ∀ x ∈ s.locks, Checked x.path
  creating : ∀ p r identity path, s.procs p = .creating r identity path → Checked path

omit [DecidableEq ι] in
theorem PathInv.of_eq (h : PathInv s) {w : LockShared} (hlocks : ∀ x ∈ w.locks, Checked x.path)
    {procs : ι → LockProc} (hprocs : ∀ p r identity path, procs p = .creating r identity path →
      s.procs p = .creating r identity path ∨ Checked path) : PathInv ⟨w, procs⟩ := by
  refine ⟨hlocks, fun p r identity path hp => ?_⟩
  rcases hprocs p r identity path hp with hp | hok
  · exact h.creating p r identity path hp
  · exact hok

theorem lockNext_paths {w w' : LockShared} {q q' : LockProc} {newId : Uuid}
    (hw : ∀ x ∈ w.locks, Checked x.path)
    (hq : ∀ r identity path, q = .creating r identity path → Checked path)
    (h : lockNext w newId q = some (w', q')) :
    (∀ x ∈ w'.locks, Checked x.path) ∧ ∀ r identity path, q' ≠ .creating r identity path := by
  cases q with
  | creating r identity path =>
    have hpath := hq r identity path rfl
    simp only [lockNext] at h
    split at h; · cases h
    split at h
    · cases h
      exact ⟨hw, fun _ _ _ h => by cases h⟩
    · rename_i lock locks hcreate
      cases h
      obtain ⟨-, rfl, -, -⟩ := createLock_ok hcreate
      refine ⟨fun x hx => ?_, fun _ _ _ h => by cases h⟩
      rcases Table.mem_insert.1 hx with hx | ⟨rfl, -⟩
      · exact hw x hx
      · exact hpath
  | listing r query =>
    cases h
    exact ⟨hw, fun _ _ _ h => by cases h⟩
  | verifying r identity cursor limit =>
    cases h
    exact ⟨hw, fun _ _ _ h => by cases h⟩
  | reading r identity lockId force =>
    simp only [lockNext] at h
    split at h
    · cases h
      exact ⟨hw, fun _ _ _ h => by cases h⟩
    · split at h <;> cases h <;> exact ⟨hw, fun _ _ _ h => by cases h⟩
  | deleting r identity lockId force =>
    simp only [lockNext] at h
    split at h
    · cases h
      exact ⟨hw, fun _ _ _ h => by cases h⟩
    · rename_i lock locks hdelete
      cases h
      obtain ⟨-, -, -, -, -, hmem⟩ := deleteLock_ok hdelete
      exact ⟨fun x hx => hw x ((hmem x).1 hx).1, fun _ _ _ h => by cases h⟩
  | idle => cases h
  | done => cases h
  | stopped => cases h

/-- A dot-free run has dot-free locks. -/
theorem pathInv : ((lockSystem : LTS (LockState ι) (LockLabel ι)).guard DotFree).Inductive PathInv where
  init s hs := by
    obtain ⟨t, rfl⟩ := hs
    refine ⟨fun x hx => absurd hx (Table.not_mem_empty x), fun p r identity path h => ?_⟩
    cases h
  step s l s' hs hst := by
    obtain ⟨hdot, hst⟩ := hst
    cases l with
    | advance δ =>
      cases hst
      exact ⟨hs.rows, hs.creating⟩
    | kill p =>
      cases hst
      refine hs.of_eq hs.rows fun p' r identity path hp => ?_
      rw [Function.update_apply] at hp
      split at hp
      · cases hp
      · exact .inl hp
    | start p r identity request =>
      simp only [lockSystem, LTS.ofFn, lockStep] at hst
      split at hst
      · cases hst
        refine hs.of_eq hs.rows fun p' r' identity' path hp => ?_
        rw [Function.update_apply] at hp
        split at hp
        · cases request with
          | create path' =>
            simp only [lockStart] at hp
            split at hp
            · cases hp
            · rename_i hvalid
              cases hp
              exact .inr ⟨hvalid, hdot⟩
          | list => cases hp
          | verify => cases hp
          | unlock => cases hp
        · exact .inl hp
      · cases hst
    | next p newId =>
      simp only [lockSystem, LTS.ofFn, lockStep, Option.map_eq_some_iff] at hst
      obtain ⟨⟨w, q⟩, hnext, rfl⟩ := hst
      obtain ⟨hlocks, hcreating⟩ := lockNext_paths hs.rows (hs.creating p) hnext
      refine hs.of_eq hlocks fun p' r identity path hp => ?_
      rw [Function.update_apply] at hp
      split at hp
      · exact absurd hp (hcreating r identity path)
      · exact .inl hp

/-- **One lock for each file**, if clients create locks on dot-free paths only. -/
theorem file_exclusive (hr : (lockSystem.guard DotFree).Reachable s) {x y : LockRow}
    (hx : x ∈ s.locks) (hy : y ∈ s.locks) (hrep : x.repositoryId = y.repositoryId)
    (hfile : resolve x.path = resolve y.path) : x = y := by
  have hpaths := pathInv.reachable hr
  obtain ⟨log, hlog⟩ := hr.of_guard.record lockEvent
  obtain ⟨hxok, hxdot⟩ := hpaths.rows x hx
  obtain ⟨hyok, hydot⟩ := hpaths.rows y hy
  have hpath := ((lockPath_normal_iff hxok).2 hxdot).2 y.path hyok hydot hfile
  exact (lockSystem_inv.reachable hlog).exclusive x hx y hy ⟨hrep, hpath⟩

/-- **Exactly when lock paths stand for files.** An accepted path denotes a file of the
repository, and no dot-free path denotes the same file, if and only if it has no `.` component;
in every run whose locks are created on such paths, a file has at most one lock. -/
theorem lock_files_exact :
    (∀ p, validateLockPath p = .ok () →
      (((∃ file, resolve p = some file ∧ file ≠ []) ∧
        ∀ q, validateLockPath q = .ok () → Undotted q → resolve p = resolve q → p = q) ↔
      Undotted p)) ∧
    ∀ s : LockState ι, (lockSystem.guard DotFree).Reachable s →
      ∀ x ∈ s.locks, ∀ y ∈ s.locks, x.repositoryId = y.repositoryId →
        resolve x.path = resolve y.path → x = y :=
  ⟨fun _ hp => lockPath_normal_iff hp, fun _ hr _ hx _ hy => file_exclusive hr hx hy⟩

open Sample in
/-- Alice's lock on `a` keeps others from the file. -/
theorem lock_files_alice : ∃ s : LockState Unit, (lockSystem.guard DotFree).Reachable s ∧
    (∃ x ∈ s.locks, x.path = ['a']) ∧
    ∀ x ∈ s.locks, ∀ y ∈ s.locks, x.repositoryId = y.repositoryId →
      resolve x.path = resolve y.path → x = y := by
  obtain ⟨s, hs, hlock⟩ : ∃ s : LockState Unit, (lockSystem.guard DotFree).Reachable s ∧
      ∃ x ∈ s.locks, x.path = ['a'] :=
    LTS.exists_reachable_of_execGuard [.start () 1 alice (.create ['a']), .next () 7] ⟨0, rfl⟩
      (by decide +kernel)
  exact ⟨s, hs, hlock, lock_files_exact.2 s hs⟩

open Sample in
/-- Alice holds `a` and Bob `./a`: one file, two locks. -/
theorem dotted_locks : ∃ s : LockState Unit, lockSystem.Reachable s ∧
    ∃ x ∈ s.locks, ∃ y ∈ s.locks, x.repositoryId = y.repositoryId ∧
      validateLockPath x.path = .ok () ∧ validateLockPath y.path = .ok () ∧
      resolve x.path = resolve y.path ∧ x.path ≠ y.path ∧ x.ownerSubject ≠ y.ownerSubject :=
  LTS.exists_reachable_of_exec [.start () 1 alice (.create ['a']), .next () 7,
    .start () 1 bob (.create ['.', '/', 'a']), .next () 8] ⟨0, rfl⟩ (by decide +kernel)

end GitLfsDelta
