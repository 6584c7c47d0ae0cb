import Mathlib.Algebra.BigOperators.Group.Finset.Piecewise
import Mathlib.Logic.Function.Basic

/-!
# Labelled transition systems

A system is a set of initial states and a labelled step relation. A property of
every reachable state is proved once per system as an inductive invariant
(`LTS.Inductive`); a property of the runs whose steps all meet a side condition
is one of the restricted system `LTS.guard`.

`LTS.annotate` adds a record of the past that no step reads, so that a property of whole runs
becomes an invariant; `LTS.record` is the case of a log, and `LTS.Admitted` says that every
entry of a log is one the entries before it allow.

`LTS.ofFn` is the system of an executable step function; `exec` runs such a
function on a list of labels, so that a concrete run is checked by evaluation
(`LTS.exists_reachable_of_exec`).
-/
namespace GitLfsDelta

structure LTS (S L : Type) where
  init : S → Prop
  step : S → L → S → Prop

namespace LTS

variable {S L : Type} {M : LTS S L}

/-- `M.Run s ls s'`: the labels `ls` lead from `s` to `s'`. -/
inductive Run (M : LTS S L) : S → List L → S → Prop
  | nil (s : S) : Run M s [] s
  | cons {s s' s'' : S} {l : L} {ls : List L} :
      M.step s l s' → Run M s' ls s'' → Run M s (l :: ls) s''

def Reachable (M : LTS S L) (s : S) : Prop := ∃ s₀ ls, M.init s₀ ∧ M.Run s₀ ls s

/-- `I` holds initially and every step keeps it. -/
structure Inductive (M : LTS S L) (I : S → Prop) : Prop where
  init : ∀ s, M.init s → I s
  step : ∀ s l s', I s → M.step s l s' → I s'

theorem Inductive.run {I : S → Prop} (h : M.Inductive I) {s s' : S} {ls : List L}
    (hr : M.Run s ls s') (hs : I s) : I s' := by
  induction hr with
  | nil => exact hs
  | cons hst _ ih => exact ih (h.step _ _ _ hs hst)

theorem Inductive.reachable {I : S → Prop} (h : M.Inductive I) {s : S} (hr : M.Reachable s) :
    I s := by
  obtain ⟨s₀, ls, hi, hrun⟩ := hr
  exact h.run hrun (h.init s₀ hi)

/-- An invariant may be proved using one that is already known. -/
theorem Inductive.of_known {I J : S → Prop} (hJ : M.Inductive J)
    (init : ∀ s, M.init s → I s)
    (step : ∀ s l s', J s → I s → M.step s l s' → I s') : M.Inductive (fun s => J s ∧ I s) where
  init s hs := ⟨hJ.init s hs, init s hs⟩
  step s l s' h hst := ⟨hJ.step s l s' h.1 hst, step s l s' h.1 h.2 hst⟩

/-- What every step of a run keeps holds at its end. -/
theorem Run.preserve {P : S → Prop} {s s' : S} {ls : List L} (hr : M.Run s ls s') (hs : P s)
    (step : ∀ a l b, l ∈ ls → P a → M.step a l b → P b) : P s' := by
  induction hr with
  | nil => exact hs
  | cons hst _ ih =>
    apply ih (step _ _ _ List.mem_cons_self hs hst)
    intro a l b hl
    exact step a l b (List.mem_cons_of_mem _ hl)

theorem Run.append {s s' s'' : S} {ls ls' : List L} (h : M.Run s ls s') (h' : M.Run s' ls' s'') :
    M.Run s (ls ++ ls') s'' := by
  induction h with
  | nil => exact h'
  | cons hst _ ih => exact .cons hst (ih h')

theorem Run.snoc {s s' s'' : S} {ls : List L} {l : L} (hr : M.Run s ls s')
    (hst : M.step s' l s'') : M.Run s (ls ++ [l]) s'' :=
  hr.append (.cons hst (.nil _))

theorem Reachable.step {s s' : S} {l : L} (hr : M.Reachable s) (hst : M.step s l s') :
    M.Reachable s' := by
  obtain ⟨s₀, ls, hi, hrun⟩ := hr
  exact ⟨s₀, ls ++ [l], hi, hrun.snoc hst⟩

theorem Reachable.run {s s' : S} {ls : List L} (hr : M.Reachable s) (hrun : M.Run s ls s') :
    M.Reachable s' :=
  hrun.preserve hr fun _ _ _ _ h hst => h.step hst

/-- A system that can lower a measure as long as it has not reached `Q` can reach `Q`. -/
theorem exists_run_of_measure {P Q : S → Prop} (μ : S → Nat)
    (step : ∀ s, P s → Q s ∨ ∃ l s', M.step s l s' ∧ P s' ∧ μ s' < μ s) (s : S) (hs : P s) :
    ∃ ls s', M.Run s ls s' ∧ Q s' := by
  rcases step s hs with hQ | ⟨l, s', hst, hs', hlt⟩
  · exact ⟨[], s, .nil s, hQ⟩
  · obtain ⟨ls, s'', hrun, hQ⟩ := exists_run_of_measure μ step s' hs'
    exact ⟨l :: ls, s'', .cons hst hrun, hQ⟩
termination_by μ s

/-- Where every step lowers a measure, a run is no longer than the measure says. -/
theorem Run.length_le (μ : S → Nat) (step : ∀ s l s', M.step s l s' → μ s' < μ s) {s s' : S}
    {ls : List L} (hr : M.Run s ls s') : ls.length ≤ μ s := by
  induction hr with
  | nil => exact Nat.zero_le _
  | @cons s s' s'' l ls hst _ ih =>
    have hlt := step s l s' hst
    rw [List.length_cons]
    omega

/-- A measure summed over the components of a state, when one of them changes. -/
theorem sum_update {ι α N : Type} [Fintype ι] [DecidableEq ι] [AddCommMonoid N] (f : α → N) (g : ι → α)
    (i : ι) (a : α) :
    ∑ j, f (Function.update g i a j) + f (g i) = ∑ j, f (g j) + f a := by
  have hf : ∀ j, f (Function.update g i a j) = Function.update (fun j => f (g j)) i (f a) j := by
    intro j
    by_cases e : j = i
    · subst e; simp
    · simp [Function.update_of_ne e]
  rw [Finset.sum_congr rfl fun j _ => hf j, Finset.sum_update_of_mem (Finset.mem_univ i),
    ← Finset.sum_sdiff (Finset.subset_univ {i}) (f := fun j => f (g j)), Finset.sum_singleton]
  ac_rfl

/-! ## Restricted runs -/

/-- The runs whose every step `l` from `s` meets `G s l`. -/
def guard (M : LTS S L) (G : S → L → Prop) : LTS S L where
  init := M.init
  step s l s' := G s l ∧ M.step s l s'

theorem Run.of_guard {G : S → L → Prop} {s s' : S} {ls : List L} (hr : (M.guard G).Run s ls s') :
    M.Run s ls s' := by
  induction hr with
  | nil => exact .nil _
  | cons h _ ih => exact .cons h.2 ih

theorem Reachable.of_guard {G : S → L → Prop} {s : S} (hr : (M.guard G).Reachable s) :
    M.Reachable s := by
  obtain ⟨s₀, ls, hi, hrun⟩ := hr
  exact ⟨s₀, ls, hi, hrun.of_guard⟩

/-- An invariant of the whole system is one of its restrictions. -/
theorem Inductive.guard {I : S → Prop} (h : M.Inductive I) (G : S → L → Prop) :
    (M.guard G).Inductive I where
  init := h.init
  step s l s' hs hst := h.step s l s' hs hst.2

/-! ## History variables -/

section Annotate

variable {G : Type} {g₀ : G} {next : G → S → L → S → G}

/-- The system with a record of its past: `g₀` at the start, and `next` at every step. -/
def annotate (M : LTS S L) (g₀ : G) (next : G → S → L → S → G) : LTS (S × G) L where
  init x := M.init x.1 ∧ x.2 = g₀
  step x l x' := M.step x.1 l x'.1 ∧ x'.2 = next x.2 x.1 l x'.1

/-- An invariant of the system is one of the annotated system. -/
theorem Inductive.annotate {I : S → Prop} (h : M.Inductive I) :
    (M.annotate g₀ next).Inductive fun x => I x.1 where
  init x hx := h.init x.1 hx.1
  step x l x' hx hst := h.step x.1 l x'.1 hx hst.1

end Annotate

/-! ## Logs -/

section Record

variable {E : Type} {obs : S → L → S → Option E}

/-- The system with the log of what was observed of its steps. -/
def record (M : LTS S L) (obs : S → L → S → Option E) : LTS (S × List E) L :=
  M.annotate [] fun log s l s' => log ++ (obs s l s').toList

theorem record_step {x x' : S × List E} {l : L} : (M.record obs).step x l x' ↔
    M.step x.1 l x'.1 ∧ x'.2 = x.2 ++ (obs x.1 l x'.1).toList := Iff.rfl

/-- Every run has a log. -/
theorem Reachable.record {s : S} (hr : M.Reachable s) (obs : S → L → S → Option E) :
    ∃ log, (M.record obs).Reachable (s, log) := by
  obtain ⟨s₀, ls, hi, hrun⟩ := hr
  refine hrun.preserve (P := fun s => ∃ log, (M.record obs).Reachable (s, log)) ?_ ?_
  · exact ⟨[], _, [], ⟨hi, rfl⟩, .nil _⟩
  · intro a l b _ ha hst
    obtain ⟨log, hlog⟩ := ha
    exact ⟨log ++ (obs a l b).toList, hlog.step ⟨hst, rfl⟩⟩

/-- Every entry of the log is admitted by those before it. -/
inductive Admitted (ok : List E → E → Prop) : List E → Prop
  | nil : Admitted ok []
  | snoc {log : List E} {e : E} : Admitted ok log → ok log e → Admitted ok (log ++ [e])

theorem Admitted.append {ok : List E → E → Prop} {log : List E} {o : Option E}
    (h : Admitted ok log) (ho : ∀ e, o = some e → ok log e) : Admitted ok (log ++ o.toList) := by
  cases o with
  | none => simpa using h
  | some e => exact h.snoc (ho e rfl)

theorem Admitted.entry {ok : List E → E → Prop} {log : List E} (h : Admitted ok log) :
    ∀ {a : List E} {e : E} {b : List E}, log = a ++ e :: b → ok a e := by
  induction h with
  | nil => intro a e b he; simp at he
  | snoc _ hok ih =>
    intro a e b he
    -- the entry is the last one, or one of those before
    rcases List.eq_nil_or_concat b with rfl | ⟨b', e', rfl⟩
    · obtain ⟨rfl, hlast⟩ := List.append_inj' he rfl
      obtain ⟨rfl, -⟩ := List.cons.inj hlast
      exact hok
    · rw [List.concat_eq_append, ← List.cons_append, ← List.append_assoc] at he
      exact ih (List.append_inj' he rfl).1

end Record

/-! ## Executable systems -/

def ofFn (init : S → Prop) (step : S → L → Option S) : LTS S L where
  init := init
  step s l s' := step s l = some s'

/-- Run a step function over a list of labels; `none` if a step is not enabled. -/
def exec (step : S → L → Option S) : S → List L → Option S
  | s, [] => some s
  | s, l :: ls => (step s l).bind fun s' => exec step s' ls

theorem run_of_exec {init : S → Prop} {step : S → L → Option S} :
    ∀ {s : S} {ls : List L} {s' : S}, exec step s ls = some s' → (ofFn init step).Run s ls s'
  | s, [], s', h => by
    simp only [exec, Option.some.injEq] at h
    subst h; exact .nil _
  | s, l :: ls, s', h => by
    simp only [exec, Option.bind_eq_some_iff] at h
    obtain ⟨s₁, h₁, h₂⟩ := h
    exact .cons h₁ (run_of_exec h₂)

/-- A run that ends in a state with `P`, found by evaluation. -/
theorem exists_run_of_exec {init : S → Prop} {step : S → L → Option S} {s : S} {P : S → Prop}
    [DecidablePred P] {ls : List L} (h : (exec step s ls).any (fun s => P s) = true) :
    ∃ s', (ofFn init step).Run s ls s' ∧ P s' := by
  obtain ⟨s', hs', hP⟩ := (Option.any_eq_true _ _).1 h
  exact ⟨s', run_of_exec hs', by simpa using hP⟩

theorem exists_reachable_of_exec {init : S → Prop} {step : S → L → Option S} {s : S}
    {P : S → Prop} [DecidablePred P] (ls : List L) (hi : init s)
    (h : (exec step s ls).any (fun s => P s) = true) :
    ∃ s', (ofFn init step).Reachable s' ∧ P s' := by
  obtain ⟨s', hs', hP⟩ := (Option.any_eq_true _ _).1 h
  exact ⟨s', ⟨s, ls, hi, run_of_exec hs'⟩, by simpa using hP⟩

/-- A run with a state on its way, found by evaluation. -/
theorem exists_run_after_exec {init : S → Prop} {step : S → L → Option S} {s : S}
    {P : S → S → Prop} [∀ a b, Decidable (P a b)] (ls ls' : List L) (hi : init s)
    (h : (exec step s ls).any (fun a => (exec step a ls').any fun b => P a b) = true) :
    ∃ a b, (ofFn init step).Reachable a ∧ (ofFn init step).Run a ls' b ∧ P a b := by
  obtain ⟨a, ha, hb⟩ := (Option.any_eq_true _ _).1 h
  obtain ⟨b, hrun, hP⟩ := exists_run_of_exec hb
  exact ⟨a, b, ⟨s, ls, hi, run_of_exec ha⟩, hrun, hP⟩

/-- An annotated executable system is executable. -/
theorem annotate_ofFn {G : Type} {g₀ : G} {next : G → S → L → S → G} {init : S → Prop}
    {step : S → L → Option S} :
    (ofFn init step).annotate g₀ next = ofFn (fun x => init x.1 ∧ x.2 = g₀) fun x l =>
      (step x.1 l).map fun s' => (s', next x.2 x.1 l s') := by
  simp only [annotate, ofFn, LTS.mk.injEq, true_and]
  funext x l x'
  simp only [Option.map_eq_some_iff, Prod.ext_iff, eq_iff_iff]
  constructor
  · intro h
    exact ⟨x'.1, h.1, rfl, h.2.symm⟩
  · intro h
    obtain ⟨s', hs, rfl, hg⟩ := h
    exact ⟨hs, hg.symm⟩

/-- A recorded run that ends with `P`, found by evaluation. -/
theorem exists_recorded_of_exec {E : Type} {obs : S → L → S → Option E} {init : S → Prop}
    {step : S → L → Option S} {s : S} {P : S × List E → Prop} [DecidablePred P] (ls : List L)
    (hi : init s)
    (h : (exec (fun x l => (step x.1 l).map fun s' => (s', x.2 ++ (obs x.1 l s').toList))
      (s, []) ls).any (fun x => P x) = true) :
    ∃ x, ((ofFn init step).record obs).Reachable x ∧ P x := by
  rw [record, annotate_ofFn]
  exact exists_reachable_of_exec ls ⟨hi, rfl⟩ h

/-- A restricted executable system is executable. -/
theorem guard_ofFn {init : S → Prop} {step : S → L → Option S} {G : S → L → Prop}
    [∀ s l, Decidable (G s l)] :
    (ofFn init step).guard G = ofFn init fun s l => if G s l then step s l else none := by
  simp only [guard, ofFn, LTS.mk.injEq, true_and]
  funext s l s'
  by_cases h : G s l <;> simp [h]

/-- `exec`, checking a decidable side condition before every step. -/
def execGuard (step : S → L → Option S) (G : S → L → Prop) [∀ s l, Decidable (G s l)] :
    S → List L → Option S :=
  exec fun s l => if G s l then step s l else none

theorem exists_reachable_of_execGuard {init : S → Prop} {step : S → L → Option S} {G : S → L → Prop}
    [∀ s l, Decidable (G s l)] {s : S} {P : S → Prop} [DecidablePred P] (ls : List L) (hi : init s)
    (h : (execGuard step G s ls).any (fun s => P s) = true) :
    ∃ s', ((ofFn init step).guard G).Reachable s' ∧ P s' := by
  rw [guard_ofFn]
  exact exists_reachable_of_exec ls hi h

end LTS
end GitLfsDelta
