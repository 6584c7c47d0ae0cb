import GitLfsDelta.Core.LTS
import Mathlib.Data.List.Induction

/-!
# Noninterference

An observer sees some steps of a system, each as an input and an output, and has a view of the
states. If the steps it does not see leave its view alone, and a step it sees is determined, as
far as it can tell, by its view and the input (`LTS.Unwinding`), then two runs with the same
inputs, from states that look the same to it, have the same outputs and end in states that look
the same (`LTS.noninterference`): whatever else goes on in the system, the observer cannot tell.
-/
namespace GitLfsDelta
namespace LTS

variable {S L E O V : Type} {M : LTS S L} {obs : S → L → S → Option (E × O)} {view : S → V}
  {I : S → Prop} {s₀ : S}

/-- The unwinding conditions, for states that meet an invariant of the system. -/
structure Unwinding (M : LTS S L) (obs : S → L → S → Option (E × O)) (view : S → V) (I : S → Prop) :
    Prop where
  inv : M.Inductive I
  silent : ∀ s l s', I s → M.step s l s' → obs s l s' = none → view s' = view s
  visible : ∀ s₁ s₂ l₁ l₂ s₁' s₂' e o₁ o₂, I s₁ → I s₂ → view s₁ = view s₂ →
    M.step s₁ l₁ s₁' → M.step s₂ l₂ s₂' → obs s₁ l₁ s₁' = some (e, o₁) →
    obs s₂ l₂ s₂' = some (e, o₂) → o₁ = o₂ ∧ view s₁' = view s₂'

/-- There is a recorded run from `s₀`. -/
def Recorded (M : LTS S L) (obs : S → L → S → Option (E × O)) (s₀ : S) (x : S × List (E × O)) : Prop :=
  ∃ ls, (M.record obs).Run (s₀, []) ls x

theorem Recorded.inv (hI : M.Inductive I) (hs₀ : I s₀) {x : S × List (E × O)}
    (hx : Recorded M obs s₀ x) : I x.1 := by
  obtain ⟨ls, hrun⟩ := hx
  exact hrun.preserve (P := fun x => I x.1) hs₀ fun a l b _ ha hst => hI.step _ _ _ ha hst.1

/-- A recorded run that ends with `P`, found by evaluation. -/
theorem Recorded.exists_of_exec {init : S → Prop} {step : S → L → Option S}
    {P : S × List (E × O) → Prop} [DecidablePred P] (ls : List L)
    (h : (exec (fun x l => (step x.1 l).map fun s' => (s', x.2 ++ (obs x.1 l s').toList))
      (s₀, []) ls).any (fun x => P x) = true) :
    ∃ x, Recorded (ofFn init step) obs s₀ x ∧ P x := by
  have hrecord : (ofFn init step).record obs = ofFn (fun x => init x.1 ∧ x.2 = []) fun x l =>
      (step x.1 l).map fun s' => (s', x.2 ++ (obs x.1 l s').toList) := annotate_ofFn
  simp only [Recorded, hrecord]
  obtain ⟨x, hx, hP⟩ := (Option.any_eq_true _ _).1 h
  exact ⟨x, ⟨ls, run_of_exec hx⟩, by simpa using hP⟩

/-- The view is the one after the last observed step. -/
def Since (M : LTS S L) (obs : S → L → S → Option (E × O)) (view : S → V) (s₀ : S)
    (x : S × List (E × O)) : Prop :=
  (x.2 = [] ∧ view x.1 = view s₀) ∨
    ∃ y l s' e o, Recorded M obs s₀ y ∧ M.step y.1 l s' ∧ obs y.1 l s' = some (e, o) ∧
      x.2 = y.2 ++ [(e, o)] ∧ view x.1 = view s'

theorem Unwinding.since (h : Unwinding M obs view I) (hs₀ : I s₀) {x : S × List (E × O)}
    (hx : Recorded M obs s₀ x) : Since M obs view s₀ x := by
  obtain ⟨ls, hrun⟩ := hx
  refine (hrun.preserve (P := fun x => Recorded M obs s₀ x ∧ Since M obs view s₀ x) ?_ ?_).2
  · exact ⟨⟨[], .nil _⟩, .inl ⟨rfl, rfl⟩⟩
  · intro a l b _ ha hst
    obtain ⟨hra, hsince⟩ := ha
    have hrb : Recorded M obs s₀ b := by
      obtain ⟨ls', hrun'⟩ := hra
      exact ⟨_, hrun'.snoc hst⟩
    refine ⟨hrb, ?_⟩
    obtain ⟨hstep, hlog⟩ := record_step.1 hst
    cases hobs : obs a.1 l b.1 with
    | none =>
      have hview := h.silent _ _ _ (hra.inv h.inv hs₀) hstep hobs
      rw [hobs, Option.toList_none, List.append_nil] at hlog
      rw [Since, hlog, hview]
      exact hsince
    | some eo =>
      rw [hobs, Option.toList_some] at hlog
      exact .inr ⟨a, l, b.1, eo.1, eo.2, hra, hstep, hobs, hlog, rfl⟩

/-- A run with inputs has a last observed step. -/
theorem Unwinding.last (h : Unwinding M obs view I) (hs₀ : I s₀) {x : S × List (E × O)}
    (hx : Recorded M obs s₀ x) {inputs : List E} {e : E} (hin : x.2.map (·.1) = inputs ++ [e]) :
    ∃ y l s' o, Recorded M obs s₀ y ∧ M.step y.1 l s' ∧ obs y.1 l s' = some (e, o) ∧
      x.2 = y.2 ++ [(e, o)] ∧ view x.1 = view s' ∧ y.2.map (·.1) = inputs := by
  rcases h.since hs₀ hx with ⟨hnil, -⟩ | ⟨y, l, s', e', o, hy, hst, hobs, hlog, hv⟩
  · simp [hnil] at hin
  · rw [hlog, List.map_append] at hin
    obtain ⟨hbefore, he⟩ := List.append_inj' hin rfl
    obtain rfl : e' = e := by simpa using he
    exact ⟨y, l, s', o, hy, hst, hobs, hlog, hv, hbefore⟩

/-- A run without inputs does not change the view. -/
theorem Unwinding.quiet (h : Unwinding M obs view I) (hs₀ : I s₀) {x : S × List (E × O)}
    (hx : Recorded M obs s₀ x) (hnil : x.2 = []) : view x.1 = view s₀ := by
  rcases h.since hs₀ hx with ⟨-, hv⟩ | ⟨y, l, s', e, o, -, -, -, hlog, -⟩
  · exact hv
  · simp [hnil] at hlog

/-- **Equal inputs give equal outputs and equal views.** -/
theorem noninterference (h : Unwinding M obs view I) {s₁ s₂ : S} (hs₁ : I s₁) (hs₂ : I s₂)
    (hview : view s₁ = view s₂) : ∀ (inputs : List E) {x₁ x₂ : S × List (E × O)},
    Recorded M obs s₁ x₁ → Recorded M obs s₂ x₂ → x₁.2.map (·.1) = inputs →
    x₂.2.map (·.1) = inputs → x₁.2 = x₂.2 ∧ view x₁.1 = view x₂.1 := by
  intro inputs
  induction inputs using List.reverseRecOn with
  | nil =>
    intro x₁ x₂ h₁ h₂ hin₁ hin₂
    have hnil₁ := List.map_eq_nil_iff.1 hin₁
    have hnil₂ := List.map_eq_nil_iff.1 hin₂
    have hv := (h.quiet hs₁ h₁ hnil₁).trans (hview.trans (h.quiet hs₂ h₂ hnil₂).symm)
    exact ⟨hnil₁.trans hnil₂.symm, hv⟩
  | append_singleton inputs e ih =>
    intro x₁ x₂ h₁ h₂ hin₁ hin₂
    obtain ⟨y₁, l₁, s₁', o₁, hy₁, hst₁, hobs₁, hlog₁, hv₁, hin₁⟩ := h.last hs₁ h₁ hin₁
    obtain ⟨y₂, l₂, s₂', o₂, hy₂, hst₂, hobs₂, hlog₂, hv₂, hin₂⟩ := h.last hs₂ h₂ hin₂
    obtain ⟨hlog, hbefore⟩ := ih hy₁ hy₂ hin₁ hin₂
    obtain ⟨rfl, hv⟩ := h.visible _ _ _ _ _ _ _ _ _ (hy₁.inv h.inv hs₁) (hy₂.inv h.inv hs₂) hbefore
      hst₁ hst₂ hobs₁ hobs₂
    exact ⟨by rw [hlog₁, hlog₂, hlog], by rw [hv₁, hv₂, hv]⟩

end LTS
end GitLfsDelta
