import GitLfsDelta.Core.LTS

/-!
# Parts of a system

A part of a system is a system of its own: every step of the whole leaves the part alone or is a
step of it. What is known of the part then holds of it within the whole.

* `Projection.reachable`: what a part looks like within the whole, it can get to on its own.
* `Run.lift`: what a part does with steps that the whole always allows, the whole can do.
-/
namespace GitLfsDelta
namespace LTS

variable {S L T K : Type} {M : LTS S L} {N : LTS T K} {view : S → T}

/-- `N` is what `view` shows of `M`. -/
structure Projection (M : LTS S L) (N : LTS T K) (view : S → T) : Prop where
  init : ∀ s, M.init s → N.init (view s)
  step : ∀ s l s', M.step s l s' → view s' = view s ∨ ∃ k, N.step (view s) k (view s')

theorem Projection.reachable (h : Projection M N view) {s : S} (hr : M.Reachable s) :
    N.Reachable (view s) := by
  have hind : M.Inductive fun s => N.Reachable (view s) :=
    { init := fun s hs => ⟨view s, [], h.init s hs, .nil _⟩
      step := fun s l s' hs hst => by
        rcases h.step s l s' hst with hsame | ⟨k, hk⟩
        · rwa [hsame]
        · exact hs.step hk }
  exact hind.reachable hr

/-- A run of a part by labels of `P`, from where the whole is. -/
theorem Run.lift {P : K → Prop} {f : K → L} (view : S → T)
    (step : ∀ s k t, P k → N.step (view s) k t → ∃ s', M.step s (f k) s' ∧ view s' = t)
    {t t' : T} {ks : List K} (hrun : N.Run t ks t') :
    ∀ {s : S}, view s = t → (∀ k ∈ ks, P k) → ∃ s', M.Run s (ks.map f) s' ∧ view s' = t' := by
  induction hrun with
  | nil t =>
    intro s hs _
    exact ⟨s, .nil s, hs⟩
  | @cons t t₁ t₂ k ks hst _ ih =>
    intro s hs hP
    subst hs
    obtain ⟨s₁, hstep, hs₁⟩ := step s k t₁ (hP k List.mem_cons_self) hst
    obtain ⟨s', hrun', hs'⟩ := ih hs₁ fun k' hk' => hP k' (List.mem_cons_of_mem k hk')
    exact ⟨s', .cons hstep hrun', hs'⟩

end LTS
end GitLfsDelta
