import GitLfsDelta.Core.LTS

/-!
# Read-only clients of a system

A system with any number of clients beside it. A client has a state of its own and its own way to
move; its steps look at the state of the system and never change it. Steps of the system and of
all clients interleave in any order.

* `Run.system`, `Run.beside`: without its clients a run is one of the system, and the other way round.
* `Inductive.clients`: what holds of every client along every run, from three facts about one
  client: it starts so, the steps of the system keep it so, its own steps keep it so.
* `clients_ofFn`: an executable system with executable clients is executable.
-/
namespace GitLfsDelta
namespace LTS

inductive ClientLabel (L κ E : Type)
  | system (l : L)
  | client (k : κ) (e : E)
  deriving DecidableEq, Repr

variable {S L κ E Q : Type} [DecidableEq κ] {M : LTS S L} {q₀ : κ → Q}
  {act : κ → S → Q → E → Option Q}

/-- `M` and its clients. -/
def clients (M : LTS S L) (q₀ : κ → Q) (act : κ → S → Q → E → Option Q) :
    LTS (S × (κ → Q)) (ClientLabel L κ E) where
  init x := M.init x.1 ∧ x.2 = q₀
  step x l x' :=
    match l with
    | .system l => M.step x.1 l x'.1 ∧ x'.2 = x.2
    | .client k e => x'.1 = x.1 ∧ ∃ q, act k x.1 (x.2 k) e = some q ∧
      x'.2 = Function.update x.2 k q

/-- What the system does in a run. -/
def systemLabels : List (ClientLabel L κ E) → List L
  | [] => []
  | .system l :: ls => l :: systemLabels ls
  | .client .. :: ls => systemLabels ls

theorem Run.system {x x' : S × (κ → Q)} {ls : List (ClientLabel L κ E)}
    (hr : (M.clients q₀ act).Run x ls x') : M.Run x.1 (systemLabels ls) x'.1 := by
  induction hr with
  | nil => exact .nil _
  | @cons a b c l ls hst _ ih =>
    cases l with
    | system l => exact .cons hst.1 ih
    | client k e =>
      rw [hst.1] at ih
      exact ih

/-- What the system does alone it does beside clients that do nothing. -/
theorem Run.beside {s s' : S} {ls : List L} (hr : M.Run s ls s') (q : κ → Q) :
    (M.clients q₀ act).Run (s, q) (ls.map .system) (s', q) := by
  induction hr with
  | nil => exact .nil _
  | @cons a b c l ls hst _ ih =>
    have hl : (M.clients q₀ act).step (a, q) (.system l) (b, q) := ⟨hst, rfl⟩
    exact .cons hl ih

theorem Reachable.system {x : S × (κ → Q)} (hr : (M.clients q₀ act).Reachable x) :
    M.Reachable x.1 := by
  obtain ⟨x₀, ls, hi, hrun⟩ := hr
  exact ⟨x₀.1, _, hi.1, hrun.system⟩

/-- **The rule for clients.** `I` is an invariant of the system, and `ok` one of each client
beside it; `G` restricts the runs. -/
theorem Inductive.clients {I : S → Prop} (hI : M.Inductive I) (ok : κ → S → Q → Prop)
    {G : S × (κ → Q) → ClientLabel L κ E → Prop}
    (start : ∀ k s, M.init s → ok k s (q₀ k))
    (stable : ∀ k x l s', I x.1 → G x (.system l) → M.step x.1 l s' → ok k x.1 (x.2 k) →
      ok k s' (x.2 k))
    (own : ∀ k x e q, I x.1 → G x (.client k e) → ok k x.1 (x.2 k) → act k x.1 (x.2 k) e = some q →
      ok k x.1 q) :
    ((M.clients q₀ act).guard G).Inductive fun x => I x.1 ∧ ∀ k, ok k x.1 (x.2 k) where
  init := by
    rintro ⟨s, q⟩ ⟨hs, rfl⟩
    exact ⟨hI.init s hs, fun k => start k s hs⟩
  step x l x' hx hst := by
    obtain ⟨hi, hok⟩ := hx
    obtain ⟨hG, hst⟩ := hst
    cases l with
    | system l =>
      obtain ⟨hst, hq⟩ := hst
      rw [hq]
      exact ⟨hI.step x.1 l x'.1 hi hst, fun k => stable k x l x'.1 hi hG hst (hok k)⟩
    | client k e =>
      obtain ⟨hs, q, hact, hq⟩ := hst
      rw [hs, hq]
      refine ⟨hi, fun k' => ?_⟩
      by_cases hk : k' = k
      · subst hk
        rw [Function.update_self]
        exact own k' x e q hi hG (hok k') hact
      · rw [Function.update_of_ne hk]
        exact hok k'

/-- The step function of an executable system with executable clients. -/
def clientsStep (step : S → L → Option S) (act : κ → S → Q → E → Option Q) (x : S × (κ → Q)) :
    ClientLabel L κ E → Option (S × (κ → Q))
  | .system l => (step x.1 l).map fun s => (s, x.2)
  | .client k e => (act k x.1 (x.2 k) e).map fun q => (x.1, Function.update x.2 k q)

theorem clients_ofFn {init : S → Prop} {step : S → L → Option S} :
    (ofFn init step).clients q₀ act =
      ofFn (fun x : S × (κ → Q) => init x.1 ∧ x.2 = q₀) (clientsStep step act) := by
  simp only [clients, ofFn, LTS.mk.injEq, true_and]
  funext x l x'
  cases l with
  | system l =>
    simp only [clientsStep, Option.map_eq_some_iff, Prod.ext_iff, eq_iff_iff]
    constructor
    · intro h
      exact ⟨x'.1, h.1, rfl, h.2.symm⟩
    · intro h
      obtain ⟨s', hs, rfl, hq⟩ := h
      exact ⟨hs, hq.symm⟩
  | client k e =>
    simp only [clientsStep, Option.map_eq_some_iff, Prod.ext_iff, eq_iff_iff]
    constructor
    · intro h
      obtain ⟨hs, q, hq, hx⟩ := h
      exact ⟨q, hq, hs.symm, hx.symm⟩
    · intro h
      obtain ⟨q, hq, hs, hx⟩ := h
      exact ⟨hs.symm, q, hq, hx.symm⟩

end LTS
end GitLfsDelta
