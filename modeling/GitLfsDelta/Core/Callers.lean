import GitLfsDelta.Core.Clients

/-!
# Calling clients of a system

A system with any number of clients that call it: an event of a client may be one with a step of
the system, the one `calls` names. Whether it is, and what the client makes of it, is up to its own
state and that of the system before the event. Everything interleaves in any order.

* `Reachable.called`: without its clients a reachable state is one of the system.
* `Run.idle`: what the system does alone it does beside idle clients.
* `Inductive.callers`: what holds of every client along every run, from three facts about one
  client: it starts so, the steps of the system and of other clients keep it so, its own keep it so.
* `callers_ofFn`: an executable system with executable clients is executable.
-/
namespace GitLfsDelta
namespace LTS

variable {S L κ E Q : Type} [DecidableEq κ] {M : LTS S L} {q₀ : κ → Q}
  {calls : κ → S → Q → E → Option L} {act : κ → S → Q → E → Option Q}

/-- The step of the system behind a label. -/
def called (calls : κ → S → Q → E → Option L) (x : S × (κ → Q)) : ClientLabel L κ E → Option L
  | .system l => some l
  | .client k e => calls k x.1 (x.2 k) e

/-- The system takes this step, or none. -/
def Takes (M : LTS S L) (s : S) : Option L → S → Prop
  | some l, s' => M.step s l s'
  | none, s' => s' = s

/-- `M` and its clients. -/
def callers (M : LTS S L) (q₀ : κ → Q) (calls : κ → S → Q → E → Option L)
    (act : κ → S → Q → E → Option Q) : LTS (S × (κ → Q)) (ClientLabel L κ E) where
  init x := M.init x.1 ∧ x.2 = q₀
  step x c x' := M.Takes x.1 (called calls x c) x'.1 ∧
    match c with
    | .system _ => x'.2 = x.2
    | .client k e => ∃ q, act k x.1 (x.2 k) e = some q ∧ x'.2 = Function.update x.2 k q

theorem Takes.preserve {P : S → Prop} {s s' : S} {o : Option L} (h : M.Takes s o s') (hs : P s)
    (step : ∀ l, o = some l → M.step s l s' → P s') : P s' := by
  cases o with
  | none =>
    obtain rfl : s' = s := h
    exact hs
  | some l => exact step l rfl h

theorem Takes.view {T : Type} {N : LTS T L} {s s' : S} {o : Option L} (h : M.Takes s o s')
    (view : S → T) (step : ∀ l, o = some l → M.step s l s' → N.step (view s) l (view s')) :
    N.Takes (view s) o (view s') := by
  cases o with
  | none => exact congrArg view h
  | some l => exact step l rfl h

theorem Reachable.called {x : S × (κ → Q)} (hr : (M.callers q₀ calls act).Reachable x) :
    M.Reachable x.1 := by
  have hind : (M.callers q₀ calls act).Inductive fun x => M.Reachable x.1 :=
    ⟨fun x hx => ⟨x.1, [], hx.1, .nil _⟩,
      fun x c x' hx hst => hst.1.preserve hx fun l _ hl => hx.step hl⟩
  exact hind.reachable hr

theorem Run.idle {G : S × (κ → Q) → ClientLabel L κ E → Prop} {s s' : S} {ls : List L}
    (hr : M.Run s ls s') {q : κ → Q} (hG : ∀ l ∈ ls, ∀ a, G (a, q) (.system l)) :
    ((M.callers q₀ calls act).guard G).Run (s, q) (ls.map .system) (s', q) := by
  induction hr with
  | nil => exact .nil _
  | @cons a b c l ls hst _ ih =>
    have hl : (M.callers q₀ calls act).step (a, q) (.system l) (b, q) := ⟨hst, rfl⟩
    exact .cons ⟨hG l List.mem_cons_self a, hl⟩ (ih fun l' hl' => hG l' (List.mem_cons_of_mem l hl'))

/-- **The rule for callers.** `I` is an invariant of the system, and `ok` one of each client
beside it; `G` restricts the runs. -/
theorem Inductive.callers {I : S → Prop} (hI : M.Inductive I) (ok : κ → S → Q → Prop)
    {G : S × (κ → Q) → ClientLabel L κ E → Prop}
    (start : ∀ k s, M.init s → ok k s (q₀ k))
    (stable : ∀ k x c l s', I x.1 → I s' → G x c → called calls x c = some l →
      (∀ e, c ≠ .client k e) → M.step x.1 l s' → ok k x.1 (x.2 k) → ok k s' (x.2 k))
    (own : ∀ k x e s' q, I x.1 → I s' → G x (.client k e) →
      M.Takes x.1 (calls k x.1 (x.2 k) e) s' → ok k x.1 (x.2 k) →
      act k x.1 (x.2 k) e = some q → ok k s' q) :
    ((M.callers q₀ calls act).guard G).Inductive fun x => I x.1 ∧ ∀ k, ok k x.1 (x.2 k) where
  init := by
    rintro ⟨s, q⟩ ⟨hs, rfl⟩
    exact ⟨hI.init s hs, fun k => start k s hs⟩
  step := by
    rintro x c ⟨s', q'⟩ ⟨hi, hok⟩ ⟨hG, htake, hq⟩
    have hi' : I s' := htake.preserve hi fun l _ hl => hI.step x.1 l s' hi hl
    have hothers : ∀ k, (∀ e, c ≠ .client k e) → ok k s' (x.2 k) := fun k hk =>
      htake.preserve (P := fun s => ok k s (x.2 k)) (hok k) fun l hl hst =>
        stable k x c l s' hi hi' hG hl hk hst (hok k)
    refine ⟨hi', fun k => ?_⟩
    cases c with
    | system l =>
      obtain rfl : q' = x.2 := hq
      exact hothers k nofun
    | client k₁ e =>
      obtain ⟨q, hact, rfl⟩ : ∃ q, act k₁ x.1 (x.2 k₁) e = some q ∧ q' = Function.update x.2 k₁ q := hq
      by_cases hk : k = k₁
      · subst hk
        simpa using own k x e s' q hi hi' hG htake (hok k) hact
      · simpa [hk] using hothers k fun e' he => hk (by cases he; rfl)

/-- The step function of an executable system with executable clients. -/
def callersStep (step : S → L → Option S) (calls : κ → S → Q → E → Option L)
    (act : κ → S → Q → E → Option Q) (x : S × (κ → Q)) : ClientLabel L κ E → Option (S × (κ → Q))
  | .system l => (step x.1 l).map fun s => (s, x.2)
  | .client k e =>
    match calls k x.1 (x.2 k) e with
    | none => (act k x.1 (x.2 k) e).map fun q => (x.1, Function.update x.2 k q)
    | some l => (step x.1 l).bind fun s =>
      (act k x.1 (x.2 k) e).map fun q => (s, Function.update x.2 k q)

theorem callers_ofFn {init : S → Prop} {step : S → L → Option S} :
    (ofFn init step).callers q₀ calls act =
      ofFn (fun x : S × (κ → Q) => init x.1 ∧ x.2 = q₀) (callersStep step calls act) := by
  simp only [callers, ofFn, LTS.mk.injEq, true_and]
  funext x c x'
  obtain ⟨s', q'⟩ := x'
  cases c with
  | system l =>
    simp only [called, Takes, callersStep, Option.map_eq_some_iff, Prod.mk.injEq, eq_iff_iff]
    constructor
    · intro h
      exact ⟨s', h.1, rfl, h.2.symm⟩
    · intro h
      obtain ⟨s, hs, rfl, hq⟩ := h
      exact ⟨hs, hq.symm⟩
  | client k e =>
    simp only [called, callersStep, eq_iff_iff]
    cases calls k x.1 (x.2 k) e with
    | none =>
      simp only [Takes, Option.map_eq_some_iff, Prod.mk.injEq]
      constructor
      · intro h
        obtain ⟨hs, q, hq, rfl⟩ := h
        exact ⟨q, hq, hs.symm, rfl⟩
      · intro h
        obtain ⟨q, hq, hs, rfl⟩ := h
        exact ⟨hs.symm, q, hq, rfl⟩
    | some l =>
      simp only [Takes, Option.bind_eq_some_iff, Option.map_eq_some_iff, Prod.mk.injEq]
      constructor
      · intro h
        obtain ⟨hs, q, hq, rfl⟩ := h
        exact ⟨s', hs, q, hq, rfl, rfl⟩
      · intro h
        obtain ⟨s, hs, q, hq, rfl, rfl⟩ := h
        exact ⟨hs, q, hq, rfl⟩

end LTS
end GitLfsDelta
