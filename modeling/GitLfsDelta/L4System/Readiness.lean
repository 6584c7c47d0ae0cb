import GitLfsDelta.Core.LTS
import GitLfsDelta.L2Storage.Provider

/-!
# Readiness (`readiness`, `ChunkStore::healthcheck`)

`/readyz` asks the database on every call, and the object store only where no probe vouches for it any
more: a probe writes an object, reads it back, removes it, and vouches for ten seconds. Any number of
calls run beside each other and beside the chunk operations on the same store; each request to the
store may fail, with or without its effect, and each call may be dropped at any of its waits. The
deadline of a probe is computed before the lock is taken, so an older deadline may replace a newer one.

* `readyStep_view`: probes do not touch chunks.
* `readyInv_step`: what every step keeps; `compliantInv_step`: and where the store does what it is asked.
* `readiness_sound`: a call that answers 204 has had the database's answer and then, at a moment of
  its own, a probe less than ten seconds old; a probe never reads other bytes than it wrote; and what
  lies under the reserved prefix is of a probe that is under way, has failed or was cut off.
-/
namespace GitLfsDelta

/-- mirrors crates/git-lfs-delta-storage/src/lib.rs:116 -/
def probePath (id : Uuid) : Text := "_health/".toList ++ uuidText id

/-- `b"git-lfs-delta-ready"`. -/
def probeContent : Bytes := "git-lfs-delta-ready".toList.map fun c => UInt8.ofNat c.toNat

/-- How long a probe vouches for the store, in milliseconds.
mirrors crates/git-lfs-delta-server/src/lib.rs:532 -/
def probePeriod : Nat := 10000

/-- `put`, or `delete` for no content. -/
def Provider.set (p : Provider) (path : Text) (content : Option Bytes) : Provider :=
  fun q => if q = path then content else p q

/-- Probes have a prefix of their own. -/
theorem reserved_ne (x y : Text) : "_health/".toList ++ x ≠ "repositories/".toList ++ y := by simp

theorem probePath_ne_chunkPath (id r : Uuid) (c : ChunkId) : probePath id ≠ chunkPath r c :=
  reserved_ne _ _

theorem probePath_injective {a b : Uuid} (h : probePath a = probePath b) : a = b := by
  unfold probePath at h
  rw [List.append_right_inj] at h
  exact uuidText_injective h

/-! ## The calls -/

inductive ReadinessError
  | database
  | provider (error : String)
  | mismatch
  deriving DecidableEq, Repr

/-- Where a call waits. -/
inductive ReadyPhase
  | idle
  | pinging
  | checking
  | putting (id : Uuid)
  | getting (id : Uuid)
  | deleting (id : Uuid) (actual : Bytes)
  /-- For the lock, with the new deadline. -/
  | marking (deadline : Nat)
  | answered (result : Except ReadinessError Unit)

/-- The probe of a call. -/
def ReadyPhase.probe? : ReadyPhase → Option Uuid
  | .putting id | .getting id | .deleting id _ => some id
  | _ => none

/-- The probe of a call that has written its object. -/
def ReadyPhase.stored? : ReadyPhase → Option Uuid
  | .getting id | .deleting id _ => some id
  | _ => none

def ReadyPhase.isReady : ReadyPhase → Bool
  | .answered (.ok ()) => true
  | _ => false

structure ReadyCall where
  phase : ReadyPhase
  /-- Ghost: when the database answered. -/
  pinged : Nat
  /-- Ghost: when the store was found to be ready. -/
  relied : Nat

structure ReadyState (ι : Type) where
  provider : Provider
  clock : Nat
  storageReadyUntil : Option Nat
  calls : ι → ReadyCall
  /-- Ghost: when probes have succeeded. -/
  successes : List Nat
  /-- Ghost: the probes that failed or were cut off. -/
  abandoned : List Uuid

inductive ReadyEvent (ι : Type)
  | advance (δ : Nat)
  /-- A chunk is written or removed. -/
  | chunk (r : Uuid) (c : ChunkId) (content : Option Bytes)
  | call (i : ι)
  | ping (i : ι) (answered : Bool)
  /-- The comparison with the deadline; `id` is `Uuid::new_v4()`. -/
  | check (i : ι) (id : Uuid)
  | put (i : ι) (effect : Bool) (result : Except String Unit)
  | get (i : ι) (result : Except String Unit)
  | delete (i : ι) (effect : Bool) (result : Except String Unit)
  | mark (i : ι)
  | drop (i : ι)

section System

variable {ι : Type} [DecidableEq ι]

/-- The call goes on to a phase. -/
def ReadyState.go (s : ReadyState ι) (i : ι) (phase : ReadyPhase) : ReadyState ι :=
  { s with calls := Function.update s.calls i { s.calls i with phase := phase } }

/-- The probe of a call fails. -/
def ReadyState.abandon (s : ReadyState ι) (i : ι) (id : Uuid) (e : String) : ReadyState ι :=
  { s.go i (.answered (.error (.provider e))) with abandoned := id :: s.abandoned }

/-- mirrors crates/git-lfs-delta-server/src/lib.rs:516-535 and
crates/git-lfs-delta-storage/src/lib.rs:115-139, one step at a time. -/
def readyStep (s : ReadyState ι) : ReadyEvent ι → Option (ReadyState ι)
  | .advance δ => some { s with clock := s.clock + δ }
  | .chunk r c content => some { s with provider := s.provider.set (chunkPath r c) content }
  | .call i =>
    match (s.calls i).phase with
    | .idle | .answered _ => some (s.go i .pinging)
    | _ => none
  | .ping i answered =>
    match (s.calls i).phase with
    | .pinging =>
      if answered then
        some { s with calls := Function.update s.calls i ⟨.checking, s.clock, (s.calls i).relied⟩ }
      else some (s.go i (.answered (.error .database)))
    | _ => none
  | .check i id =>
    match (s.calls i).phase with
    | .checking =>
      if s.storageReadyUntil.any fun deadline => s.clock < deadline then
        some { s with
          calls := Function.update s.calls i ⟨.answered (.ok ()), (s.calls i).pinged, s.clock⟩ }
      else some (s.go i (.putting id))
    | _ => none
  | .put i effect result =>
    match (s.calls i).phase, result with
    | .putting id, .ok () =>
      some { s.go i (.getting id) with provider := s.provider.set (probePath id) (some probeContent) }
    | .putting id, .error e =>
      some { s.abandon i id e with
        provider := if effect then s.provider.set (probePath id) (some probeContent) else s.provider }
    | _, _ => none
  | .get i result =>
    match (s.calls i).phase, result with
    | .getting id, .ok () => (s.provider (probePath id)).map fun actual => s.go i (.deleting id actual)
    | .getting id, .error e => some (s.abandon i id e)
    | _, _ => none
  | .delete i effect result =>
    match (s.calls i).phase, result with
    | .deleting id actual, .ok () =>
      if actual = probeContent then
        some { s with
          provider := s.provider.set (probePath id) none
          successes := s.clock :: s.successes
          calls := Function.update s.calls i
            ⟨.marking (s.clock + probePeriod), (s.calls i).pinged, s.clock⟩ }
      else
        some { s.go i (.answered (.error .mismatch)) with provider := s.provider.set (probePath id) none }
    | .deleting id _, .error e =>
      some { s.abandon i id e with
        provider := if effect then s.provider.set (probePath id) none else s.provider }
    | _, _ => none
  | .mark i =>
    match (s.calls i).phase with
    | .marking deadline => some { s.go i (.answered (.ok ())) with storageReadyUntil := some deadline }
    | _ => none
  | .drop i =>
    match (s.calls i).phase with
    | .idle | .answered _ => none
    | phase => some { s.go i .idle with abandoned := phase.probe?.toList ++ s.abandoned }

/-- The start of a server, on a store without probes. -/
structure ReadyState.Fresh (s : ReadyState ι) : Prop where
  deadline : s.storageReadyUntil = none
  idle : ∀ i, (s.calls i).phase = .idle
  clean : ∀ id, s.provider (probePath id) = none
  successes : s.successes = []

def readying : LTS (ReadyState ι) (ReadyEvent ι) := LTS.ofFn ReadyState.Fresh readyStep

/-! ## Chunks -/

/-- What an event does to the chunks. -/
def chunkEffect (store : Store) : ReadyEvent ι → Store
  | .chunk r c content => fun r' c' => if r' = r ∧ c' = c then content else store r' c'
  | _ => store

variable {s s' : ReadyState ι} {l : ReadyEvent ι}

/-- A call that is dropped leaves its probe behind. -/
theorem readyStep_drop {i : ι} (h : readyStep s (.drop i) = some s') :
    s' = { s.go i .idle with abandoned := (s.calls i).phase.probe?.toList ++ s.abandoned } := by
  simp only [readyStep] at h
  split at h
  · cases h
  · cases h
  · exact (Option.some.inj h).symm

omit [DecidableEq ι] in
theorem view_set_probe (p : Provider) (id : Uuid) (content : Option Bytes) :
    (p.set (probePath id) content).view = p.view := by
  funext r c
  simp [Provider.view, Provider.set, (probePath_ne_chunkPath id r c).symm]

/-- **Probes do not touch chunks.** -/
theorem readyStep_view (h : readyStep s l = some s') :
    s'.provider.view = chunkEffect s.provider.view l := by
  cases l with
  | chunk r c content =>
    cases h
    funext r' c'
    simp [Provider.view, Provider.set, chunkEffect, Provider.path_eq_iff]
  | advance δ => cases h; rfl
  | call i => simp only [readyStep] at h; split at h <;> cases h <;> rfl
  | ping i answered =>
    simp only [readyStep] at h
    split at h
    · split at h <;> cases h <;> rfl
    · cases h
  | check i id =>
    simp only [readyStep] at h
    split at h
    · split at h <;> cases h <;> rfl
    · cases h
  | mark i =>
    simp only [readyStep] at h
    split at h <;> cases h
    rfl
  | drop i =>
    rw [readyStep_drop h]
    rfl
  | put i effect result =>
    simp only [readyStep] at h
    split at h
    · cases h
      exact view_set_probe _ _ _
    · cases h
      cases effect
      · rfl
      · exact view_set_probe _ _ _
    · cases h
  | get i result =>
    simp only [readyStep] at h
    split at h
    · rw [Option.map_eq_some_iff] at h
      obtain ⟨actual, -, rfl⟩ := h
      rfl
    · cases h
      rfl
    · cases h
  | delete i effect result =>
    simp only [readyStep] at h
    split at h
    · split at h <;> cases h <;> exact view_set_probe _ _ _
    · cases h
      cases effect
      · rfl
      · exact view_set_probe _ _ _
    · cases h

theorem readying_view {s₀ : ReadyState ι} {ls : List (ReadyEvent ι)} (hrun : readying.Run s₀ ls s) :
    s.provider.view = ls.foldl chunkEffect s₀.provider.view := by
  induction hrun with
  | nil => rfl
  | cons hst _ ih => rw [List.foldl_cons, ← readyStep_view hst, ih]

/-! ## What every step keeps -/

/-- The store was found to be ready after the database had answered, by a probe less than ten seconds
before. -/
structure Vouched (s : ReadyState ι) (call : ReadyCall) : Prop where
  pinged : call.pinged ≤ call.relied
  past : call.relied ≤ s.clock
  probe : ∃ t ∈ s.successes, t ≤ call.relied ∧ call.relied < t + probePeriod

def ReadyCall.Ok (s : ReadyState ι) (call : ReadyCall) : Prop :=
  match call.phase with
  | .idle | .pinging => True
  | .checking | .putting _ | .getting _ => call.pinged ≤ s.clock
  | .deleting _ actual => call.pinged ≤ s.clock ∧ actual = probeContent
  | .marking deadline => Vouched s call ∧ ∃ t ∈ s.successes, deadline = t + probePeriod
  | .answered (.ok ()) => Vouched s call
  | .answered (.error e) => e ≠ .mismatch

structure ReadyInv (s : ReadyState ι) : Prop where
  past : ∀ t ∈ s.successes, t ≤ s.clock
  deadline : ∀ u, s.storageReadyUntil = some u → ∃ t ∈ s.successes, u = t + probePeriod
  calls : ∀ i, (s.calls i).Ok s
  content : ∀ id b, s.provider (probePath id) = some b → b = probeContent
  left : ∀ id b, s.provider (probePath id) = some b →
    id ∈ s.abandoned ∨ ∃ i, (s.calls i).phase.probe? = some id

omit [DecidableEq ι] in
theorem Vouched.mono {call : ReadyCall} (h : Vouched s call) (hclock : s.clock ≤ s'.clock)
    (hsucc : ∀ t ∈ s.successes, t ∈ s'.successes) : Vouched s' call where
  pinged := h.pinged
  past := h.past.trans hclock
  probe := by
    obtain ⟨t, ht, hle⟩ := h.probe
    exact ⟨t, hsucc t ht, hle⟩

omit [DecidableEq ι] in
/-- What holds of a call goes on to hold while the others take their steps. -/
theorem ReadyCall.Ok.mono {call : ReadyCall} (h : call.Ok s) (hclock : s.clock ≤ s'.clock)
    (hsucc : ∀ t ∈ s.successes, t ∈ s'.successes) : call.Ok s' := by
  unfold ReadyCall.Ok at h ⊢
  split at h
  · trivial
  · trivial
  · exact h.trans hclock
  · exact h.trans hclock
  · exact h.trans hclock
  · exact ⟨h.1.trans hclock, h.2⟩
  · obtain ⟨hv, t, ht, hd⟩ := h
    exact ⟨hv.mono hclock hsucc, t, hsucc t ht, hd⟩
  · exact h.mono hclock hsucc
  · exact h

omit [DecidableEq ι] in
/-- What a call is known to have at its phase. -/
theorem ReadyInv.call (h : ReadyInv s) {i : ι} {phase : ReadyPhase} (hphase : (s.calls i).phase = phase) :
    ReadyCall.Ok s { s.calls i with phase := phase } := by
  subst hphase
  exact h.calls i

omit [DecidableEq ι] in
/-- A call has one probe only. -/
theorem probe_ne {phase : ReadyPhase} {id id' : Uuid} (h : phase.probe? = some id) (hne : id' ≠ id) :
    phase.probe? ≠ some id' := by
  rw [h]
  exact fun heq => hne (Option.some.inj heq).symm

/-- A step of one call, given what it does to its probe. -/
theorem ReadyInv.move (h : ReadyInv s) {i : ι} {call : ReadyCall}
    (hcalls : s'.calls = Function.update s.calls i call) (hclock : s'.clock = s.clock)
    (hsucc : ∀ t ∈ s.successes, t ∈ s'.successes) (hpast : ∀ t ∈ s'.successes, t ≤ s.clock)
    (hdeadline : ∀ u, s'.storageReadyUntil = some u → ∃ t ∈ s'.successes, u = t + probePeriod)
    (hcall : call.Ok s') (habandoned : ∀ id ∈ s.abandoned, id ∈ s'.abandoned)
    (hprobe : ∀ id b, s'.provider (probePath id) = some b → b = probeContent ∧
      (id ∈ s'.abandoned ∨ call.phase.probe? = some id ∨
        (∃ b', s.provider (probePath id) = some b') ∧ (s.calls i).phase.probe? ≠ some id)) :
    ReadyInv s' where
  past t ht := hclock ▸ hpast t ht
  deadline := hdeadline
  calls j := by
    rw [hcalls]
    by_cases hj : j = i
    · subst hj
      rwa [Function.update_self]
    · rw [Function.update_of_ne hj]
      exact (h.calls j).mono hclock.ge hsucc
  content id b hb := (hprobe id b hb).1
  left id b hb := by
    rcases (hprobe id b hb).2 with hleft | hown | ⟨⟨b', hb'⟩, hother⟩
    · exact .inl hleft
    · refine .inr ⟨i, ?_⟩
      rwa [hcalls, Function.update_self]
    · rcases h.left id b' hb' with hleft | ⟨j, hj⟩
      · exact .inl (habandoned id hleft)
      · have hne : j ≠ i := by
          rintro rfl
          exact hother hj
        refine .inr ⟨j, ?_⟩
        rwa [hcalls, Function.update_of_ne hne]

omit [DecidableEq ι] in
/-- What lies under the path of a probe that is written or removed. -/
theorem set_probe {p : Provider} {id id' : Uuid} {content : Option Bytes} {b : Bytes}
    (h : p.set (probePath id) content (probePath id') = some b) :
    id' = id ∧ content = some b ∨ id' ≠ id ∧ p (probePath id') = some b := by
  unfold Provider.set at h
  split at h
  · rename_i heq
    exact .inl ⟨probePath_injective heq, h⟩
  · rename_i hne
    exact .inr ⟨fun e => hne (congrArg probePath e), h⟩

/-- A step that leaves the store and the past alone, of a call without a probe. -/
theorem ReadyInv.quiet (h : ReadyInv s) {i : ι} {call : ReadyCall} (hnone : (s.calls i).phase.probe? = none)
    (hcall : call.Ok s) : ReadyInv { s with calls := Function.update s.calls i call } := by
  refine h.move rfl rfl (fun _ ht => ht) h.past h.deadline (hcall.mono le_rfl fun _ ht => ht)
    (fun _ ha => ha) fun id b hb => ⟨h.content id b hb, .inr (.inr ⟨⟨b, hb⟩, ?_⟩)⟩
  rw [hnone]
  exact (Option.some_ne_none id).symm

/-- A probe fails, whatever it has done to its object. -/
theorem ReadyInv.abandon (h : ReadyInv s) {i : ι} {id : Uuid} {e : String} {provider : Provider}
    (hid : (s.calls i).phase.probe? = some id)
    (hprovider : provider = s.provider ∨ ∃ content, (content = none ∨ content = some probeContent) ∧
      provider = s.provider.set (probePath id) content) :
    ReadyInv { s.abandon i id e with provider := provider } := by
  refine h.move (i := i) rfl rfl (fun _ ht => ht) h.past h.deadline ReadinessError.noConfusion
    (fun _ ha => List.mem_cons_of_mem _ ha) fun id' b hb => ?_
  have old : s.provider (probePath id') = some b → b = probeContent ∧
      (id' ∈ id :: s.abandoned ∨ ReadyPhase.probe? (.answered (.error (.provider e))) = some id' ∨
        (∃ b', s.provider (probePath id') = some b') ∧ (s.calls i).phase.probe? ≠ some id') := by
    intro hb
    refine ⟨h.content id' b hb, ?_⟩
    by_cases heq : id' = id
    · exact .inl (heq ▸ List.mem_cons_self)
    · exact .inr (.inr ⟨⟨b, hb⟩, probe_ne hid heq⟩)
  rcases hprovider with rfl | ⟨content, hcontent, rfl⟩
  · exact old hb
  · rcases set_probe hb with ⟨rfl, hc⟩ | ⟨-, hb⟩
    · rcases hcontent with rfl | rfl
      · cases hc
      · exact ⟨(Option.some.inj hc).symm, .inl List.mem_cons_self⟩
    · exact old hb

theorem readyInv_step (h : ReadyInv s) (hst : readyStep s l = some s') : ReadyInv s' := by
  cases l with
  | advance δ =>
    cases hst
    refine ⟨fun t ht => (h.past t ht).trans (Nat.le_add_right _ _), h.deadline, fun i => ?_, h.content,
      h.left⟩
    exact (h.calls i).mono (Nat.le_add_right _ _) fun _ ht => ht
  | chunk r c content =>
    cases hst
    have hsame : ∀ id, s.provider.set (chunkPath r c) content (probePath id) = s.provider (probePath id) :=
      fun id => if_neg (probePath_ne_chunkPath id r c)
    refine ⟨h.past, h.deadline, fun i => (h.calls i).mono le_rfl fun _ ht => ht, fun id b hb => ?_,
      fun id b hb => ?_⟩
    · exact h.content id b (hsame id ▸ hb)
    · exact h.left id b (hsame id ▸ hb)
  | call i =>
    simp only [readyStep] at hst
    split at hst
    · rename_i hphase
      cases hst
      exact h.quiet (by rw [hphase]; rfl) trivial
    · rename_i hphase
      cases hst
      exact h.quiet (by rw [hphase]; rfl) trivial
    · cases hst
  | ping i answered =>
    simp only [readyStep] at hst
    split at hst
    · rename_i hphase
      have hnone : (s.calls i).phase.probe? = none := by rw [hphase]; rfl
      split at hst
      · cases hst
        exact h.quiet hnone (le_refl s.clock)
      · cases hst
        exact h.quiet hnone ReadinessError.noConfusion
    · cases hst
  | check i id =>
    simp only [readyStep] at hst
    split at hst
    · rename_i hphase
      have hnone : (s.calls i).phase.probe? = none := by rw [hphase]; rfl
      have hok := h.call hphase
      split at hst
      · rename_i hfresh
        obtain ⟨u, hu, hlt⟩ := (Option.any_eq_true _ _).1 hfresh
        obtain ⟨t, ht, rfl⟩ := h.deadline u hu
        cases hst
        exact h.quiet hnone ⟨hok, le_rfl, t, ht, h.past t ht, by simpa using hlt⟩
      · cases hst
        exact h.quiet hnone hok
    · cases hst
  | put i effect result =>
    simp only [readyStep] at hst
    split at hst
    · rename_i id hphase
      have hid : (s.calls i).phase.probe? = some id := by rw [hphase]; rfl
      have hok := h.call hphase
      cases hst
      refine h.move (i := i) rfl rfl (fun _ ht => ht) h.past h.deadline hok (fun _ ha => ha)
        fun id' b hb => ?_
      rcases set_probe hb with ⟨rfl, hc⟩ | ⟨hne, hb⟩
      · exact ⟨(Option.some.inj hc).symm, .inr (.inl rfl)⟩
      · exact ⟨h.content id' b hb, .inr (.inr ⟨⟨b, hb⟩, probe_ne hid hne⟩)⟩
    · rename_i id e hphase
      cases hst
      refine h.abandon (by rw [hphase]; rfl) ?_
      cases effect
      · exact .inl rfl
      · exact .inr ⟨_, .inr rfl, rfl⟩
    · cases hst
  | get i result =>
    simp only [readyStep] at hst
    split at hst
    · rename_i id hphase
      have hid : (s.calls i).phase.probe? = some id := by rw [hphase]; rfl
      have hok := h.call hphase
      rw [Option.map_eq_some_iff] at hst
      obtain ⟨actual, hactual, rfl⟩ := hst
      refine h.move (i := i) rfl rfl (fun _ ht => ht) h.past h.deadline ⟨hok, h.content id actual hactual⟩
        (fun _ ha => ha) fun id' b hb => ⟨h.content id' b hb, ?_⟩
      by_cases heq : id' = id
      · exact .inr (.inl (heq ▸ rfl))
      · exact .inr (.inr ⟨⟨b, hb⟩, probe_ne hid heq⟩)
    · rename_i id e hphase
      cases hst
      exact h.abandon (by rw [hphase]; rfl) (.inl rfl)
    · cases hst
  | delete i effect result =>
    simp only [readyStep] at hst
    split at hst
    · rename_i id actual hphase
      have hid : (s.calls i).phase.probe? = some id := by rw [hphase]; rfl
      have hok := h.call hphase
      obtain ⟨hpinged, rfl⟩ := hok
      rw [if_pos rfl] at hst
      cases hst
      have hnow : s.clock ∈ s.clock :: s.successes := List.mem_cons_self
      have hvouched : s.clock < s.clock + probePeriod := Nat.lt_add_of_pos_right (by decide)
      refine h.move (i := i) rfl rfl (fun _ ht => List.mem_cons_of_mem _ ht) (fun t ht => ?_) (fun u hu => ?_)
        ⟨⟨hpinged, le_rfl, s.clock, hnow, le_rfl, hvouched⟩, s.clock, hnow, rfl⟩ (fun _ ha => ha)
        fun id' b hb => ?_
      · rcases List.mem_cons.1 ht with rfl | ht
        · exact le_rfl
        · exact h.past t ht
      · obtain ⟨t, ht, hu⟩ := h.deadline u hu
        exact ⟨t, List.mem_cons_of_mem _ ht, hu⟩
      · rcases set_probe hb with ⟨-, hc⟩ | ⟨hne, hb⟩
        · cases hc
        · exact ⟨h.content id' b hb, .inr (.inr ⟨⟨b, hb⟩, probe_ne hid hne⟩)⟩
    · rename_i id actual e hphase
      cases hst
      refine h.abandon (by rw [hphase]; rfl) ?_
      cases effect
      · exact .inl rfl
      · exact .inr ⟨_, .inl rfl, rfl⟩
    · cases hst
  | mark i =>
    simp only [readyStep] at hst
    split at hst
    · rename_i deadline hphase
      have hok := h.call hphase
      cases hst
      refine h.move (i := i) rfl rfl (fun _ ht => ht) h.past (fun u hu => ?_)
        ⟨hok.1.pinged, hok.1.past, hok.1.probe⟩ (fun _ ha => ha)
        fun id b hb => ⟨h.content id b hb, .inr (.inr ⟨⟨b, hb⟩, ?_⟩)⟩
      · exact Option.some.inj hu ▸ hok.2
      · rw [hphase]
        exact (Option.some_ne_none id).symm
    · cases hst
  | drop i =>
    obtain rfl := readyStep_drop hst
    refine h.move (i := i) rfl rfl (fun _ ht => ht) h.past h.deadline trivial
      (fun _ ha => List.mem_append_right _ ha) fun id b hb => ⟨h.content id b hb, ?_⟩
    by_cases hid : (s.calls i).phase.probe? = some id
    · exact .inl (List.mem_append_left _ (by rw [hid]; exact List.mem_singleton_self id))
    · exact .inr (.inr ⟨⟨b, hb⟩, hid⟩)

theorem readyInv_inductive : (readying : LTS (ReadyState ι) (ReadyEvent ι)).Inductive ReadyInv where
  init s hs := by
    refine ⟨fun t ht => ?_, fun u hu => ?_, fun i => ?_, fun id b hb => ?_, fun id b hb => ?_⟩
    · rw [hs.successes] at ht
      cases ht
    · rw [hs.deadline] at hu
      cases hu
    · unfold ReadyCall.Ok
      rw [hs.idle i]
      trivial
    · rw [hs.clean id] at hb
      cases hb
    · rw [hs.clean id] at hb
      cases hb
  step _ _ _ h hst := readyInv_step h hst

/-! ## A store that serves -/

/-- The store does what it is asked, and no two probes under way have one identity. -/
def Compliant (s : ReadyState ι) : ReadyEvent ι → Prop
  | .check _ id => ∀ j, (s.calls j).phase.probe? ≠ some id
  | .put _ _ result | .delete _ _ result => result = .ok ()
  | .get i (.error _) => ∀ id, (s.calls i).phase = .getting id → s.provider (probePath id) = none
  | _ => True

/-- Each probe has its own object, and nobody else takes it away. -/
structure CompliantInv (s : ReadyState ι) : Prop where
  apart : ∀ i j id, (s.calls i).phase.probe? = some id → (s.calls j).phase.probe? = some id → i = j
  there : ∀ i id, (s.calls i).phase.stored? = some id → (s.provider (probePath id)).isSome
  answered : ∀ i e, (s.calls i).phase ≠ .answered (.error (.provider e))

theorem probe_of_stored {phase : ReadyPhase} {id : Uuid} (h : phase.stored? = some id) :
    phase.probe? = some id := by
  cases phase <;> first | exact h | cases h

theorem CompliantInv.move (h : CompliantInv s) {i : ι} {call : ReadyCall}
    (hcalls : s'.calls = Function.update s.calls i call)
    (hprobe : ∀ id, call.phase.probe? = some id →
      (s.calls i).phase.probe? = some id ∨ ∀ j, (s.calls j).phase.probe? ≠ some id)
    (hown : ∀ id, call.phase.stored? = some id → (s'.provider (probePath id)).isSome)
    (hothers : ∀ id, (s.calls i).phase.probe? ≠ some id →
      s'.provider (probePath id) = s.provider (probePath id))
    (hanswer : ∀ e, call.phase ≠ .answered (.error (.provider e))) : CompliantInv s' where
  apart j k id hj hk := by
    rw [hcalls] at hj hk
    -- nobody else has the probe that the call goes on with
    have sole : ∀ v, v ≠ i → (s.calls v).phase.probe? = some id → call.phase.probe? ≠ some id := by
      intro v hv hvid hid
      rcases hprobe id hid with hsame | hnew
      · exact hv (h.apart v i id hvid hsame)
      · exact hnew v hvid
    by_cases ej : j = i <;> by_cases ek : k = i
    · rw [ej, ek]
    · subst ej
      rw [Function.update_self] at hj
      rw [Function.update_of_ne ek] at hk
      exact absurd hj (sole k ek hk)
    · subst ek
      rw [Function.update_self] at hk
      rw [Function.update_of_ne ej] at hj
      exact absurd hk (sole j ej hj)
    · rw [Function.update_of_ne ej] at hj
      rw [Function.update_of_ne ek] at hk
      exact h.apart j k id hj hk
  there j id hj := by
    rw [hcalls] at hj
    by_cases ej : j = i
    · subst ej
      rw [Function.update_self] at hj
      exact hown id hj
    · rw [Function.update_of_ne ej] at hj
      rw [hothers id fun hi => ej (h.apart j i id (probe_of_stored hj) hi)]
      exact h.there j id hj
  answered j e := by
    rw [hcalls]
    by_cases ej : j = i
    · subst ej
      rw [Function.update_self]
      exact hanswer e
    · rw [Function.update_of_ne ej]
      exact h.answered j e

/-- A step that ends, or comes before, the probe of a call. -/
theorem CompliantInv.quiet (h : CompliantInv s) {i : ι} {call : ReadyCall}
    (hcalls : s'.calls = Function.update s.calls i call) (hnone : call.phase.probe? = none)
    (hothers : ∀ id, (s.calls i).phase.probe? ≠ some id →
      s'.provider (probePath id) = s.provider (probePath id))
    (hanswer : ∀ e, call.phase ≠ .answered (.error (.provider e))) : CompliantInv s' := by
  refine h.move hcalls (fun id hid => ?_) (fun id hid => ?_) hothers hanswer
  · rw [hnone] at hid
    cases hid
  · rw [probe_of_stored hid] at hnone
    cases hnone

omit [DecidableEq ι] in
theorem set_elsewhere {p : Provider} {id : Uuid} {content : Option Bytes} {phase : ReadyPhase}
    (hphase : phase.probe? = some id) (id' : Uuid) (hne : phase.probe? ≠ some id') :
    p.set (probePath id) content (probePath id') = p (probePath id') := by
  refine if_neg fun heq => hne ?_
  rw [hphase, probePath_injective heq]

theorem compliantInv_step (h : CompliantInv s) (hcompliant : Compliant s l) (hst : readyStep s l = some s') :
    CompliantInv s' := by
  cases l with
  | advance δ =>
    cases hst
    exact ⟨h.apart, h.there, h.answered⟩
  | chunk r c content =>
    cases hst
    refine ⟨h.apart, fun i id hi => ?_, h.answered⟩
    have hsame : s.provider.set (chunkPath r c) content (probePath id) = s.provider (probePath id) :=
      if_neg (probePath_ne_chunkPath id r c)
    exact hsame ▸ h.there i id hi
  | call i =>
    simp only [readyStep] at hst
    split at hst <;> cases hst
    · exact h.quiet rfl rfl (fun _ _ => rfl) fun _ => ReadyPhase.noConfusion
    · exact h.quiet rfl rfl (fun _ _ => rfl) fun _ => ReadyPhase.noConfusion
  | ping i answered =>
    simp only [readyStep] at hst
    split at hst
    · split at hst <;> cases hst
      · exact h.quiet rfl rfl (fun _ _ => rfl) fun _ => ReadyPhase.noConfusion
      · exact h.quiet rfl rfl (fun _ _ => rfl) (by simp)
    · cases hst
  | check i id =>
    simp only [readyStep] at hst
    split at hst
    · split at hst <;> cases hst
      · exact h.quiet rfl rfl (fun _ _ => rfl) (by simp)
      · refine h.move (i := i) rfl (fun id' hid => .inr ?_) (fun _ hid => by cases hid) (fun _ _ => rfl)
          fun _ => ReadyPhase.noConfusion
        exact Option.some.inj hid ▸ hcompliant
    · cases hst
  | put i effect result =>
    obtain rfl : result = .ok () := hcompliant
    simp only [readyStep] at hst
    split at hst
    · rename_i id hphase heq
      have hid : (s.calls i).phase.probe? = some id := by rw [hphase]; rfl
      cases hst
      refine h.move (i := i) rfl (fun id' hid' => .inl ?_) (fun id' hid' => ?_) (set_elsewhere hid)
        fun _ => ReadyPhase.noConfusion
      · exact hid.trans hid'
      · cases hid'
        simp [Provider.set]
    · rename_i heq
      cases heq
    · cases hst
  | get i result =>
    simp only [readyStep] at hst
    split at hst
    · rename_i id hphase
      have hid : (s.calls i).phase.stored? = some id := by rw [hphase]; rfl
      rw [Option.map_eq_some_iff] at hst
      obtain ⟨actual, hactual, rfl⟩ := hst
      refine h.move (i := i) rfl (fun id' hid' => .inl ?_) (fun id' hid' => ?_) (fun _ _ => rfl)
        fun _ => ReadyPhase.noConfusion
      · exact (probe_of_stored hid).trans hid'
      · cases hid'
        exact h.there i id hid
    · rename_i id e hphase
      -- the object of the probe is there, so the store finds it
      have hthere := h.there i id (by rw [hphase]; rfl)
      rw [hcompliant id hphase] at hthere
      cases hthere
    · cases hst
  | delete i effect result =>
    obtain rfl : result = .ok () := hcompliant
    simp only [readyStep] at hst
    split at hst
    · rename_i id actual hphase heq
      have hid : (s.calls i).phase.probe? = some id := by rw [hphase]; rfl
      split at hst <;> cases hst
      · exact h.quiet rfl rfl (set_elsewhere hid) fun _ => ReadyPhase.noConfusion
      · exact h.quiet rfl rfl (set_elsewhere hid) (by simp)
    · rename_i heq
      cases heq
    · cases hst
  | mark i =>
    simp only [readyStep] at hst
    split at hst
    · cases hst
      exact h.quiet (i := i) rfl rfl (fun _ _ => rfl) (by simp)
    · cases hst
  | drop i =>
    obtain rfl := readyStep_drop hst
    exact h.quiet (i := i) rfl rfl (fun _ _ => rfl) fun _ => ReadyPhase.noConfusion

theorem compliantInv_inductive :
    ((readying : LTS (ReadyState ι) (ReadyEvent ι)).guard Compliant).Inductive CompliantInv where
  init s hs := by
    refine ⟨fun i j id hi => ?_, fun i id hi => ?_, fun i e he => ?_⟩
    · rw [hs.idle i] at hi
      cases hi
    · rw [hs.idle i] at hi
      cases hi
    · rw [hs.idle i] at he
      cases he
  step _ _ _ h hst := compliantInv_step h hst.1 hst.2

/-- **What `/readyz` says is so.** In every interleaving of calls, of their probes and of chunk
operations, with requests that fail and calls that are dropped at any point: the chunks are what the
chunk operations have made of them; a call that answered 204 had the database's answer and found,
after it, a probe that had succeeded less than ten seconds before; no probe reads what it has not
written; every object left under the reserved prefix is of a probe that is under way, has failed or was
cut off; and where the store serves every request, no call fails because of it. -/
theorem readiness_sound (s₀ s : ReadyState ι) (ls : List (ReadyEvent ι)) (hinit : s₀.Fresh)
    (hrun : readying.Run s₀ ls s) :
    s.provider.view = ls.foldl chunkEffect s₀.provider.view ∧
      (∀ i, (s.calls i).phase = .answered (.ok ()) → Vouched s (s.calls i)) ∧
      (∀ i, (s.calls i).phase ≠ .answered (.error .mismatch)) ∧
      (∀ id b, s.provider (probePath id) = some b →
        b = probeContent ∧ (id ∈ s.abandoned ∨ ∃ i, (s.calls i).phase.probe? = some id)) ∧
      ((readying.guard Compliant).Run s₀ ls s →
        ∀ i e, (s.calls i).phase ≠ .answered (.error (.provider e))) := by
  have h : ReadyInv s := readyInv_inductive.run hrun (readyInv_inductive.init s₀ hinit)
  refine ⟨readying_view hrun, fun i hi => ?_, fun i hi => ?_,
    fun id b hb => ⟨h.content id b hb, h.left id b hb⟩, fun hcompliant => ?_⟩
  · have hv : Vouched s _ := h.call hi
    exact ⟨hv.pinged, hv.past, hv.probe⟩
  · have hne : ReadinessError.mismatch ≠ .mismatch := h.call hi
    exact hne rfl
  · exact (compliantInv_inductive.run hcompliant (compliantInv_inductive.init s₀ hinit)).answered

end System

namespace Sample

/-- A server nobody has asked, on an empty store. -/
def unasked : ReadyState Unit := ⟨fun _ => none, 0, none, fun _ => ⟨.idle, 0, 0⟩, [], []⟩

/-- A call with its probe, and a call the probe vouches for. -/
def askedTwice : List (ReadyEvent Unit) :=
  [.call (), .ping () true, .check () 7, .put () false (.ok ()), .get () (.ok ()), .delete () false (.ok ()),
   .mark (), .advance 9999, .call (), .ping () true, .check () 8]

end Sample

open Sample in
/-- The second of two calls relies on the probe of the first. -/
theorem readiness_sound_twice : ∃ s, readying.Run unasked askedTwice s ∧
    (s.calls ()).phase.isReady = true ∧
    s.provider.view = askedTwice.foldl chunkEffect unasked.provider.view ∧
      (∀ i, (s.calls i).phase = .answered (.ok ()) → Vouched s (s.calls i)) ∧
      (∀ i, (s.calls i).phase ≠ .answered (.error .mismatch)) ∧
      (∀ id b, s.provider (probePath id) = some b →
        b = probeContent ∧ (id ∈ s.abandoned ∨ ∃ i, (s.calls i).phase.probe? = some id)) ∧
      ((readying.guard Compliant).Run unasked askedTwice s →
        ∀ i e, (s.calls i).phase ≠ .answered (.error (.provider e))) := by
  obtain ⟨s, hrun, hready⟩ : ∃ s, readying.Run unasked askedTwice s ∧
      (s.calls ()).phase.isReady = true := LTS.exists_run_of_exec (by decide +kernel)
  exact ⟨s, hrun, hready,
    readiness_sound unasked s askedTwice ⟨rfl, fun _ => rfl, fun _ => rfl, rfl⟩ hrun⟩

end GitLfsDelta
