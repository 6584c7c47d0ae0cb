import GitLfsDelta.L3Server.Success
import GitLfsDelta.L4System.Publication
import GitLfsDelta.L5Client.Backend
import Mathlib.Algebra.BigOperators.Group.Finset.Basic
import Mathlib.Algebra.Order.BigOperators.Group.Finset

/-!
# Concurrent uploads of one object (`HttpBackend::upload`)

Any number of clients upload the same bytes to one repository of the server. A client
begins, sends one `PUT` for every index its plan lists, in any order and concurrently, and
finalizes when all of them are answered. Its requests are processes of the server: slot
`(k, none)` carries `begin_cdc` and then `finalize_cdc` of client `k`, slot `(k, some i)`
its `PUT` of chunk `i`. `Source.Sends` is what the client's code lets it send next;
`Source.Honest` are the steps of a system of such clients, where no session expires and
nothing is collected or cut off. A `PUT` that waits for its permit, its authentication or its
repository is `.idle` here: it starts with `load_open_upload`.

The first client to finalize closes the session for all: a `PUT` of another client that has not
passed `load_open_upload` by then is answered 404, which is not retried, and its upload fails
(`late_put_fails`). `uploads_converge`: in every run where no session is finalized while there is
such a `PUT` (`NoPendingPut`), every client succeeds and one `objects` row is inserted.
-/
namespace GitLfsDelta

/-! ## The client -/

/-- What the clients upload: the bytes, the chunks and the manifest `ChunkStream` makes of
them, which the server's limits admit. -/
structure Source (H : Hashes) (cut : Cutter) where
  repository : Uuid
  body : Bytes
  chunks : List Chunk
  manifest : ObjectManifest
  chunked : chunkObject H cut body = .ok (chunks, manifest)
  valid : manifest.validate = .ok ()

/-- The checks of `upload` on the plan it received.
mirrors crates/git-lfs-delta-client/src/backend.rs:284-304 -/
def PlanAccepted (m : ObjectManifest) (missing : List Nat) : Prop :=
  (∀ i ∈ missing, i < m.chunks.length) ∧ missing.Nodup

instance (m : ObjectManifest) (missing : List Nat) : Decidable (PlanAccepted m missing) := by
  unfold PlanAccepted; infer_instance

/-- The plan a process has replied with. -/
def Proc.plan? : Proc → Option (Uuid × List Nat)
  | .done (.plan u missing) => some (u, missing)
  | _ => none

/-- The request a client sends next on a slot, given its `main` slot and its `PUT`s.
mirrors crates/git-lfs-delta-client/src/backend.rs:267-356 -/
def Source.Sends {H : Hashes} {cut : Cutter} (src : Source H cut) (main : Proc) (puts : Nat → Proc) :
    Option Nat → Request → Prop
  | none, .beginCdc r oid v m _ =>
    main = .idle ∧ r = src.repository ∧ oid = src.manifest.objectOid ∧ v = 1 ∧ m = src.manifest
  | some i, .uploadCdcChunk r oid u index bytes =>
    puts i = .idle ∧ r = src.repository ∧ oid = src.manifest.objectOid ∧ index = i ∧
      (∃ plan ∈ main.plan?, plan.1 = u ∧ PlanAccepted src.manifest plan.2 ∧ i ∈ plan.2) ∧
      src.chunks[i]?.map (·.data) = some bytes
  | none, .finalizeCdc r oid u =>
    r = src.repository ∧ oid = src.manifest.objectOid ∧
      ∃ plan ∈ main.plan?, plan.1 = u ∧ PlanAccepted src.manifest plan.2 ∧
        ∀ i ∈ plan.2, puts i = .done .noContent
  | _, _ => False

instance {H : Hashes} {cut : Cutter} (src : Source H cut) (main : Proc) (puts : Nat → Proc)
    (slot : Option Nat) (request : Request) : Decidable (src.Sends main puts slot request) := by
  unfold Source.Sends
  split <;> infer_instance

variable {κ : Type} [DecidableEq κ] {H : Hashes} {cut : Cutter}

/-- The steps of a system of honest clients: they send what `upload` sends, the server
works on their requests, and time passes without a session of the object expiring. -/
def Source.Honest (src : Source H cut) (s : State (κ × Option Nat)) : Label (κ × Option Nat) → Prop
  | .advance δ => ∀ x ∈ s.db.sessions, x.repositoryId = src.repository →
      x.objectOid = src.manifest.objectOid → x.state = .opened → s.clock + δ < x.expiresAt
  | .act p (.start request) =>
    src.Sends (s.procs (p.1, none)) (fun i => s.procs (p.1, some i)) p.2 request
  | .act _ (.next choice) => choice = .auto
  | .act _ .kill => False

instance (src : Source H cut) (s : State (κ × Option Nat)) (l : Label (κ × Option Nat)) :
    Decidable (src.Honest s l) := by
  unfold Source.Honest
  split <;> infer_instance

/-- The client has, or is being given, a plan for the session with an index whose `PUT` has not passed
`load_open_upload` yet, sent or not. -/
def Pending (main : Proc) (puts : Nat → Proc) (u : Uuid) : Prop :=
  match main with
  | .probing u' _ _ _ missing => u' = u ∧ missing ≠ []
  | .done (.plan u' missing) => u' = u ∧ ∃ i ∈ missing, puts i = .idle
  | _ => False

instance (main : Proc) (puts : Nat → Proc) (u : Uuid) : Decidable (Pending main puts u) :=
  decidable_of_iff
    ((match main with
      | .probing u' _ _ _ missing => u' = u ∧ missing ≠ []
      | .done (.plan u' missing) => u' = u ∧ ∃ i ∈ missing, puts i = .idle
      | _ => false) = true)
    (by unfold Pending; split <;> simp)

/-- The step does not publish in a session for which some client's `PUT` has not passed
`load_open_upload` yet. -/
def NoPendingPut (s : State (κ × Option Nat)) : Label (κ × Option Nat) → Prop
  | .act p (.next .auto) =>
    match s.procs p with
    | .verifying _ _ u _ [] _ =>
      ∀ k, ¬ Pending (s.procs (k, none)) (fun i => s.procs (k, some i)) u
    | _ => True
  | _ => True

instance [Fintype κ] (s : State (κ × Option Nat)) (l : Label (κ × Option Nat)) :
    Decidable (NoPendingPut s l) := by
  unfold NoPendingPut
  split
  · split <;> infer_instance
  · infer_instance

namespace Source

variable (src : Source H cut)

/-- A server the clients can start on: none of them has begun, the object is neither being
uploaded nor published, and what the repository has of its chunks is sound. An empty
server is one (`ready_initial`). -/
structure Ready (s : State (κ × Option Nat)) : Prop where
  inv : SharedInv H s.toShared
  idle : ∀ p, s.procs p = .idle
  locks : s.locks = []
  unbegun : ∀ x ∈ s.db.sessions, x.repositoryId = src.repository →
    x.objectOid = src.manifest.objectOid → x.state ≠ .opened
  unpublished : s.db.objects.get? (src.repository, src.manifest.objectOid) = none
  sizes : ∀ c ∈ src.chunks, ∀ k ∈ s.db.chunks, k.key = (src.repository, c.descriptor.id) →
    k.size = c.data.length
  stored : ∀ c ∈ src.chunks, ∀ b, s.store src.repository c.descriptor.id = some b → b = c.data

/-- Every interleaving of honest clients of one object. -/
def clients (src : Source H cut) : LTS (State (κ × Option Nat)) (Label (κ × Option Nat)) :=
  (LTS.ofFn src.Ready (step H cut)).guard src.Honest

omit [DecidableEq κ] in
theorem ready_initial (t : Nat) : src.Ready (.initial t : State (κ × Option Nat)) where
  inv := sharedInv_initial H t
  idle _ := rfl
  locks := rfl
  unbegun x hx := absurd hx (Table.not_mem_empty x)
  unpublished := rfl
  sizes _ _ k hk := absurd hk (Table.not_mem_empty k)
  stored _ _ _ h := nomatch h

end Source
end GitLfsDelta
