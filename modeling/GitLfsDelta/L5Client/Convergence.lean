import GitLfsDelta.L5Client.Upload

/-!
# Concurrent uploads succeed

The invariant of a system of honest clients, and what follows from it.

* `Source.SharedOk` is what all clients keep: sessions of the object that are open carry its
  manifest, chunk rows have its sizes, and bytes under its identities are its chunks.
* `ClientOk` is where one client may be and what it may rely on: a session that is
  `Ours` (open, or finalized with the object published), and that a chunk its plan does not
  list is stored.
* `Rely` is what a step of one client does to the others: sessions and stored chunks stay,
  but a publication closes its session. That is harmless to a client whose `PUT`s have all
  passed `load_open_upload` (`ClientOk.stable`).

Each request of `upload` is answered with success (`Good`, one lemma per step), and each
step uses up some of its client's `cost`.
-/
namespace GitLfsDelta

open Source

variable {κ : Type} [DecidableEq κ] {H : Hashes} {cut : Cutter} {src : Source H cut}
  {w w' : Shared}

namespace Source

/-! ## The object -/

theorem faithful (src : Source H cut) : ∀ c ∈ src.chunks, c.Faithful H :=
  (chunkObject_spec src.chunked).1

theorem descriptors (src : Source H cut) : src.manifest.chunks = src.chunks.map (·.descriptor) :=
  (chunkObject_spec src.chunked).2.1

theorem hash (src : Source H cut) :
    H.sha256 (src.chunks.map (·.data)).flatten = src.manifest.objectOid :=
  (chunkObject_spec src.chunked).2.2.1.symm

theorem positive (src : Source H cut) {c : Chunk} (hc : c ∈ src.chunks) :
    0 < c.descriptor.length.toNat := by
  refine ((validate_ok src.valid).2.2.2 c.descriptor ?_).1
  rw [src.descriptors]
  exact List.mem_map_of_mem hc

theorem descriptor_at (src : Source H cut) {i : Nat} {c : Chunk} (h : src.chunks[i]? = some c) :
    src.manifest.chunks[i]? = some c.descriptor := by
  rw [src.descriptors, List.getElem?_map, h]; rfl

/-- BLAKE3 tells the chunks of the object apart. -/
def Distinct (src : Source H cut) : Prop := H.CollisionFree {b | b ∈ src.chunks.map (·.data)}

theorem Distinct.data_eq (h : src.Distinct) {c c' : Chunk} (hc : c ∈ src.chunks)
    (hc' : c' ∈ src.chunks) (hid : c.descriptor.id = c'.descriptor.id) : c.data = c'.data := by
  apply h (List.mem_map_of_mem hc) (List.mem_map_of_mem hc')
  rw [(src.faithful c hc).1, (src.faithful c' hc').1, hid]

/-! ## The invariant -/

/-- Chunk `i` is in the store. -/
def Has (src : Source H cut) (w : Shared) (i : Nat) : Prop :=
  ∃ c, src.chunks[i]? = some c ∧ w.store src.repository c.descriptor.id = some c.data

def Complete (src : Source H cut) (w : Shared) : Prop := ∀ i < src.chunks.length, src.Has w i

def Published (src : Source H cut) (w : Shared) : Prop :=
  src.Complete w ∧ ∃ o ∈ w.db.objects, o.key = (src.repository, src.manifest.objectOid)

/-- A session of the object, in the state. -/
def Session (src : Source H cut) (w : Shared) (u : Uuid) (state : SessionState) : Prop :=
  ∃ x ∈ w.db.sessions, x.id = u ∧ x.repositoryId = src.repository ∧
    x.objectOid = src.manifest.objectOid ∧ x.manifest = src.manifest ∧ x.state = state

/-- A session a client may hold. -/
def Ours (src : Source H cut) (w : Shared) (u : Uuid) : Prop :=
  src.Session w u .opened ∨ src.Session w u .finalized ∧ src.Published w

/-- The row of the published object. -/
def row (src : Source H cut) : ObjectRow :=
  ⟨src.repository, src.manifest.objectOid, src.manifest.objectSize.toNat, src.manifest⟩

/-- What all clients keep; `objects` is the table they started with. -/
structure SharedOk (src : Source H cut) (objects : Table ObjectRow.key) (w : Shared) : Prop where
  inv : SharedInv H w
  locks : w.locks = []
  live : w.db.AllLive w.clock src.repository src.manifest
  sizes : ∀ c ∈ src.chunks, ∀ k ∈ w.db.chunks, k.key = (src.repository, c.descriptor.id) →
    k.size = c.data.length
  stored : ∀ c ∈ src.chunks, ∀ b, w.store src.repository c.descriptor.id = some b → b = c.data
  objects : w.db.objects = objects ∨ w.db.objects = objects.insert src.row

/-- A plan for the first `n` chunks: those it does not list are stored. -/
structure PlanFor (src : Source H cut) (w : Shared) (n : Nat) (missing : List Nat) : Prop where
  nodup : missing.Nodup
  bound : ∀ i ∈ missing, i < n
  rest : ∀ i < n, i ∈ missing ∨ src.Has w i

end Source

/-- Where the `PUT` of an index that the plan lists may be. -/
inductive PutOk (src : Source H cut) (w : Shared) (u : Uuid) (i : Nat) : Proc → Prop
  | waiting : src.Session w u .opened → PutOk src w u i .idle
  | registering {c} : src.chunks[i]? = some c →
      PutOk src w u i (.registering src.repository u c.descriptor c.data)
  | storing {c} : src.chunks[i]? = some c →
      PutOk src w u i (.storing src.repository c.descriptor.id c.data)
  | stored : src.Has w i → PutOk src w u i (.done .noContent)

/-- Before `load_open_upload`, or answered. -/
def Proc.Resting (q : Proc) : Prop := q = .idle ∨ q = .done .noContent

/-- Where a client may be. -/
inductive ClientOk (src : Source H cut) (w : Shared) : Proc → (Nat → Proc) → Prop
  | idle {puts} : (∀ i, puts i = .idle) → ClientOk src w .idle puts
  | probing {u pre post missing puts} : src.chunks = pre ++ post → src.Ours w u →
      src.PlanFor w pre.length missing → (missing ≠ [] → src.Session w u .opened) →
      (∀ i, puts i = .idle) →
      ClientOk src w
        (.probing u src.repository (post.map (·.descriptor.id)) pre.length missing) puts
  | planned {u missing puts} : src.Ours w u → src.PlanFor w src.chunks.length missing →
      (∀ i ∈ missing, PutOk src w u i (puts i)) → (∀ i, i ∉ missing → puts i = .idle) →
      ClientOk src w (.done (.plan u missing)) puts
  | verifying {u pre post puts} : src.chunks = pre ++ post → src.Ours w u → src.Complete w →
      (∀ i, (puts i).Resting) →
      ClientOk src w (.verifying src.repository src.manifest.objectOid u src.manifest
        (post.map (·.descriptor)) (pre.map (·.data)).flatten) puts
  | finished {puts} : src.Published w → (∀ i, (puts i).Resting) →
      ClientOk src w (.done .noContent) puts

variable {main : Proc} {puts : Nat → Proc}

/-! ## Interference -/

/-- What one client's step leaves to the others; it may have finalized the sessions of
`closing`. -/
structure Rely (src : Source H cut) (closing : Uuid → Prop) (w w' : Shared) : Prop where
  has : ∀ i, src.Has w i → src.Has w' i
  objects : ∀ o ∈ w.db.objects, o ∈ w'.db.objects
  finalized : ∀ u, src.Session w u .finalized → src.Session w' u .finalized
  opened : ∀ u, src.Session w u .opened → src.Session w' u .opened ∨
    closing u ∧ src.Session w' u .finalized ∧ src.Published w'

theorem Rely.refl (closing : Uuid → Prop) (w : Shared) : Rely src closing w w :=
  ⟨fun _ h => h, fun _ h => h, fun _ h => h, fun _ h => .inl h⟩

variable {closing : Uuid → Prop}

theorem Rely.mono {closing' : Uuid → Prop} (h : Rely src closing w w')
    (hc : ∀ u, closing u → closing' u) : Rely src closing' w w' :=
  ⟨h.has, h.objects, h.finalized, fun u hu => (h.opened u hu).imp_right (And.imp_left (hc u))⟩

theorem Rely.complete (h : Rely src closing w w') (hc : src.Complete w) : src.Complete w' :=
  fun i hi => h.has i (hc i hi)

theorem Rely.published (h : Rely src closing w w') (hp : src.Published w) : src.Published w' := by
  obtain ⟨hc, o, ho, hk⟩ := hp
  exact ⟨h.complete hc, o, h.objects o ho, hk⟩

theorem Rely.ours (h : Rely src closing w w') {u : Uuid} (ho : src.Ours w u) : src.Ours w' u := by
  rcases ho with ho | ⟨hf, hp⟩
  · rcases h.opened u ho with ho | ⟨-, hf, hp⟩
    · exact .inl ho
    · exact .inr ⟨hf, hp⟩
  · exact .inr ⟨h.finalized u hf, h.published hp⟩

theorem Rely.plan (h : Rely src closing w w') {n : Nat} {missing : List Nat}
    (hp : src.PlanFor w n missing) : src.PlanFor w' n missing :=
  ⟨hp.nodup, hp.bound, fun i hi => (hp.rest i hi).imp_right (h.has i)⟩

theorem PutOk.stable {u : Uuid} {i : Nat} {q : Proc} (h : PutOk src w u i q)
    (hr : Rely src closing w w') (hc : q = .idle → ¬ closing u) : PutOk src w' u i q := by
  cases h with
  | waiting ho =>
    rcases hr.opened u ho with ho | ⟨hu, -⟩
    · exact .waiting ho
    · exact absurd hu (hc rfl)
  | registering hi => exact .registering hi
  | storing hi => exact .storing hi
  | stored hi => exact .stored (hr.has i hi)

/-- A client with no `PUT` pending in a session that closes stays where it may be. -/
theorem ClientOk.stable (h : ClientOk src w main puts) (hr : Rely src closing w w')
    (hc : ∀ u, closing u → ¬ Pending main puts u) : ClientOk src w' main puts := by
  cases h with
  | idle hp => exact .idle hp
  | probing hsplit ho hplan hopen hp =>
    refine .probing hsplit (hr.ours ho) (hr.plan hplan) (fun hne => ?_) hp
    rcases hr.opened _ (hopen hne) with ho | ⟨hu, -⟩
    · exact ho
    · exact absurd ⟨rfl, hne⟩ (hc _ hu)
  | planned ho hplan hputs hrest =>
    refine .planned (hr.ours ho) (hr.plan hplan) (fun i hi => ?_) hrest
    apply (hputs i hi).stable hr
    intro hidle hu
    exact hc _ hu ⟨rfl, i, hi, hidle⟩
  | verifying hsplit ho hcomp hp => exact .verifying hsplit (hr.ours ho) (hr.complete hcomp) hp
  | finished hpub hp => exact .finished (hr.published hpub) hp

/-! ## Cost -/

/-- Steps left on the slot of `begin_cdc` and `finalize_cdc`, for `n` chunks. -/
def mainCost (n : Nat) : Proc → Nat
  | .idle => 2 * n + 4
  | .probing _ _ todo _ _ => todo.length + n + 3
  | .done (.plan _ _) => n + 2
  | .verifying _ _ _ _ todo _ => todo.length + 1
  | _ => 0

/-- Steps left on the slot of a `PUT`. -/
def putCost : Proc → Nat
  | .idle => 3
  | .registering _ _ _ _ => 2
  | .storing _ _ _ => 1
  | _ => 0

def clientCost (n : Nat) (main : Proc) (puts : Nat → Proc) : Nat :=
  mainCost n main + ∑ i ∈ Finset.range n, putCost (puts i)

theorem clientCost_put {n i : Nat} {q : Proc} (hi : i < n) (h : putCost q < putCost (puts i)) :
    clientCost n main (Function.update puts i q) < clientCost n main puts := by
  unfold clientCost
  refine Nat.add_lt_add_left (Finset.sum_lt_sum (fun j _ => ?_) ⟨i, Finset.mem_range.2 hi, by simpa using h⟩) _
  by_cases e : j = i
  · subst e; simpa using h.le
  · simp [e]

theorem clientCost_main {n : Nat} {q : Proc} (h : mainCost n q < mainCost n main) :
    clientCost n q puts < clientCost n main puts := Nat.add_lt_add_right h _

/-! ## One step -/

variable {objects : Table ObjectRow.key}

/-- The step that leads to `w'` succeeded: shared state and interference are as they
should be, and the client that took it is at `main'`, `puts'`, closer to its end. -/
structure Good (src : Source H cut) (objects : Table ObjectRow.key) (closing : Uuid → Prop)
    (w : Shared) (main : Proc) (puts : Nat → Proc) (w' : Shared) (main' : Proc)
    (puts' : Nat → Proc) : Prop where
  shared : src.SharedOk objects w'
  rely : Rely src closing w w'
  client : ClientOk src w' main' puts'
  cost : clientCost src.chunks.length main' puts' < clientCost src.chunks.length main puts

theorem Source.SharedOk.session_live (hw : src.SharedOk objects w) {u : Uuid}
    (h : src.Session w u .opened) : ∃ x ∈ w.db.sessions, x.id = u ∧ x.repositoryId = src.repository ∧
      x.objectOid = src.manifest.objectOid ∧ x.manifest = src.manifest ∧ x.state = .opened ∧
      w.clock < x.expiresAt := by
  obtain ⟨x, hx, hid, hr, ho, hm, hst⟩ := h
  exact ⟨x, hx, hid, hr, ho, hm, hst, (hw.live x hx hr ho hst).2⟩

/-- `begin_cdc` creates or resumes a session. -/
theorem begin_good (hw : src.SharedOk objects w) (h : ClientOk src w .idle puts) {newId : Uuid}
    (hid : newId ∉ w.issued) :
    ∃ w' q, startBegin w src.repository src.manifest.objectOid 1 src.manifest newId = some (w', q) ∧
      Good src objects (fun _ => False) w .idle puts w' q puts := by
  cases h with
  | idle hp =>
  have hsize : src.manifest.objectSize.toNat < 2 ^ 63 := by
    have := (validate_ok src.valid).2.1
    simp only [maxObjectSize] at this
    omega
  have hnew : w.db.sessions.get? newId = none :=
    Table.get?_none.2 fun x hx e => hid (e ▸ hw.inv.issued x hx)
  obtain ⟨u, S, hres, hkept, hold⟩ :=
    resumeOrCreate_live hw.live hsize hnew ⟨422, "object is too large"⟩
  obtain ⟨-, -, -, x, hx, hxid, hxr, hxo, hxm, hxs, -⟩ := resumeOrCreate_ok hres
  have hbegin : beginCdc w.db w.clock src.repository src.manifest.objectOid 1 src.manifest newId =
      .ok (u, { w.db with sessions := S }) := by
    simp [beginCdc, src.valid, hres]
  refine ⟨_, _, by simp only [startBegin, if_neg hid, hbegin]; rfl, ?_⟩
  have hkeep : ∀ u st, src.Session w u st → src.Session { w with
      issued := newId :: w.issued
      db := { w.db with sessions := S } } u st := by
    intro u st hs
    obtain ⟨x, hx, hid, hr, ho, hm, hst⟩ := hs
    obtain ⟨x', hx', rfl | ⟨-, rfl⟩⟩ := hkept x hx
    · exact ⟨x', hx', hid, hr, ho, hm, hst⟩
    · exact ⟨_, hx', hid, hr, ho, hm, hst⟩
  refine ⟨⟨(Effect.session hid hres).sharedInv hw.inv, hw.locks, fun x' hx' hr ho hst => ?_,
    hw.sizes, hw.stored, hw.objects⟩, ⟨fun _ h => h, fun _ h => h, fun u => hkeep u _,
    fun u h => .inl (hkeep u _ h)⟩, ?_, clientCost_main ?_⟩
  · rcases hold x' hx' with hx | ⟨hm, he⟩
    · exact hw.live x' hx hr ho hst
    · refine ⟨hm, ?_⟩
      rw [he]
      exact Nat.lt_add_of_pos_right (by decide)
  · rw [src.descriptors, List.map_map]
    exact .probing (List.nil_append src.chunks).symm (.inl ⟨x, hx, hxid, hxr, hxo, hxm, hxs⟩)
      ⟨List.nodup_nil, by simp, by simp⟩ (by simp) hp
  · simp only [mainCost, List.length_map, src.descriptors]
    omega

/-- One probe of `begin_cdc`, or its reply. -/
theorem probe_good (hw : src.SharedOk objects w) {u r : Uuid} {todo : List ChunkId} {index : Nat}
    {missing : List Nat} (h : ClientOk src w (.probing u r todo index missing) puts) :
    ∃ q, procNext H w (.probing u r todo index missing) .auto = some (w, q) ∧
      Good src objects (fun _ => False) w (.probing u r todo index missing) puts w q puts := by
  generalize hmain : Proc.probing u r todo index missing = main at h ⊢
  cases h with
  | @probing u pre post missing _ hsplit ho hplan hopen hp =>
    cases post with
    | nil =>
      rw [List.append_nil] at hsplit
      refine ⟨_, rfl, hw, .refl _ _, ?_, clientCost_main (by simp only [mainCost]; omega)⟩
      refine .planned ho (hsplit ▸ hplan) (fun i hi => ?_) fun i _ => hp i
      rw [hp i]
      exact .waiting (hopen (List.ne_nil_of_mem hi))
    | cons c post =>
      have hc : c ∈ src.chunks := by rw [hsplit]; simp
      have hat : src.chunks[pre.length]? = some c := by rw [hsplit]; simp
      have hsplit' : src.chunks = (pre ++ [c]) ++ post := by rw [hsplit]; simp
      have hlen : pre.length + 1 = (pre ++ [c]).length := by simp
      refine ⟨_, rfl, hw, .refl _ _, ?_,
        clientCost_main (by simp only [mainCost, List.map_cons, List.length_cons]; omega)⟩
      rw [hlen]
      split
      · -- what is stored under the identity is the chunk
        rename_i hex
        obtain ⟨b, hb⟩ := Option.isSome_iff_exists.1 hex
        have hhas : src.Has w pre.length := ⟨c, hat, by rw [hb, hw.stored c hc b hb]⟩
        refine .probing hsplit' ho ⟨hplan.nodup, fun i hi => ?_, fun i hi => ?_⟩ hopen hp
        · have := hplan.bound i hi
          omega
        · rcases Nat.lt_succ_iff_lt_or_eq.1 (hlen ▸ hi) with hi | rfl
          · exact hplan.rest i hi
          · exact .inr hhas
      · rename_i hex
        have hopen' : src.Session w u .opened := by
          rcases ho with ho | ⟨-, hcomp, -⟩
          · exact ho
          · obtain ⟨c', hc', hst⟩ := hcomp pre.length (by rw [hsplit]; simp)
            rw [hat, Option.some.injEq] at hc'
            subst hc'
            simp [chunkExists, hst] at hex
        refine .probing hsplit' ho ⟨?_, fun i hi => ?_, fun i hi => ?_⟩ (fun _ => hopen') hp
        · rw [List.nodup_append]
          refine ⟨hplan.nodup, by simp, fun a ha b hb => ?_⟩
          have := hplan.bound a ha
          rw [List.mem_singleton] at hb
          omega
        · rcases List.mem_append.1 hi with hi | hi
          · have := hplan.bound i hi
            omega
          · rw [List.mem_singleton] at hi
            omega
        · rcases Nat.lt_succ_iff_lt_or_eq.1 (hlen ▸ hi) with hi | rfl
          · exact (hplan.rest i hi).imp_left fun h => List.mem_append_left _ h
          · exact .inl (by simp)
  | _ => cases hmain

theorem ClientOk.set_put {u : Uuid} {missing : List Nat} {i : Nat} {q : Proc}
    (h : ClientOk src w (.done (.plan u missing)) puts) (hi : i ∈ missing) (hq : PutOk src w u i q) :
    ClientOk src w (.done (.plan u missing)) (Function.update puts i q) := by
  cases h with
  | planned ho hplan hputs hrest =>
  refine .planned ho hplan (fun j hj => ?_) fun j hj => ?_
  · by_cases e : j = i
    · subst e; rw [Function.update_self]; exact hq
    · rw [Function.update_of_ne e]; exact hputs j hj
  · rw [Function.update_of_ne (ne_of_mem_of_not_mem hi hj).symm]; exact hrest j hj

theorem ClientOk.put_lt {u : Uuid} {missing : List Nat} {i : Nat}
    (h : ClientOk src w (.done (.plan u missing)) puts) (hi : i ∈ missing) :
    i < src.chunks.length := by
  cases h with
  | planned _ hplan _ _ => exact hplan.bound i hi

/-- A `PUT` is accepted: as long as it has not passed `load_open_upload` its session is open. -/
theorem put_good (hw : src.SharedOk objects w) {u : Uuid} {missing : List Nat}
    (h : ClientOk src w (.done (.plan u missing)) puts) {i : Nat} (hi : i ∈ missing)
    (hidle : puts i = .idle) {c : Chunk} (hc : src.chunks[i]? = some c) :
    acceptChunk w.db w.clock src.repository src.manifest.objectOid u i c.data = .ok c.descriptor ∧
      Good src objects (fun _ => False) w (.done (.plan u missing)) puts w (.done (.plan u missing))
        (Function.update puts i (.registering src.repository u c.descriptor c.data)) := by
  refine ⟨?_, hw, .refl _ _, h.set_put hi (.registering hc), clientCost_put (h.put_lt hi) ?_⟩
  · cases h with
    | planned ho hplan hputs hrest =>
    have hput := hputs i hi
    rw [hidle] at hput
    cases hput with
    | waiting hopen =>
    obtain ⟨x, hx, rfl, hr, hoid, hm, hst, hu⟩ := hw.session_live hopen
    rw [← hr, ← hoid]
    exact acceptChunk_live hx hst hu (hm ▸ src.descriptor_at hc)
      (src.faithful c (List.mem_of_getElem? hc)).2
  · simp [hidle, putCost]

/-- A session a client may hold has a row with the object's manifest. -/
theorem Source.Ours.exists_row {u : Uuid} (h : src.Ours w u) : ∃ x ∈ w.db.sessions, x.id = u ∧
    x.repositoryId = src.repository ∧ x.objectOid = src.manifest.objectOid ∧
    x.manifest = src.manifest ∧
    (x.state = .opened ∨ x.state = .finalized ∧ src.Published w) := by
  rcases h with ⟨x, hx, hid, hr, ho, hm, hst⟩ | ⟨⟨x, hx, hid, hr, ho, hm, hst⟩, hp⟩
  · exact ⟨x, hx, hid, hr, ho, hm, .inl hst⟩
  · exact ⟨x, hx, hid, hr, ho, hm, .inr ⟨hst, hp⟩⟩

/-- The registration of a chunk succeeds, also after its session was finalized. -/
theorem register_good (hdist : src.Distinct) (hw : src.SharedOk objects w) {u : Uuid}
    {missing : List Nat} (h : ClientOk src w (.done (.plan u missing)) puts) {i : Nat}
    (hi : i ∈ missing) {c : Chunk} (hc : src.chunks[i]? = some c)
    (hput : puts i = .registering src.repository u c.descriptor c.data) :
    ∃ w', procNext H w (puts i) .auto = some (w', .storing src.repository c.descriptor.id c.data) ∧
      Good src objects (fun _ => False) w (.done (.plan u missing)) puts w' (.done (.plan u missing))
        (Function.update puts i (.storing src.repository c.descriptor.id c.data)) := by
  have hmem := List.mem_of_getElem? hc
  have hours : src.Ours w u := by
    cases h with
    | planned ho => exact ho
  obtain ⟨x, hx, rfl, hr, -⟩ := hours.exists_row
  obtain ⟨db, hdb⟩ : ∃ db, registerChunk w.db src.repository x.id c.descriptor = .ok db := by
    rw [← hr]
    apply (registerChunk_iff hx (src.positive hmem)).2
    intro k hk hkey
    rw [hw.sizes c hmem k hk (hr ▸ hkey), (src.faithful c hmem).2]
  have hlock : (src.repository, c.descriptor.id) ∉ w.locks := by rw [hw.locks]; exact List.not_mem_nil
  obtain ⟨⟨C, L, hframe⟩, -⟩ := registerChunk_ok hdb
  have hrely : Rely src (fun _ => False) w { w with db := db } := by
    subst hframe
    exact ⟨fun _ h => h, fun _ h => h, fun _ h => h, fun _ h => .inl h⟩
  refine ⟨_, by rw [hput]; simp only [procNext, if_neg hlock, hdb], ?_, hrely,
    (h.stable hrely fun _ h => h.elim).set_put hi (.storing hc), clientCost_put (h.put_lt hi) ?_⟩
  · refine ⟨(Effect.register hlock hdb).sharedInv hw.inv, hw.locks, ?_, fun c' hc' k hk hkey => ?_,
      hw.stored, ?_⟩
    · subst hframe; exact hw.live
    · rcases registerChunk_rows hdb k hk with hk | ⟨hkey', hsize⟩
      · exact hw.sizes c' hc' k hk hkey
      · have hid : c'.descriptor.id = c.descriptor.id := (Prod.mk.inj (hkey.symm.trans hkey')).2
        rw [hsize, ← (src.faithful c hmem).2, hdist.data_eq hc' hmem hid]
    · subst hframe; exact hw.objects
  · rw [hput]; simp [putCost]

/-- The chunk is stored and the `PUT` answered. -/
theorem store_good (hdist : src.Distinct) (hw : src.SharedOk objects w) {u : Uuid}
    {missing : List Nat} (h : ClientOk src w (.done (.plan u missing)) puts) {i : Nat}
    (hi : i ∈ missing) {c : Chunk} (hc : src.chunks[i]? = some c)
    (hput : puts i = .storing src.repository c.descriptor.id c.data) :
    ∃ w', procNext H w (puts i) .auto = some (w', .done .noContent) ∧
      Good src objects (fun _ => False) w (.done (.plan u missing)) puts w' (.done (.plan u missing))
        (Function.update puts i (.done .noContent)) := by
  have hmem := List.mem_of_getElem? hc
  have hstore : putVerified H w.store src.repository c.descriptor.id c.data =
      .ok (w.store.create src.repository c.descriptor.id c.data) :=
    putVerified_ok.2 ⟨(src.faithful c hmem).1, rfl⟩
  have hrely : Rely src (fun _ => False) w
      { w with store := w.store.create src.repository c.descriptor.id c.data } := by
    refine ⟨fun j hj => ?_, fun _ h => h, fun _ h => h, fun _ h => .inl h⟩
    obtain ⟨c', hc', hst⟩ := hj
    exact ⟨c', hc', create_of_some hst⟩
  refine ⟨_, by rw [hput]; simp only [procNext, hstore], ?_, hrely,
    (h.stable hrely fun _ h => h.elim).set_put hi (.stored ?_), clientCost_put (h.put_lt hi) ?_⟩
  · refine ⟨(Effect.put hstore).sharedInv hw.inv, hw.locks, hw.live, hw.sizes, fun c' hc' b hb => ?_,
      hw.objects⟩
    rcases create_cases hb with hb | ⟨-, hid, rfl⟩
    · exact hw.stored c' hc' b hb
    · exact hdist.data_eq hmem hc' hid.symm
  · obtain ⟨b, hb, hcase⟩ := create_self w.store src.repository c.descriptor.id c.data
    refine ⟨c, hc, ?_⟩
    rcases hcase with hold | ⟨-, rfl⟩
    · exact hb.trans (congrArg some (hw.stored c hmem b hold))
    · exact hb
  · rw [hput]; simp [putCost]

/-- `finalize_cdc` starts to verify, or finds the session finalized. -/
theorem finalize_good (hw : src.SharedOk objects w) {u : Uuid} {missing : List Nat}
    (h : ClientOk src w (.done (.plan u missing)) puts) (hall : ∀ i ∈ missing, puts i = .done .noContent)
    (now : Nat) :
    ∃ q, procStart H cut now w (.finalizeCdc src.repository src.manifest.objectOid u) = some (w, q) ∧
      Good src objects (fun _ => False) w (.done (.plan u missing)) puts w q puts := by
  cases h with
  | planned ho hplan hputs hrest =>
  have hcomp : src.Complete w := by
    intro i hi
    rcases hplan.rest i hi with hm | hh
    · have hput := hputs i hm
      rw [hall i hm] at hput
      cases hput with
      | stored hh => exact hh
    · exact hh
  have hresting : ∀ i, (puts i).Resting := by
    intro i
    by_cases hi : i ∈ missing
    · exact .inr (hall i hi)
    · exact .inl (hrest i hi)
  obtain ⟨x, hx, rfl, hr, hoid, hm, hst⟩ := ho.exists_row
  rcases hst with hst | ⟨hst, hpub⟩
  · have hload := loadFinalizable_live hx (.inl ⟨hst, (hw.live x hx hr hoid hst).2⟩)
    rw [hr, hoid, hm, hst] at hload
    refine ⟨_, by simp only [procStart, hload]; rfl, hw, .refl _ _, ?_, clientCost_main ?_⟩
    · rw [src.descriptors]
      exact .verifying (List.nil_append src.chunks).symm ho hcomp hresting
    · simp only [mainCost, src.descriptors, List.length_map]; omega
  · have hload := loadFinalizable_live (t := w.clock) hx (.inr hst)
    rw [hr, hoid, hst] at hload
    refine ⟨_, by simp only [procStart, hload]; rfl, hw, .refl _ _, .finished hpub hresting,
      clientCost_main ?_⟩
    simp only [mainCost]; omega

/-- One chunk is verified. -/
theorem verify_good (hw : src.SharedOk objects w) {u : Uuid} {pre post : List Chunk} {c : Chunk}
    (hsplit : src.chunks = pre ++ c :: post) (ho : src.Ours w u) (hcomp : src.Complete w)
    (hp : ∀ i, (puts i).Resting) :
    ∃ q, procNext H w (.verifying src.repository src.manifest.objectOid u src.manifest
        ((c :: post).map (·.descriptor)) (pre.map (·.data)).flatten) .auto = some (w, q) ∧
      Good src objects (fun _ => False) w (.verifying src.repository src.manifest.objectOid u src.manifest
        ((c :: post).map (·.descriptor)) (pre.map (·.data)).flatten) puts w q puts := by
  have hat : src.chunks[pre.length]? = some c := by rw [hsplit]; simp
  obtain ⟨hid, hlen⟩ := src.faithful c (List.mem_of_getElem? hat)
  obtain ⟨c', hc', hst⟩ := hcomp pre.length (by rw [hsplit]; simp)
  rw [hat, Option.some.injEq] at hc'
  subst hc'
  refine ⟨_, by simp only [List.map_cons, procNext, verifyChunk_stored hst hid hlen]; rfl, hw,
    .refl _ _, ?_, clientCost_main (by simp [mainCost])⟩
  have hflat : (pre.map (·.data)).flatten ++ c.data = ((pre ++ [c]).map (·.data)).flatten := by simp
  rw [hflat]
  exact .verifying (by rw [hsplit]; simp) ho hcomp hp

/-- Publication succeeds, whether the session is open or was finalized meanwhile. -/
theorem publish_good (hdist : src.Distinct) (hw : src.SharedOk objects w) {u : Uuid} (ho : src.Ours w u)
    (hcomp : src.Complete w) (hp : ∀ i, (puts i).Resting) :
    ∃ w' q, procNext H w (.verifying src.repository src.manifest.objectOid u src.manifest []
        (src.chunks.map (·.data)).flatten) .auto = some (w', q) ∧
      Good src objects (· = u) w (.verifying src.repository src.manifest.objectOid u src.manifest []
        (src.chunks.map (·.data)).flatten) puts w' q puts := by
  have hwait : ¬ PublishWaits w src.repository u src.manifest := by
    intro hs
    obtain ⟨-, -, d, -, hl⟩ := hs
    rw [hw.locks] at hl
    exact List.not_mem_nil hl
  have hcost : mainCost src.chunks.length (.done .noContent) <
      mainCost src.chunks.length (.verifying src.repository src.manifest.objectOid u src.manifest []
        (src.chunks.map (·.data)).flatten) := by simp [mainCost]
  obtain ⟨x, hx, rfl, hr, hoid, hm, hst⟩ := ho.exists_row
  rcases hst with hst | ⟨hst, hpub⟩
  · obtain ⟨b, db, hdb, ⟨hkeep, hopened⟩, hobj⟩ := publishManifest_live hw.inv.db hx hst
      (hw.live x hx hr hoid hst).2 hoid src.valid
    rw [hr] at hdb hobj
    have hpub : src.Published { w with
        db := db
        logicalUploaded := w.logicalUploaded + if b then src.manifest.objectSize.toNat else 0 } := by
      refine ⟨hcomp, ?_⟩
      rw [hobj]
      exact Table.exists_mem_insert _ _
    have hrely : Rely src (· = x.id) w { w with
        db := db
        logicalUploaded := w.logicalUploaded + if b then src.manifest.objectSize.toNat else 0 } := by
      refine ⟨fun _ h => h, fun o ho => ?_, fun u hu => ?_, fun u hu => ?_⟩
      · rw [hobj]; exact Table.mem_insert_of_mem ho
      · obtain ⟨y, hy, hyid, hyr, hyo, hym, hys⟩ := hu
        refine ⟨_, hkeep y hy, ?_⟩
        split <;> exact ⟨hyid, hyr, hyo, hym, by first | rfl | exact hys⟩
      · obtain ⟨y, hy, hyid, hyr, hyo, hym, hys⟩ := hu
        have hy' := hkeep y hy
        by_cases hid : y.id = x.id
        · rw [if_pos hid] at hy'
          exact .inr ⟨hyid.symm.trans hid, ⟨_, hy', hyid, hyr, hyo, hym, rfl⟩, hpub⟩
        · rw [if_neg hid] at hy'
          exact .inl ⟨y, hy', hyid, hyr, hyo, hym, hys⟩
    refine ⟨_, _, by simp only [procNext, src.hash, ne_eq, not_true_eq_false, if_false, procPublish,
      if_neg hwait, hdb], ?_, hrely, .finished hpub hp, clientCost_main hcost⟩
    refine ⟨(Effect.publish hwait hdb).sharedInv hw.inv, hw.locks, fun y hy hyr hyo hys => ?_,
      fun c hc k hk hkey => ?_, hw.stored, ?_⟩
    · exact hw.live y (hopened y hy hys) hyr hyo hys
    · rcases publishManifest_sizes hdb k hk with ⟨k₀, hk₀, hkey₀, hsize⟩ | ⟨d, hd, hkey', hsize⟩
      · rw [hsize]; exact hw.sizes c hc k₀ hk₀ (hkey₀.symm.trans hkey)
      · rw [src.descriptors] at hd
        obtain ⟨c', hc', rfl⟩ := List.mem_map.1 hd
        have hid : c.descriptor.id = c'.descriptor.id := (Prod.mk.inj (hkey.symm.trans hkey')).2
        rw [hsize, ← (src.faithful c' hc').2, hdist.data_eq hc hc' hid]
    · rw [hobj]
      rcases hw.objects with e | e
      · exact .inr (by rw [e]; rfl)
      · refine .inr ?_
        rw [e]
        obtain ⟨o, ho, hk⟩ := Table.exists_mem_insert objects src.row
        exact Table.insert_of_some (Table.get?_some.2 ⟨ho, hk⟩)
  · have hdb := publishManifest_finalized hx w.clock hst hoid src.valid
    rw [hr] at hdb
    refine ⟨_, _, by simp only [procNext, src.hash, ne_eq, not_true_eq_false, if_false, procPublish,
      if_neg hwait, hdb]; rfl, ?_, ?_, .finished hpub hp, clientCost_main hcost⟩
    · exact ⟨hw.inv, hw.locks, hw.live, hw.sizes, hw.stored, hw.objects⟩
    · exact ⟨fun _ h => h, fun _ h => h, fun _ h => h, fun _ h => .inl h⟩

/-! ## Every step -/

theorem plan?_eq_some {q : Proc} {plan : Uuid × List Nat} (h : plan ∈ q.plan?) :
    q = .done (.plan plan.1 plan.2) := by
  unfold Proc.plan? at h
  split at h
  · simp only [Option.mem_def, Option.some.injEq] at h
    rw [← h]
  · cases h

/-- What a client's step sends is answered with success. -/
theorem start_good (hw : src.SharedOk objects w) (h : ClientOk src w main puts) {slot : Option Nat}
    {request : Request} (hs : src.Sends main puts slot request) {now : Nat} {q : Proc}
    (hact : procStart H cut now w request = some (w', q)) :
    Good src objects (fun _ => False) w main puts w' (slot.elim q fun _ => main)
      (slot.elim puts fun i => Function.update puts i q) := by
  unfold Source.Sends at hs
  split at hs
  · obtain ⟨rfl, rfl, rfl, rfl, rfl⟩ := hs
    rename_i newId
    have hid : newId ∉ w.issued := by
      intro hmem
      simp [procStart, startBegin, hmem] at hact
    obtain ⟨w₁, q₁, h₁, hgood⟩ := begin_good hw h hid
    simp only [procStart, h₁, Option.some.injEq, Prod.mk.injEq] at hact
    obtain ⟨rfl, rfl⟩ := hact
    exact hgood
  · obtain ⟨hidle, rfl, rfl, rfl, ⟨plan, hplan, rfl, -, hi⟩, hdata⟩ := hs
    obtain ⟨c, hc, rfl⟩ := Option.map_eq_some_iff.1 hdata
    obtain rfl := plan?_eq_some hplan
    obtain ⟨hacc, hgood⟩ := put_good hw h hi hidle hc
    simp only [procStart, hacc, Option.some.injEq, Prod.mk.injEq] at hact
    obtain ⟨rfl, rfl⟩ := hact
    exact hgood
  · obtain ⟨rfl, rfl, plan, hplan, rfl, -, hall⟩ := hs
    obtain rfl := plan?_eq_some hplan
    obtain ⟨q₁, h₁, hgood⟩ := finalize_good hw h hall now
    rw [h₁, Option.some.injEq, Prod.mk.injEq] at hact
    obtain ⟨rfl, rfl⟩ := hact
    exact hgood
  · exact hs.elim

/-- The sessions a process is about to finalize. -/
def Proc.Closes (q : Proc) (u : Uuid) : Prop := ∃ r oid m hashed, q = .verifying r oid u m [] hashed

theorem Good.closes {closing' : Uuid → Prop} {w' : Shared} {main' : Proc} {puts' : Nat → Proc}
    (h : Good src objects closing w main puts w' main' puts') (hc : ∀ u, closing u → closing' u) :
    Good src objects closing' w main puts w' main' puts' :=
  ⟨h.shared, h.rely.mono hc, h.client, h.cost⟩

theorem procNext_resting {q : Proc} (h : q.Resting) : procNext H w q .auto = none := by
  rcases h with rfl | rfl <;> rfl

/-- The server's next step on `begin_cdc` or `finalize_cdc` succeeds. -/
theorem next_main_good (hdist : src.Distinct) (hw : src.SharedOk objects w)
    (h : ClientOk src w main puts) {q : Proc} (hact : procNext H w main .auto = some (w', q)) :
    Good src objects main.Closes w main puts w' q puts := by
  have h' := h
  cases h with
  | idle | finished | planned => cases hact
  | probing =>
    obtain ⟨q₁, h₁, hgood⟩ := probe_good hw h'
    rw [h₁, Option.some.injEq, Prod.mk.injEq] at hact
    obtain ⟨rfl, rfl⟩ := hact
    exact hgood.closes fun _ h => h.elim
  | @verifying u pre post _ hsplit ho hcomp hp =>
    cases post with
    | cons c post =>
      obtain ⟨q₁, h₁, hgood⟩ := verify_good hw hsplit ho hcomp hp
      rw [h₁, Option.some.injEq, Prod.mk.injEq] at hact
      obtain ⟨rfl, rfl⟩ := hact
      exact hgood.closes fun _ h => h.elim
    | nil =>
      rw [List.append_nil] at hsplit
      subst hsplit
      obtain ⟨w₁, q₁, h₁, hgood⟩ := publish_good hdist hw ho hcomp hp
      rw [List.map_nil, h₁, Option.some.injEq, Prod.mk.injEq] at hact
      obtain ⟨rfl, rfl⟩ := hact
      exact hgood.closes fun _ h => h ▸ ⟨_, _, _, _, rfl⟩

/-- The server's next step on a `PUT` succeeds. -/
theorem next_put_good (hdist : src.Distinct) (hw : src.SharedOk objects w)
    (h : ClientOk src w main puts) {i : Nat} {q : Proc}
    (hact : procNext H w (puts i) .auto = some (w', q)) :
    Good src objects (fun _ => False) w main puts w' main (Function.update puts i q) := by
  have h' := h
  have hactive : ¬ (puts i).Resting := by
    intro hr
    rw [procNext_resting hr] at hact
    cases hact
  cases h with
  | idle hp | probing _ _ _ _ hp => exact absurd (.inl (hp i)) hactive
  | verifying _ _ _ hp | finished _ hp => exact absurd (hp i) hactive
  | @planned u missing _ ho hplan hputs hrest =>
    by_cases hi : i ∈ missing
    · have hput := hputs i hi
      generalize hq : puts i = q₀ at hput
      cases hput with
      | waiting => exact absurd (.inl hq) hactive
      | registering hc =>
        obtain ⟨w₁, h₁, hgood⟩ := register_good hdist hw h' hi hc hq
        rw [h₁, Option.some.injEq, Prod.mk.injEq] at hact
        obtain ⟨rfl, rfl⟩ := hact
        exact hgood
      | storing hc =>
        obtain ⟨w₁, h₁, hgood⟩ := store_good hdist hw h' hi hc hq
        rw [h₁, Option.some.injEq, Prod.mk.injEq] at hact
        obtain ⟨rfl, rfl⟩ := hact
        exact hgood
      | stored => exact absurd (.inr hq) hactive
    · exact absurd (.inl (hrest i hi)) hactive

/-! ## Runs -/

/-- The invariant of the system. -/
structure SystemOk (src : Source H cut) (objects : Table ObjectRow.key)
    (s : State (κ × Option Nat)) : Prop where
  shared : src.SharedOk objects s.toShared
  clients : ∀ k, ClientOk src s.toShared (s.procs (k, none)) fun i => s.procs (k, some i)

variable {s s' s₀ : State (κ × Option Nat)} {l : Label (κ × Option Nat)}

omit [DecidableEq κ] in
theorem Source.Ready.systemOk (h : src.Ready s) : SystemOk src s.db.objects s where
  shared := ⟨h.inv, h.locks, fun x hx hr ho hst => absurd hst (h.unbegun x hx hr ho), h.sizes,
    h.stored, .inl rfl⟩
  clients k := by
    rw [h.idle]
    exact .idle fun i => h.idle _

/-- The client that takes the step. -/
def Label.client? : Label (κ × Option Nat) → Option κ
  | .advance _ => none
  | .act p _ => some p.1

omit [DecidableEq κ] in
theorem client?_act (p : κ × Option Nat) (a : Action) : (Label.act p a).client? ≠ none := nofun

/-- Steps left to a client. -/
def State.cost (src : Source H cut) (s : State (κ × Option Nat)) (k : κ) : Nat :=
  clientCost src.chunks.length (s.procs (k, none)) fun i => s.procs (k, some i)

/-- The slots of a client that moved. -/
theorem move_slots_self (s : State (κ × Option Nat)) (p : κ × Option Nat) (w : Shared) (q : Proc) :
    (s.move p w q).procs (p.1, none) = (p.2.elim q fun _ => s.procs (p.1, none)) ∧
      (fun i => (s.move p w q).procs (p.1, some i)) =
        p.2.elim (fun i => s.procs (p.1, some i)) fun i =>
          Function.update (fun i => s.procs (p.1, some i)) i q := by
  obtain ⟨k, slot⟩ := p
  cases slot with
  | none => simp [move_procs]
  | some i =>
    refine ⟨by simp [move_procs], ?_⟩
    funext j
    by_cases hj : j = i <;> simp [move_procs, hj]

/-- The slots of the other clients. -/
theorem move_slots_other (s : State (κ × Option Nat)) {p : κ × Option Nat} (w : Shared) (q : Proc)
    {k : κ} (hk : k ≠ p.1) (slot : Option Nat) :
    (s.move p w q).procs (k, slot) = s.procs (k, slot) := by
  rw [move_procs, if_neg]
  rintro rfl
  exact hk rfl

omit [DecidableEq κ] in
/-- The step of one client, on whichever slot. -/
theorem act_good (hdist : src.Distinct) (hs : SystemOk src objects s) {p : κ × Option Nat}
    {a : Action} (hon : src.Honest s (.act p a)) {w : Shared} {q : Proc}
    (hact : procAct H cut s.hist.now s.toShared (s.procs p) a = some (w, q)) :
    Good src objects (fun u => a = .next .auto ∧ (s.procs p).Closes u) s.toShared
      (s.procs (p.1, none)) (fun i => s.procs (p.1, some i)) w
      (p.2.elim q fun _ => s.procs (p.1, none))
      (p.2.elim (fun i => s.procs (p.1, some i)) fun i =>
        Function.update (fun i => s.procs (p.1, some i)) i q) := by
  obtain ⟨k, slot⟩ := p
  cases a with
  | kill => exact hon.elim
  | start request =>
    simp only [procAct] at hact
    split at hact
    · exact (start_good hs.shared (hs.clients k) hon hact).closes fun _ h => h.elim
    · cases hact
  | next choice =>
    obtain rfl : choice = .auto := hon
    cases slot with
    | none => exact (next_main_good hdist hs.shared (hs.clients k) hact).closes fun _ h => ⟨rfl, h⟩
    | some i =>
      exact (next_put_good hdist hs.shared (hs.clients k) hact).closes fun _ h => h.elim

omit [DecidableEq κ] in
theorem NoPendingPut.closes {p : κ × Option Nat} {u : Uuid} (h : NoPendingPut s (.act p (.next .auto)))
    (hc : (s.procs p).Closes u) (k : κ) :
    ¬ Pending (s.procs (k, none)) (fun i => s.procs (k, some i)) u := by
  obtain ⟨r, oid, m, hashed, hq⟩ := hc
  simp only [NoPendingPut, hq] at h
  exact h k

/-- **One step**: the invariant is kept, and the client that moved has fewer steps left. -/
theorem system_step (hdist : src.Distinct) (hs : SystemOk src objects s) (hon : src.Honest s l)
    (hpend : NoPendingPut s l) (hst : step H cut s l = some s') :
    SystemOk src objects s' ∧
      ∀ k, s'.cost src k + (if l.client? = some k then 1 else 0) ≤ s.cost src k := by
  cases l with
  | advance δ =>
    simp only [step, Option.some.injEq] at hst
    subst hst
    have heff : Effect H s.toShared { s.toShared with clock := s.clock + δ } := .advance
    have hrely : Rely src (fun _ => False) s.toShared { s.toShared with clock := s.clock + δ } :=
      ⟨fun _ h => h, fun _ h => h, fun _ h => h, fun _ h => .inl h⟩
    refine ⟨⟨⟨heff.sharedInv hs.shared.inv, hs.shared.locks,
      fun x hx hr ho hst => ⟨(hs.shared.live x hx hr ho hst).1, hon x hx hr ho hst⟩, hs.shared.sizes,
      hs.shared.stored, hs.shared.objects⟩, fun k => ?_⟩, fun k => le_of_eq rfl⟩
    exact (hs.clients k).stable hrely fun _ h => h.elim
  | act p a =>
    simp only [step, Option.map_eq_some_iff] at hst
    obtain ⟨⟨w, q⟩, hact, rfl⟩ := hst
    have hgood := act_good hdist hs hon hact
    obtain ⟨hmain, hputs⟩ := move_slots_self s p w q
    refine ⟨⟨hgood.shared, fun k => ?_⟩, fun k => ?_⟩
    · by_cases hk : k = p.1
      · subst hk
        rw [hmain, hputs]
        exact hgood.client
      · simp only [move_slots_other s w q hk]
        apply (hs.clients k).stable hgood.rely
        intro u hp
        obtain ⟨rfl, hc⟩ := hp
        exact hpend.closes hc k
    · by_cases hk : k = p.1
      · subst hk
        have hclient : (Label.act p a).client? = some p.1 := rfl
        rw [if_pos hclient]
        simp only [State.cost, hmain, hputs]
        exact hgood.cost
      · rw [if_neg (by simpa [Label.client?] using fun e => hk e.symm)]
        simp only [State.cost, move_slots_other s w q hk]
        exact le_refl _

/-! ## No client is stuck -/

omit [DecidableEq κ] in
theorem noPending_next {p : κ × Option Nat} (h : ∀ u, ¬ (s.procs p).Closes u) :
    NoPendingPut s (.act p (.next .auto)) := by
  unfold NoPendingPut
  simp only
  split
  · rename_i r oid u m hashed hq
    exact absurd ⟨r, oid, m, hashed, hq⟩ (h u)
  · trivial

/-- A client that is being given a plan, or has one, can act. -/
theorem planned_acts (hdist : src.Distinct) (hs : SystemOk src objects s) (k : κ)
    (h : (∃ u r todo index missing, s.procs (k, none) = .probing u r todo index missing) ∨
      ∃ u missing, s.procs (k, none) = .done (.plan u missing)) :
    ∃ l s', l.client? ≠ none ∧ src.Honest s l ∧ NoPendingPut s l ∧ step H cut s l = some s' := by
  have hok := hs.clients k
  rcases h with ⟨u, r, todo, index, missing, hq⟩ | ⟨u, missing, hq⟩
  · rw [hq] at hok
    obtain ⟨q, h₁, -⟩ := probe_good hs.shared hok
    refine ⟨.act (k, none) (.next .auto), _, client?_act _ _, rfl, noPending_next ?_, step_next (hq ▸ h₁)⟩
    intro u hp
    obtain ⟨r, oid, m, hashed, hq'⟩ := hp
    rw [hq] at hq'
    cases hq'
  · rw [hq] at hok
    have hok' := hok
    cases hok with
    | planned ho hplan hputs hrest =>
    have hacc : PlanAccepted src.manifest missing := by
      refine ⟨fun i hi => ?_, hplan.nodup⟩
      rw [src.descriptors, List.length_map]
      exact hplan.bound i hi
    by_cases hall : ∀ i ∈ missing, s.procs (k, some i) = .done .noContent
    · obtain ⟨q, h₁, -⟩ := finalize_good hs.shared hok' hall s.hist.now
      refine ⟨.act (k, none) (.start (.finalizeCdc src.repository src.manifest.objectOid u)), _, client?_act _ _,
        ⟨rfl, rfl, (u, missing), by rw [hq]; rfl, rfl, hacc, hall⟩, trivial,
        step_start (by rw [hq]; trivial) h₁⟩
    · push Not at hall
      obtain ⟨i, hi, hne⟩ := hall
      obtain ⟨c, hc⟩ : ∃ c, src.chunks[i]? = some c :=
        ⟨_, List.getElem?_eq_getElem (hplan.bound i hi)⟩
      have hput : PutOk src s.toShared u i (s.procs (k, some i)) := hputs i hi
      generalize hqi : s.procs (k, some i) = qi at hput hne
      cases hput with
      | waiting =>
        obtain ⟨h₁, -⟩ := put_good hs.shared hok' hi hqi hc
        refine ⟨.act (k, some i) (.start (.uploadCdcChunk src.repository src.manifest.objectOid u i
          c.data)), _, client?_act _ _, ⟨hqi, rfl, rfl, rfl, ⟨(u, missing), by rw [hq]; rfl, rfl, hacc, hi⟩,
          by rw [hc]; rfl⟩, trivial, step_start (by rw [hqi]; trivial) (by simp only [procStart, h₁]; rfl)⟩
      | registering hc' =>
        obtain ⟨w, h₁, -⟩ := register_good hdist hs.shared hok' hi hc' hqi
        refine ⟨.act (k, some i) (.next .auto), _, client?_act _ _, rfl, noPending_next ?_, step_next h₁⟩
        intro u hp
        obtain ⟨r, oid, m, hashed, hq'⟩ := hp
        rw [hqi] at hq'
        cases hq'
      | storing hc' =>
        obtain ⟨w, h₁, -⟩ := store_good hdist hs.shared hok' hi hc' hqi
        refine ⟨.act (k, some i) (.next .auto), _, client?_act _ _, rfl, noPending_next ?_, step_next h₁⟩
        intro u hp
        obtain ⟨r, oid, m, hashed, hq'⟩ := hp
        rw [hqi] at hq'
        cases hq'
      | stored => exact absurd rfl hne

/-- While a client is not done, some client can act; ids have not run out. -/
theorem some_client_acts (hdist : src.Distinct) (hs : SystemOk src objects s)
    (hfresh : ∃ newId, newId ∉ s.issued) {k : κ} (hk : s.procs (k, none) ≠ .done .noContent) :
    ∃ l s', l.client? ≠ none ∧ src.Honest s l ∧ NoPendingPut s l ∧ step H cut s l = some s' := by
  have hok := hs.clients k
  generalize hq : s.procs (k, none) = q at hok hk
  cases hok with
  | idle hp =>
    obtain ⟨newId, hid⟩ := hfresh
    obtain ⟨w, q, h₁, -⟩ := begin_good hs.shared (.idle hp) hid
    exact ⟨.act (k, none) (.start (.beginCdc src.repository src.manifest.objectOid 1 src.manifest
      newId)), _, client?_act _ _, ⟨hq, rfl, rfl, rfl, rfl⟩, trivial,
      step_start (by rw [hq]; trivial) h₁⟩
  | probing => exact planned_acts hdist hs k (.inl ⟨_, _, _, _, _, hq⟩)
  | planned => exact planned_acts hdist hs k (.inr ⟨_, _, hq⟩)
  | @verifying u pre post _ hsplit ho hcomp hp =>
    cases post with
    | cons c post =>
      obtain ⟨q, h₁, -⟩ := verify_good hs.shared hsplit ho hcomp hp
      refine ⟨.act (k, none) (.next .auto), _, client?_act _ _, rfl, noPending_next ?_,
        step_next (hq ▸ h₁)⟩
      intro u h
      obtain ⟨r, oid, m, hashed, hq'⟩ := h
      rw [hq] at hq'
      cases hq'
    | nil =>
      rw [List.append_nil] at hsplit
      by_cases hpend : NoPendingPut s (.act (k, none) (.next .auto))
      · subst hsplit
        obtain ⟨w, q, h₁, -⟩ := publish_good hdist hs.shared ho hcomp hp
        exact ⟨.act (k, none) (.next .auto), _, client?_act _ _, rfl, hpend, step_next (hq ▸ h₁)⟩
      · -- the client it waits for can act
        simp only [NoPendingPut, hq, List.map_nil, not_forall, not_not] at hpend
        obtain ⟨k', hk'⟩ := hpend
        apply planned_acts hdist hs k'
        unfold Pending at hk'
        split at hk'
        · rename_i h'; exact .inl ⟨_, _, _, _, _, h'⟩
        · rename_i h'; exact .inr ⟨_, _, h'⟩
        · exact hk'.elim
  | finished => exact absurd rfl hk

/-! ## Convergence -/

/-- **Runs**: the invariant holds, and the steps a client took are paid for. -/
theorem system_run (hdist : src.Distinct) {ls : List (Label (κ × Option Nat))}
    (hr : (src.clients.guard NoPendingPut).Run s₀ ls s) (h₀ : SystemOk src objects s₀) :
    SystemOk src objects s ∧
      ∀ k, ls.countP (fun l => l.client? = some k) + s.cost src k ≤ s₀.cost src k := by
  induction hr with
  | nil => exact ⟨h₀, fun k => by simp⟩
  | @cons s s₁ s₂ l ls hst _ ih =>
    obtain ⟨hpend, hon, hstep⟩ := hst
    obtain ⟨h₁, hcost⟩ := system_step hdist h₀ hon hpend hstep
    obtain ⟨h₂, hcount⟩ := ih h₁
    refine ⟨h₂, fun k => ?_⟩
    have := hcost k
    have := hcount k
    rw [List.countP_cons]
    simp only [decide_eq_true_eq]
    omega

theorem ClientOk.noError (h : ClientOk src w main puts) (e : ApiError) :
    main ≠ .done (.failed e) ∧ ∀ i, puts i ≠ .done (.failed e) := by
  cases h with
  | idle hp | probing _ _ _ _ hp => exact ⟨nofun, fun i => by rw [hp i]; exact nofun⟩
  | verifying _ _ _ hp | finished _ hp =>
    refine ⟨nofun, fun i => ?_⟩
    rcases hp i with hi | hi <;> rw [hi] <;> exact nofun
  | @planned u missing _ _ _ hputs hrest =>
    refine ⟨nofun, fun i => ?_⟩
    by_cases hi : i ∈ missing
    · have hput := hputs i hi
      generalize puts i = q at hput
      cases hput <;> exact nofun
    · rw [hrest i hi]; exact nofun

/-- **Concurrent uploads succeed, unless one closes the session of another.** Any number of
honest clients upload one object, in any interleaving without expiry, collection or
failure, and no session is finalized while a `PUT` of some client's plan for it, sent or not, has
not passed `load_open_upload`. Then
at every point of the run:

* no request was answered with an error, and every plan passes the client's checks;
* no client has taken more than `5 * n + 4` steps, for `n` chunks, and if no client can
  act, all have returned `Ok`: every client's upload ends, with `Ok`;
* the clients have inserted at most one `objects` row, the object's, and exactly that one
  if a client has returned `Ok`. -/
theorem uploads_converge (src : Source H cut) (hdist : src.Distinct)
    (s₀ s : State (κ × Option Nat)) (ls : List (Label (κ × Option Nat))) (h₀ : src.Ready s₀)
    (hr : (src.clients.guard NoPendingPut).Run s₀ ls s) :
    ((∀ p e, s.procs p ≠ .done (.failed e)) ∧
      ∀ k u missing, s.procs (k, none) = .done (.plan u missing) →
        PlanAccepted src.manifest missing) ∧
    ((∀ k, ls.countP (fun l => l.client? = some k) ≤ 5 * src.chunks.length + 4) ∧
      ((∃ newId, newId ∉ s.issued) →
        (∀ l s', (src.clients.guard NoPendingPut).step s l s' → l.client? = none) →
        ∀ k, s.procs (k, none) = .done .noContent)) ∧
    ((s.db.objects.rows = s₀.db.objects.rows ∨
        s.db.objects.rows = s₀.db.objects.rows ++ [src.row]) ∧
      ∀ k, s.procs (k, none) = .done .noContent →
        s.db.objects.rows = s₀.db.objects.rows ++ [src.row]) := by
  obtain ⟨hok, hcount⟩ := system_run hdist hr h₀.systemOk
  have hinsert : (s₀.db.objects.insert src.row).rows = s₀.db.objects.rows ++ [src.row] :=
    Table.rows_insert_of_none h₀.unpublished
  refine ⟨⟨?_, ?_⟩, ⟨fun k => ?_, fun hfresh hstuck k => ?_⟩, ?_, fun k hk => ?_⟩
  · rintro ⟨k, _ | i⟩ e
    · exact ((hok.clients k).noError e).1
    · exact ((hok.clients k).noError e).2 i
  · intro k u missing hq
    have := hok.clients k
    rw [hq] at this
    cases this with
    | planned _ hplan =>
      refine ⟨fun i hi => ?_, hplan.nodup⟩
      rw [src.descriptors, List.length_map]
      exact hplan.bound i hi
  · have hk := hcount k
    have hfull : s₀.cost src k = 5 * src.chunks.length + 4 := by
      simp only [State.cost, clientCost, h₀.idle, mainCost, putCost]
      rw [Finset.sum_const_nat fun _ _ => rfl, Finset.card_range]
      omega
    omega
  · by_contra hne
    obtain ⟨l, s', hl, hon, hpend, hst⟩ := some_client_acts hdist hok hfresh hne
    exact hl (hstuck l s' ⟨hpend, hon, hst⟩)
  · rcases hok.shared.objects with e | e
    · exact .inl (by rw [e])
    · exact .inr (by rw [e, hinsert])
  · have hpub := hok.clients k
    rw [hk] at hpub
    cases hpub with
    | finished hpub =>
      obtain ⟨-, o, ho, hkey⟩ := hpub
      rcases hok.shared.objects with e | e
      · rw [e] at ho
        exact absurd hkey (Table.get?_none.1 h₀.unpublished o ho)
      · rw [e, hinsert]

namespace Sample

/-- Byte `a` in repository 1. -/
def source : Source hashes Sample.cut where
  repository := 1
  body := [0x61]
  chunks := [⟨⟨hashes.blake3 [0x61], 0, 1⟩, [0x61]⟩]
  manifest := manifest [0x61]
  chunked := rfl
  valid := by decide +kernel

/-- Two clients begin and are both told to send the chunk; client 0 sends it and finalizes;
then client 1 sends it. -/
def overtaken : List (Label (Fin 2 × Option Nat)) :=
  begins (first, none) 1 7 [0x61] ++ begins (second, none) 1 8 [0x61] ++
    Sample.puts (first, some 0) 1 7 [0x61] ++ finalizes (first, none) 1 7 [0x61] ++
    [.act (second, some 0) (.start (.uploadCdcChunk 1 (hashes.sha256 [0x61]) 7 0 [0x61]))]

/-- The same with the second `PUT` sent before client 0 finalizes. -/
def together : List (Label (Fin 2 × Option Nat)) :=
  begins (first, none) 1 7 [0x61] ++ begins (second, none) 1 8 [0x61] ++
    Sample.puts (first, some 0) 1 7 [0x61] ++
    [.act (second, some 0) (.start (.uploadCdcChunk 1 (hashes.sha256 [0x61]) 7 0 [0x61]))] ++
    finalizes (first, none) 1 7 [0x61] ++ run (second, some 0) 2 ++
    [.act (second, none) (.start (.finalizeCdc 1 (hashes.sha256 [0x61]) 7))]

end Sample

open Sample in
/-- The `PUT` of client 1 is answered 404, which `upload` does not retry: it fails. -/
theorem late_put_fails :
    ∃ s : State (Fin 2 × Option Nat), source.clients.Reachable s ∧
      s.procs (0, none) = .done .noContent ∧
      s.procs (1, some 0) = .done (.failed ⟨404, "open upload session not found"⟩) ∧
      retryableStatus 404 = false :=
  LTS.exists_reachable_of_execGuard overtaken (source.ready_initial 0) (by decide +kernel)

open Sample in
/-- With the second `PUT` accepted in time both clients return `Ok`, and there is one row. -/
theorem uploads_converge_together :
    ∃ s : State (Fin 2 × Option Nat),
      (source.clients.guard NoPendingPut).Run (.initial 0) together s ∧
      (∀ k, s.procs (k, none) = .done .noContent) ∧ s.db.objects.rows = [source.row] := by
  have hdist : source.Distinct := by
    intro a ha b hb _
    simp only [source, List.map_cons, List.map_nil, List.mem_singleton, Set.mem_ofPred_eq] at ha hb
    rw [ha, hb]
  obtain ⟨s, hs, hdone⟩ : ∃ s : State (Fin 2 × Option Nat),
      (source.clients.guard NoPendingPut).Run (.initial 0) together s ∧
      ∀ k, s.procs (k, none) = .done .noContent := by
    rw [Source.clients, LTS.guard_ofFn, LTS.guard_ofFn]
    exact LTS.exists_run_of_exec (by decide +kernel)
  have hready : source.Ready (.initial 0 : State (Fin 2 × Option Nat)) := source.ready_initial 0
  exact ⟨s, hs, hdone, (uploads_converge source hdist _ s together hready hs).2.2.2 0 (hdone 0)⟩

end GitLfsDelta
