import GitLfsDelta.L4System.Pending

/-!
# The drain keeps the chunk row to itself

Every statement leaves its transaction in order (`Tx.Ok`): its writes are justified, the counts
are as far ahead as the next statement expects, and what it read under a lock still holds.

* `statement_inOrder`: a statement keeps its own transaction in order.
* `Tx.Ok.stable`: the commit of another transaction keeps it in order.
* `postgres_inv`: so every reachable state has exclusive locks, an intact committed database
  and transactions in order.
* `drain_excludes`: from `chunks.delete` to its end the drain has a chunk that no committed row
  names, no open session links, and whose committed count is zero.

Registration meets the drain at `ON CONFLICT DO UPDATE`, publication only at the foreign key of
`object_chunks`: its `ON CONFLICT DO NOTHING` passes a row that is locked.
-/
namespace GitLfsDelta.Sql

open RowLocks (applyAll Guards Covers)

/-! ## Transactions in order -/

/-- How far ahead of `object_chunks` the counts are at this point. -/
def Point.balance : Point → Uuid → ChunkId → Int
  | .addReference r _ _ _ d _, r', c' => if r = r' ∧ d.id = c' then -1 else 0
  | .dropReference r _ todo, r', c' | .enqueueChunk r _ _ todo, r', c' =>
    if r' = r then (todo.count c' : Int) else 0
  | _, _, _ => 0

/-- What the drain knows of the chunk it has locked. -/
structure Erasable (db : Db) (holds : Resource → LockMode → Prop) (r : Uuid) (c : ChunkId) : Prop where
  locked : holds (.chunk r c) .update
  unreferenced : db.Unreferenced r c
  dormant : Dormant db r c

/-- What the collector knows of the object whose tombstone it has locked. -/
structure Collectable (db : Db) (holds : Resource → LockMode → Prop) (r : Uuid) (oid : ObjectOid) : Prop where
  locked : holds (.tombstone r oid) .update
  present : Present db (.object r oid)

/-- What the publisher knows between its `INSERT INTO objects` and the end; `n` rows of
`object_chunks` are written. -/
structure Publishing (db : Db) (ws : List Write) (r : Uuid) (oid : ObjectOid) (n : Nat) : Prop where
  adds : Adds ws
  object : ∃ o, .object o ∈ ws ∧ o.key = (r, oid)
  absent : ¬ Present db (.object r oid)
  ordinals : ∀ x, .objectChunk x ∈ ws → x.ordinal < n

/-- What a transaction has done and knows before its next statement. -/
def Point.Ok (db : Db) (holds : Resource → LockMode → Prop) (ws : List Write) : Point → Prop
  | .upsertChunk _ _ _ | .lockSession _ _ _ | .lockCollection _ | .takeTombstone _ | .lockChunk _ _ => ws = []
  | .linkChunk _ _ _ | .insertTombstones _ _ _ => Adds ws
  | .insertChunks _ _ _ _ | .insertObject _ _ _ => Adds ws ∧ ∀ x, .objectChunk x ∉ ws
  | .insertObjectChunk r _ m n _ => Publishing db ws r m.objectOid n
  | .addReference r _ m n _ _ => Publishing db ws r m.objectOid (n + 1)
  | .readChunks r oid => ws = [] ∧ Collectable db holds r oid
  | .deleteObject r oid cs =>
    ws = [] ∧ Collectable db holds r oid ∧ (db.chunksOf r oid).map (·.chunkId) = cs
  | .checkSessions r c => ws = [] ∧ holds (.chunk r c) .update ∧ db.Unreferenced r c
  | .erase r c | .deleteChunk r c => ws = [] ∧ Erasable db holds r c
  | .dequeueErased r c | .commitErased r c => Erasable db holds r c
  | _ => True

structure Tx.Ok (db : Db) (holds : Resource → LockMode → Prop) (t : Tx) : Prop where
  justified : Justified db t.writes
  balance : ∀ r c, balance db t.writes r c = t.point.balance r c
  point : t.point.Ok db holds t.writes

variable {db : Db} {holds holds' : Resource → LockMode → Prop} {ws : List Write} {w : Write}

theorem Point.Ok.mono {pt : Point} (h : pt.Ok db holds ws) (hmono : ∀ x m, holds x m → holds' x m) :
    pt.Ok db holds' ws := by
  cases pt with
  | readChunks r oid => exact ⟨h.1, hmono _ _ h.2.locked, h.2.present⟩
  | deleteObject r oid cs => exact ⟨h.1, ⟨hmono _ _ h.2.1.locked, h.2.1.present⟩, h.2.2⟩
  | checkSessions r c => exact ⟨h.1, hmono _ _ h.2.1, h.2.2⟩
  | erase r c => exact ⟨h.1, hmono _ _ h.2.locked, h.2.unreferenced, h.2.dormant⟩
  | deleteChunk r c => exact ⟨h.1, hmono _ _ h.2.locked, h.2.unreferenced, h.2.dormant⟩
  | dequeueErased r c => exact ⟨hmono _ _ h.locked, h.unreferenced, h.dormant⟩
  | commitErased r c => exact ⟨hmono _ _ h.locked, h.unreferenced, h.dormant⟩
  | _ => exact h

theorem Tx.Ok.mono {t : Tx} (h : t.Ok db holds) (hmono : ∀ x m, holds x m → holds' x m) :
    t.Ok db holds' :=
  ⟨h.justified, h.balance, h.point.mono hmono⟩

theorem Tx.Ok.idle (db : Db) (holds : Resource → LockMode → Prop) (now : Nat) :
    Tx.Ok db holds ⟨.idle, now, []⟩ := ⟨.nil, fun _ _ => rfl, trivial⟩

/-- A transaction begins in order. -/
theorem Tx.Ok.begin {t : Transaction} {pt : Point} (h : t.first = some pt) (now : Nat) :
    Tx.Ok db holds ⟨pt, now, []⟩ := by
  cases t with
  | register | begin | collect | reclaim | drain =>
    cases h
    exact ⟨.nil, fun _ _ => rfl, by trivial⟩
  | stage =>
    cases h
    exact ⟨.nil, fun _ _ => rfl, fun _ h => absurd h List.not_mem_nil⟩
  | publish r u m =>
    simp only [Transaction.first] at h
    split at h
    · cases h
      exact ⟨.nil, fun _ _ => rfl, by trivial⟩
    · cases h

/-! ## One statement -/

theorem Adds.snoc (h : Adds ws) (hw : w.deletes = none) : Adds (ws ++ [w]) := by
  intro v hv
  rcases List.mem_append.1 hv with hv | hv
  · exact h v hv
  · rw [List.mem_singleton.1 hv]
    exact hw

/-- A statement that writes nothing. -/
theorem Tx.Ok.pass {pt pt' : Point} {now : Nat} (h : Tx.Ok db holds ⟨pt, now, ws⟩)
    (hb : ∀ r c, pt.balance r c = pt'.balance r c) (hok : pt'.Ok db holds ws) :
    Tx.Ok db holds ⟨pt', now, ws ++ []⟩ := by
  rw [List.append_nil]
  exact ⟨h.justified, fun r c => (h.balance r c).trans (hb r c), hok⟩

/-- A statement that writes one row. -/
theorem Tx.Ok.write {pt pt' : Point} {now : Nat} (h : Tx.Ok db holds ⟨pt, now, ws⟩)
    (hj : w.Justified db ws) (hb : ∀ r c, pt.balance r c + w.delta db r c = pt'.balance r c)
    (hok : pt'.Ok db holds (ws ++ [w])) : Tx.Ok db holds ⟨pt', now, ws ++ [w]⟩ := by
  refine ⟨h.justified.snoc hj, ?_, hok⟩
  intro r c
  have hbefore : Sql.balance db ws r c = pt.balance r c := h.balance r c
  simp [Sql.balance, hbefore, hb r c]

/-- A statement with rows that rely on nothing. -/
theorem Tx.Ok.plain {pt pt' : Point} {now : Nat} {vs : List Write} (h : Tx.Ok db holds ⟨pt, now, ws⟩)
    (hv : ∀ v ∈ vs, v.Plain) (hb : ∀ r c, pt.balance r c = pt'.balance r c)
    (hok : pt'.Ok db holds (ws ++ vs)) : Tx.Ok db holds ⟨pt', now, ws ++ vs⟩ := by
  refine ⟨h.justified.append_plain hv, ?_, hok⟩
  intro r c
  have hbefore : Sql.balance db ws r c = pt.balance r c := h.balance r c
  simp [balance_plain hv, hbefore, hb r c]

section Statements

variable {now : Nat} {e : Effect} {r u : Uuid} {c : ChunkId} {oid : ObjectOid} {m : ObjectManifest}

/-- The link's foreign keys were checked against what the transaction sees. -/
theorem link_refers {d d' : Db} (hfree : d.sessionChunks.get? (u, c) = none)
    (h : d.linkSessionChunk u r c = .ok d') : ∀ x ∈ (Write.link ⟨u, r, c⟩).refers, Present d x := by
  unfold Db.linkSessionChunk at h
  rw [if_neg (by rw [hfree]; simp)] at h
  split at h; · cases h
  rename_i hfk
  rw [not_or, Bool.not_eq_false] at hfk
  obtain ⟨s, hs, -⟩ := (Option.any_eq_true _ _).1 hfk.1
  obtain ⟨hs, hid⟩ := Table.get?_some.1 hs
  intro x hx
  simp only [Write.refers, List.mem_cons, List.not_mem_nil, or_false] at hx
  rcases hx with rfl | rfl
  · exact ⟨s, hs, hid⟩
  · exact Table.get?_ne_none.1 hfk.2

theorem upsertChunk_inOrder {d : ChunkDescriptor} (h : Tx.Ok db holds ⟨.upsertChunk r u d, now, ws⟩)
    (hs : upsertChunk (applyAll Write.apply ws db) r u d = .effect e) :
    Tx.Ok db holds ⟨e.next, now, ws ++ e.writes⟩ := by
  obtain rfl : ws = [] := h.point
  unfold upsertChunk at hs
  split at hs
  · split at hs; · cases hs
    cases hs
    refine h.write ⟨by simp [Write.refers], rfl, rfl⟩ (by simp [Point.balance, Write.delta]) ?_
    exact Adds.snoc (fun _ h => absurd h List.not_mem_nil) rfl
  · split at hs
    · cases hs
      exact h.pass (fun _ _ => rfl) fun _ h => absurd h List.not_mem_nil
    · cases hs

theorem linkChunk_inOrder (h : Tx.Ok db holds ⟨.linkChunk r u c, now, ws⟩)
    (hs : linkChunk (applyAll Write.apply ws db) r u c = .effect e) :
    Tx.Ok db holds ⟨e.next, now, ws ++ e.writes⟩ := by
  have hadds : Adds ws := h.point
  unfold linkChunk at hs
  split at hs
  · cases hs
    exact h.pass (fun _ _ => rfl) trivial
  · rename_i hfree
    split at hs; · cases hs
    rename_i d' hlink
    cases hs
    have hrefers := link_refers (by simpa using hfree) hlink
    refine h.write ⟨fun x hx => ⟨hadds, .of_view (hrefers x hx)⟩, trivial⟩ ?_ trivial
    simp [Point.balance, Write.delta]

theorem lockSession_inOrder (h : Tx.Ok db holds ⟨.lockSession r u m, now, ws⟩)
    (hs : lockSession (applyAll Write.apply ws db) now r u m = .effect e) :
    Tx.Ok db holds ⟨e.next, now, ws ++ e.writes⟩ := by
  obtain rfl : ws = [] := h.point
  unfold lockSession at hs
  split at hs; · cases hs
  split at hs
  · cases hs
    exact h.pass (fun _ _ => rfl) trivial
  · cases hs
  · cases hs
    exact h.pass (fun _ _ => rfl) ⟨fun _ h => absurd h List.not_mem_nil, fun _ => List.not_mem_nil⟩

theorem insertChunks_inOrder {todo : List ChunkDescriptor}
    (h : Tx.Ok db holds ⟨.insertChunks r u m todo, now, ws⟩)
    (hs : insertChunks (applyAll Write.apply ws db) r u m todo = .effect e) :
    Tx.Ok db holds ⟨e.next, now, ws ++ e.writes⟩ := by
  obtain ⟨hadds, hno⟩ := h.point
  cases todo with
  | nil =>
    cases hs
    exact h.pass (fun _ _ => rfl) ⟨hadds, hno⟩
  | cons d todo =>
    simp only [insertChunks] at hs
    split at hs; · cases hs
    split at hs
    · cases hs
      refine h.write ⟨by simp [Write.refers], rfl, h.balance r d.id⟩ (by simp [Point.balance, Write.delta]) ?_
      exact ⟨hadds.snoc rfl, fun x => by simp [hno x]⟩
    · cases hs
      exact h.pass (fun _ _ => rfl) ⟨hadds, hno⟩

theorem insertObject_inOrder (h : Tx.Ok db holds ⟨.insertObject r u m, now, ws⟩)
    (hs : insertObject (applyAll Write.apply ws db) r u m = .effect e) :
    Tx.Ok db holds ⟨e.next, now, ws ++ e.writes⟩ := by
  obtain ⟨hadds, hno⟩ := h.point
  unfold insertObject at hs
  split at hs; · cases hs
  split at hs
  · rename_i hnone
    cases hs
    refine h.plain (List.forall_mem_singleton.2 trivial) (fun _ _ => rfl) ?_
    refine ⟨hadds.snoc rfl, ⟨_, List.mem_append_right _ List.mem_cons_self, rfl⟩, ?_, by simp [hno]⟩
    intro hp
    exact Table.get?_ne_none.2 (InHand.view (.inl hp) hadds) hnone
  · cases hs
    exact h.pass (fun _ _ => rfl) trivial

theorem insertObjectChunk_inOrder {n : Nat} {todo : List ChunkDescriptor}
    (h : Tx.Ok db holds ⟨.insertObjectChunk r u m n todo, now, ws⟩)
    (hs : insertObjectChunk (applyAll Write.apply ws db) r u m n todo = .effect e) :
    Tx.Ok db holds ⟨e.next, now, ws ++ e.writes⟩ := by
  have hp : Publishing db ws r m.objectOid n := h.point
  cases todo with
  | nil =>
    cases hs
    exact h.pass (fun _ _ => rfl) trivial
  | cons d todo =>
    simp only [insertObjectChunk] at hs
    split at hs; · cases hs
    split at hs; · cases hs
    rename_i d' hrow
    cases hs
    obtain ⟨-, hchunk, -⟩ := insertObjectChunk_ok hrow
    obtain ⟨o, ho, hkey⟩ := hp.object
    obtain ⟨hr, hoid⟩ := Prod.mk.inj hkey
    have hobject : InHand db ws (.object r m.objectOid) :=
      .inr ⟨.object o, ho, by simp [Write.inserts, hr, hoid]⟩
    refine h.write ?_ ?_ ?_
    · constructor
      · intro x hx
        simp only [Write.refers, List.mem_cons, List.not_mem_nil, or_false] at hx
        rcases hx with rfl | rfl
        · exact ⟨hp.adds, hobject⟩
        · exact ⟨hp.adds, .of_view hchunk⟩
      · refine ⟨hp.absent, fun y hy e => ?_⟩
        -- the rows so far have smaller ordinals
        have hlt := hp.ordinals y hy
        have heq : y.ordinal = n := (Prod.mk.inj (Prod.mk.inj e).2).2
        omega
    · intro r' c'
      simp only [Point.balance, Write.delta, zero_add]
      rfl
    · refine ⟨hp.adds.snoc rfl, ⟨o, by simp [ho], hkey⟩, hp.absent, fun y hy => ?_⟩
      rcases List.mem_append.1 hy with hy | hy
      · have hlt := hp.ordinals y hy
        omega
      · simp only [List.mem_singleton, Write.objectChunk.injEq] at hy
        rw [hy]
        exact Nat.lt_succ_self n

theorem addReference_inOrder {n : Nat} {d : ChunkDescriptor} {todo : List ChunkDescriptor}
    (h : Tx.Ok db holds ⟨.addReference r u m n d todo, now, ws⟩) :
    Tx.Ok db holds ⟨.insertObjectChunk r u m (n + 1) todo, now, ws ++ [.addReference r d.id]⟩ := by
  have hp : Publishing db ws r m.objectOid (n + 1) := h.point
  refine h.write ⟨by simp [Write.refers], trivial⟩ ?_ ?_
  · intro r' c'
    simp only [Point.balance, Write.delta]
    split <;> rfl
  · obtain ⟨o, ho, hkey⟩ := hp.object
    refine ⟨hp.adds.snoc rfl, ⟨o, by simp [ho], hkey⟩, hp.absent, fun y hy => hp.ordinals y ?_⟩
    simpa using hy

theorem expireSessions_inOrder {newId : Uuid} (h : Tx.Ok db holds ⟨.expireSessions r m newId, now, ws⟩)
    (hs : expireSessions (applyAll Write.apply ws db) now r m newId = .effect e) :
    Tx.Ok db holds ⟨e.next, now, ws ++ e.writes⟩ := by
  cases hs
  exact h.plain (List.forall_mem_map.2 fun _ _ => trivial) (fun _ _ => rfl) trivial

theorem upsertSession_inOrder {newId : Uuid} (h : Tx.Ok db holds ⟨.upsertSession r m newId, now, ws⟩)
    (hs : upsertSession (applyAll Write.apply ws db) now r m newId = .effect e) :
    Tx.Ok db holds ⟨e.next, now, ws ++ e.writes⟩ := by
  unfold upsertSession at hs
  split at hs; · cases hs
  split at hs
  · split at hs; · cases hs
    cases hs
    exact h.plain (List.forall_mem_singleton.2 trivial) (fun _ _ => rfl) trivial
  · split at hs; · cases hs
    cases hs
    exact h.plain (List.forall_mem_singleton.2 trivial) (fun _ _ => rfl) trivial

/-! ### Collection -/

theorem takeTombstone_inOrder {busy : Resource → Bool} {choice : Option ObjectOid} (hdb : Intact (fun _ _ => 0) db)
    (h : Tx.Ok db holds ⟨.takeTombstone r, now, ws⟩)
    (hs : takeTombstone busy (applyAll Write.apply ws db) now r choice = .effect e)
    (htakes : ∀ y ∈ e.takes, holds y.1 y.2) : Tx.Ok db holds ⟨e.next, now, ws ++ e.writes⟩ := by
  obtain rfl : ws = [] := h.point
  cases choice with
  | none =>
    simp only [takeTombstone] at hs
    split at hs
    · cases hs
      exact h.pass (fun _ _ => rfl) trivial
    · cases hs
  | some oid =>
    simp only [takeTombstone] at hs
    split at hs; · cases hs
    rename_i t ht
    split at hs
    · cases hs
      obtain ⟨htm, hkey⟩ := Table.get?_some.1 ht
      obtain ⟨rfl, rfl⟩ := Prod.mk.inj hkey
      refine h.pass (fun _ _ => rfl) ⟨rfl, htakes (_, _) (by simp [Effect.takes]), ?_⟩
      exact hdb.refers (.tombstone t) htm _ (by simp [Write.refers])
    · cases hs

theorem deleteObject_inOrder {cs : List ChunkId} (h : Tx.Ok db holds ⟨.deleteObject r oid cs, now, ws⟩) :
    Tx.Ok db holds ⟨.dropReference r oid cs, now, ws ++ [.deleteObject r oid]⟩ := by
  obtain ⟨rfl, -, hcs⟩ := h.point
  refine h.write ⟨by simp [Write.refers], rfl⟩ ?_ trivial
  intro r' c'
  simp [Point.balance, Write.delta, hcs]

theorem dropReference_inOrder {todo : List ChunkId} (h : Tx.Ok db holds ⟨.dropReference r oid todo, now, ws⟩)
    (hs : dropReference (applyAll Write.apply ws db) r oid todo = .effect e) :
    Tx.Ok db holds ⟨e.next, now, ws ++ e.writes⟩ := by
  cases todo with
  | nil =>
    cases hs
    exact h.pass (by simp [Point.balance]) trivial
  | cons c todo =>
    simp only [dropReference] at hs
    split at hs; · cases hs
    cases hs
    refine h.write ⟨by simp [Write.refers], ?_⟩ ?_ trivial
    · show 0 < balance db ws r c
      rw [show balance db ws r c = Point.balance _ r c from h.balance r c]
      simp only [Point.balance, if_true, List.count_cons_self]
      omega
    · intro r' c'
      simp only [Point.balance, Write.delta, List.count_cons]
      grind

theorem enqueueRows_plain (d : Db) (cs : List ChunkId) : ∀ v ∈ enqueueRows d now r cs, v.Plain := by
  unfold enqueueRows
  exact List.forall_mem_map.2 fun _ _ => trivial

theorem dequeueRows_plain (d : Db) : ∀ v ∈ dequeueRows d r c, v.Plain := by
  unfold dequeueRows
  split
  · exact List.forall_mem_nil _
  · exact List.forall_mem_singleton.2 trivial

/-! ### Draining -/

theorem lockChunk_inOrder (h : Tx.Ok db holds ⟨.lockChunk r c, now, ws⟩)
    (hs : lockChunk (applyAll Write.apply ws db) r c = .effect e) (htakes : ∀ y ∈ e.takes, holds y.1 y.2) :
    Tx.Ok db holds ⟨e.next, now, ws ++ e.writes⟩ := by
  obtain rfl : ws = [] := h.point
  unfold lockChunk at hs
  split at hs
  · cases hs
    exact h.pass (fun _ _ => rfl) trivial
  · rename_i k hk
    cases hs
    obtain ⟨hkm, hkey⟩ := Table.get?_some.1 hk
    have hlock : holds (.chunk r c) .update := htakes (_, _) (by simp [Effect.takes])
    by_cases hpos : 0 < k.referenceCount
    · simp only [if_pos hpos]
      exact h.pass (fun _ _ => rfl) trivial
    · simp only [if_neg hpos]
      exact h.pass (fun _ _ => rfl) ⟨rfl, hlock, k, hkm, hkey, by omega⟩

theorem checkSessions_inOrder (hdb : Intact (fun _ _ => 0) db) (h : Tx.Ok db holds ⟨.checkSessions r c, now, ws⟩) :
    Tx.Ok db holds ⟨if (applyAll Write.apply ws db).ActivelyLinked r c then .commit else .erase r c, now,
      ws ++ []⟩ := by
  obtain ⟨rfl, hlock, hrefs⟩ := h.point
  split
  · exact h.pass (fun _ _ => rfl) trivial
  · rename_i hinactive
    exact h.pass (fun _ _ => rfl) ⟨rfl, hlock, hrefs, hdb.dormant hinactive⟩

/-- `DELETE FROM chunks` succeeds only where nothing refers to the row. -/
theorem loose_of_delete {d d' : Db} (hrefs : d.Unreferenced r c) (h : d.deleteChunkRow r c = .ok d') :
    Loose d r c := by
  obtain ⟨k, hk, hkey, h0⟩ := hrefs
  unfold Db.deleteChunkRow at h
  split at h; · cases h
  rename_i hfk
  rw [Table.get?_some.2 ⟨hk, hkey⟩] at hfk
  simp only [Option.any_some, h0, decide_true, true_and, not_or, not_not] at hfk
  intro v hv hx
  cases v with
  | objectChunk row =>
    have hrow : row ∈ d.referencesTo r c := by
      simp only [Write.refers, List.mem_cons, Resource.chunk.injEq, List.not_mem_nil, or_false,
        reduceCtorEq, false_or] at hx
      exact List.mem_filter.2 ⟨hv, by simp [hx.1, hx.2]⟩
    rw [hfk.1] at hrow
    exact absurd hrow List.not_mem_nil
  | link row =>
    simp only [Write.refers, List.mem_cons, Resource.chunk.injEq, List.not_mem_nil, or_false,
      reduceCtorEq, false_or] at hx
    exact hfk.2 ⟨row, hv, hx.1.symm, hx.2.symm⟩
  | tombstone row => simp [Write.refers] at hx
  | _ => exact hv

theorem deleteChunk_inOrder (h : Tx.Ok db holds ⟨.deleteChunk r c, now, ws⟩)
    (hs : deleteChunk (applyAll Write.apply ws db) r c = .effect e) :
    Tx.Ok db holds ⟨e.next, now, ws ++ e.writes⟩ := by
  obtain ⟨rfl, herase⟩ := h.point
  unfold deleteChunk at hs
  split at hs; · cases hs
  rename_i d' hdelete
  cases hs
  refine h.write ⟨by simp [Write.refers], rfl, loose_of_delete herase.unreferenced hdelete⟩ ?_ herase
  simp [Point.balance, Write.delta]

theorem insertTombstones_inOrder {seconds : Nat} {todo : List GcCandidate}
    (h : Tx.Ok db holds ⟨.insertTombstones r seconds todo, now, ws⟩)
    (hs : insertTombstones (applyAll Write.apply ws db) now r seconds todo = .effect e) :
    Tx.Ok db holds ⟨e.next, now, ws ++ e.writes⟩ := by
  have hadds : Adds ws := h.point
  cases todo with
  | nil =>
    cases hs
    exact h.pass (fun _ _ => rfl) trivial
  | cons t todo =>
    simp only [insertTombstones] at hs
    split at hs
    · cases hs
      exact h.pass (fun _ _ => rfl) hadds
    · split at hs; · cases hs
      rename_i hobject
      cases hs
      refine h.write ?_ (by simp [Point.balance, Write.delta]) (hadds.snoc rfl)
      refine ⟨fun x hx => ⟨hadds, .of_view ?_⟩, trivial⟩
      simp only [Write.refers, List.mem_singleton] at hx
      rw [hx]
      exact Table.get?_ne_none.1 hobject

/-- **A statement keeps its transaction in order**, with the locks it has taken. -/
theorem statement_inOrder {busy : Resource → Bool} {choice : Option ObjectOid} {pt : Point}
    (hdb : Intact (fun _ _ => 0) db) (h : Tx.Ok db holds ⟨pt, now, ws⟩)
    (hs : statement busy (applyAll Write.apply ws db) now choice pt = .effect e)
    (htakes : ∀ y ∈ e.takes, holds y.1 y.2) : Tx.Ok db holds ⟨e.next, now, ws ++ e.writes⟩ := by
  cases pt with
  | idle | commit | commitErased => cases hs
  | upsertChunk => exact upsertChunk_inOrder h hs
  | linkChunk => exact linkChunk_inOrder h hs
  | lockSession => exact lockSession_inOrder h hs
  | insertChunks => exact insertChunks_inOrder h hs
  | insertObject => exact insertObject_inOrder h hs
  | insertObjectChunk => exact insertObjectChunk_inOrder h hs
  | addReference =>
    cases hs
    exact addReference_inOrder h
  | expireSessions => exact expireSessions_inOrder h hs
  | upsertSession => exact upsertSession_inOrder h hs
  | lockCollection =>
    cases hs
    exact h.pass (fun _ _ => rfl) h.point
  | takeTombstone => exact takeTombstone_inOrder hdb h hs htakes
  | readChunks =>
    cases hs
    obtain ⟨rfl, hcollect⟩ := h.point
    exact h.pass (fun _ _ => rfl) ⟨rfl, hcollect, rfl⟩
  | deleteObject =>
    cases hs
    exact deleteObject_inOrder h
  | dropReference => exact dropReference_inOrder h hs
  | enqueueChunk =>
    cases hs
    exact h.plain (enqueueRows_plain _ _) (fun _ _ => rfl) trivial
  | queueExpired =>
    cases hs
    exact h.plain (enqueueRows_plain _ _) (fun _ _ => rfl) trivial
  | expireDue | deleteExpired =>
    cases hs
    exact h.plain (List.forall_mem_map.2 fun _ _ => trivial) (fun _ _ => rfl) trivial
  | finalizeSession =>
    cases hs
    exact h.plain (List.forall_mem_singleton.2 trivial) (fun _ _ => rfl) trivial
  | lockChunk => exact lockChunk_inOrder h hs htakes
  | dequeueChunk =>
    cases hs
    exact h.plain (dequeueRows_plain _) (fun _ _ => rfl) trivial
  | checkSessions =>
    cases hs
    exact checkSessions_inOrder hdb h
  | erase =>
    cases hs
    exact h.pass (fun _ _ => rfl) h.point
  | deleteChunk => exact deleteChunk_inOrder h hs
  | dequeueErased =>
    cases hs
    exact h.plain (dequeueRows_plain _) (fun _ _ => rfl) h.point
  | insertTombstones => exact insertTombstones_inOrder h hs

end Statements

/-! ## The commit of another transaction -/

section Stable

variable {ι : Type} {locks : RowLocks ι Resource} {p q : ι} {vs : List Write} {r : Uuid} {c : ChunkId}
  {oid : ObjectOid}

theorem Justified.of_mem (h : Justified db ws) (hw : w ∈ ws) : ∃ pre, w.Justified db pre := by
  obtain ⟨pre, post, rfl⟩ := List.append_of_mem hw
  exact ⟨pre, LTS.Admitted.entry h rfl⟩

/-- An object is deleted with its tombstone. -/
theorem collectable_guarded {m : LockMode} :
    Guards Write.apply Write.demands (.tombstone r oid) m fun d => Present d (.object r oid) := by
  intro w d hw h
  apply h.apply
  intro hd
  have hmem : (.tombstone r oid, .write) ∈ w.demands := by
    cases w <;> simp_all [Write.deletes, Write.demands]
  have hcompatible := hw .write hmem
  rw [m.compatible_write] at hcompatible
  cases hcompatible

theorem Collectable.stable (hex : locks.Exclusive) (hne : p ≠ q) (hq : Covers Write.demands locks q vs)
    (h : Collectable db (locks.Holds p) r oid) :
    Collectable (applyAll Write.apply vs db) (locks.Holds p) r oid :=
  ⟨h.locked, RowLocks.guarded hex h.locked hne hq collectable_guarded h.present⟩

/-- The rows of an object that is to be collected do not change: an object that is committed is
not being published. -/
theorem Collectable.rows_stable (hex : locks.Exclusive) (hne : p ≠ q)
    (hq : Covers Write.demands locks q vs) (hj : Justified db vs)
    (h : Collectable db (locks.Holds p) r oid) :
    (applyAll Write.apply vs db).chunksOf r oid = db.chunksOf r oid := by
  refine RowLocks.applyAll_keeps (F := fun d : Db => d.chunksOf r oid = db.chunksOf r oid) ?_ rfl
  intro w hw d hd
  rw [← hd]
  apply chunksOf_apply
  · intro row hrow e
    subst hrow
    obtain ⟨pre, hrow⟩ := hj.of_mem hw
    apply hrow.allowed.1
    rw [e.1, e.2]
    exact h.present
  · intro hdelete
    subst hdelete
    have hlock : locks.Holds q (.tombstone r oid) .write :=
      hq _ hw (.tombstone r oid, .write) (by simp [Write.demands])
    cases hex p q _ _ _ hne h.locked hlock

theorem Erasable.stable (hex : locks.Exclusive) (hne : p ≠ q) (hq : Covers Write.demands locks q vs)
    (h : Erasable db (locks.Holds p) r c) :
    Erasable (applyAll Write.apply vs db) (locks.Holds p) r c where
  locked := h.locked
  unreferenced := RowLocks.guarded hex h.locked hne hq unreferenced_guarded h.unreferenced
  dormant := RowLocks.guarded hex h.locked hne hq dormant_guarded h.dormant

theorem Publishing.stable {n : Nat} (hex : locks.Exclusive) (hne : p ≠ q)
    (hq : Covers Write.demands locks q vs) (hp : Covers Write.demands locks p ws)
    (h : Publishing db ws r oid n) : Publishing (applyAll Write.apply vs db) ws r oid n := by
  refine ⟨h.adds, h.object, ?_, h.ordinals⟩
  obtain ⟨o, ho, hkey⟩ := h.object
  obtain ⟨rfl, rfl⟩ := Prod.mk.inj hkey
  have hlock : locks.Holds p (.object o.repositoryId o.oid) .write :=
    hp _ ho (.object o.repositoryId o.oid, .write) (by simp [Write.demands])
  exact RowLocks.guarded hex hlock hne hq absent_guarded h.absent

/-- **Another transaction's commit keeps a transaction in order.** -/
theorem Tx.Ok.stable {t : Tx} (hex : locks.Exclusive) (hne : p ≠ q)
    (hq : Covers Write.demands locks q vs) (hj : Justified db vs)
    (hp : Covers Write.demands locks p t.writes) (h : t.Ok db (locks.Holds p)) :
    t.Ok (applyAll Write.apply vs db) (locks.Holds p) := by
  refine ⟨h.justified.stable hex hne hq hp, ?_, ?_⟩
  · intro r c
    rw [balance_stable hex hne hq hp]
    exact h.balance r c
  · obtain ⟨pt, now, ws⟩ := t
    have hpoint := h.point
    cases pt with
    | insertObjectChunk | addReference => exact Publishing.stable hex hne hq hp hpoint
    | readChunks => exact ⟨hpoint.1, hpoint.2.stable hex hne hq⟩
    | deleteObject r oid cs =>
      obtain ⟨hws, hcollect, hcs⟩ := hpoint
      refine ⟨hws, hcollect.stable hex hne hq, ?_⟩
      rw [hcollect.rows_stable hex hne hq hj]
      exact hcs
    | checkSessions r c =>
      obtain ⟨hws, hlock, hrefs⟩ := hpoint
      exact ⟨hws, hlock, RowLocks.guarded hex hlock hne hq unreferenced_guarded hrefs⟩
    | erase | deleteChunk => exact ⟨hpoint.1, hpoint.2.stable hex hne hq⟩
    | dequeueErased | commitErased => exact hpoint.stable hex hne hq
    | _ => exact hpoint

end Stable

/-! ## Every reachable state -/

section Postgres

variable {ι : Type} [DecidableEq ι]

structure State.Inv (s : State ι) : Prop where
  exclusive : s.locks.Exclusive
  covers : ∀ p, Covers Write.demands s.locks p (s.txs p).writes
  intact : Intact (fun _ _ => 0) s.db
  ok : ∀ p, (s.txs p).Ok s.db (s.locks.Holds p)

/-- A transaction ends; the others still hold what they held. -/
theorem State.Inv.ended {s : State ι} (h : s.Inv) (p : ι) {db : Db} (hdb : Intact (fun _ _ => 0) db)
    (hok : ∀ q, q ≠ p → (s.txs q).Ok db (s.locks.Holds q)) : (s.ended p db).Inv where
  exclusive := h.exclusive.release p
  covers q := by
    by_cases e : q = p
    · subst e
      simp [State.ended, Covers]
    · intro w hw y hy
      simp only [State.ended, Function.update_of_ne e] at hw
      exact RowLocks.holds_release.2 ⟨e, h.covers q w hw y hy⟩
  intact := hdb
  ok q := by
    by_cases e : q = p
    · subst e
      simp only [State.ended, Function.update_self]
      exact .idle _ _ _
    · simp only [State.ended, Function.update_of_ne e]
      exact (hok q e).mono fun x m hx => RowLocks.holds_release.2 ⟨e, hx⟩

theorem State.Inv.proceed {s : State ι} (h : s.Inv) {p : ι} {choice : Option ObjectOid} {e : Effect}
    (hs : statement (s.busy p) (s.view p) (s.txs p).now choice (s.txs p).point = .effect e)
    (hready : s.Ready p e) : (s.proceed p e).Inv := by
  have hmono : ∀ q x m, s.locks.Holds q x m → (s.locks.take p e.takes).Holds q x m :=
    fun q x m hx => RowLocks.holds_take.2 (.inr hx)
  have htakes : ∀ y ∈ e.takes, (s.locks.take p e.takes).Holds p y.1 y.2 :=
    fun y hy => RowLocks.holds_take.2 (.inl ⟨rfl, hy⟩)
  refine ⟨h.exclusive.take hready.2, ?_, h.intact, ?_⟩
  · intro q w hw y hy
    by_cases hq : q = p
    · subst hq
      simp only [State.proceed, Function.update_self, List.mem_append] at hw
      rcases hw with hw | hw
      · exact hmono _ _ _ (h.covers q w hw y hy)
      · exact htakes y (List.mem_append_right _ (List.mem_flatMap.2 ⟨w, hw, hy⟩))
    · simp only [State.proceed, Function.update_of_ne hq] at hw
      exact hmono _ _ _ (h.covers q w hw y hy)
  · intro q
    by_cases hq : q = p
    · subst hq
      simp only [State.proceed, Function.update_self]
      exact statement_inOrder h.intact ((h.ok q).mono (hmono q)) hs htakes
    · simp only [State.proceed, Function.update_of_ne hq]
      exact (h.ok q).mono (hmono q)

/-- At a commit the counts agree. -/
theorem Point.balance_commits {pt : Point} (h : pt.commits = true) (r : Uuid) (c : ChunkId) :
    pt.balance r c = 0 := by
  cases pt with
  | commit | commitErased => rfl
  | _ => cases h

theorem State.Inv.commit {s : State ι} (h : s.Inv) {p : ι} (hp : (s.txs p).point.commits = true) :
    (s.ended p (s.view p)).Inv := by
  apply h.ended
  · have hview : Intact (balance s.db (s.txs p).writes) (s.view p) := h.intact.applyAll (h.ok p).justified
    apply hview.balanced
    intro r c
    rw [(h.ok p).balance]
    exact Point.balance_commits hp r c
  · intro q hq
    exact (h.ok q).stable h.exclusive hq (h.covers p) (h.ok p).justified (h.covers q)

theorem State.Inv.begin {s : State ι} (h : s.Inv) (p : ι) {t : Transaction} {pt : Point}
    (ht : t.first = some pt) :
    State.Inv { s with txs := Function.update s.txs p ⟨pt, s.clock, []⟩ } where
  exclusive := h.exclusive
  covers q := by
    by_cases e : q = p
    · subst e
      simp [Covers]
    · simp only [Function.update_of_ne e]
      exact h.covers q
  intact := h.intact
  ok q := by
    by_cases e : q = p
    · subst e
      simp only [Function.update_self]
      exact .begin ht _
    · simp only [Function.update_of_ne e]
      exact h.ok q

theorem postgres_inv : (postgres (ι := ι)).Inductive State.Inv where
  init s hs := by
    obtain ⟨t, rfl⟩ := hs
    exact ⟨.nil, fun _ _ h => absurd h List.not_mem_nil, intact_empty, fun _ => .idle _ _ _⟩
  step s l s' h hst := by
    replace hst : step s l = some s' := hst
    cases l with
    | tick δ =>
      cases hst
      exact ⟨h.exclusive, h.covers, h.intact, h.ok⟩
    | begin p t =>
      simp only [step] at hst
      split at hst
      · obtain ⟨pt, ht, rfl⟩ := Option.map_eq_some_iff.1 hst
        exact h.begin p ht
      · cases hst
    | next p choice =>
      simp only [step] at hst
      split at hst
      · cases hst
      · cases hst
        exact h.ended p h.intact fun q _ => h.ok q
      · rename_i e hs
        split at hst
        · rename_i hready
          cases hst
          exact h.proceed hs hready
        · cases hst
    | commit p =>
      simp only [step] at hst
      split at hst
      · rename_i hp
        cases hst
        exact h.commit hp
      · cases hst
    | abort p =>
      cases hst
      exact h.ended p h.intact fun q _ => h.ok q

/-! ## The drain -/

/-- The points of a drain of `(r, c)` from the call of `chunks.delete` to its end. -/
inductive Point.Erases (r : Uuid) (c : ChunkId) : Point → Prop
  | erase : Erases r c (.erase r c)
  | deleteChunk : Erases r c (.deleteChunk r c)
  | dequeueErased : Erases r c (.dequeueErased r c)
  | commitErased : Erases r c (.commitErased r c)

theorem Point.Erases.advance {busy : Resource → Bool} {db : Db} {now : Nat} {choice : Option ObjectOid}
    {pt : Point} {r : Uuid} {c : ChunkId} {e : Effect} (h : pt.Erases r c)
    (hs : statement busy db now choice pt = .effect e) : e.next.Erases r c := by
  cases h with
  | erase =>
    cases hs
    exact .deleteChunk
  | deleteChunk =>
    simp only [statement, Sql.deleteChunk] at hs
    split at hs
    · cases hs
    · cases hs
      exact .dequeueErased
  | dequeueErased =>
    cases hs
    exact .commitErased
  | commitErased => cases hs

theorem Point.Erases.erasable {holds : Resource → LockMode → Prop} {ws : List Write} {pt : Point}
    {r : Uuid} {c : ChunkId} {db : Db} (h : pt.Erases r c) (hok : pt.Ok db holds ws) :
    Erasable db holds r c := by
  cases h with
  | erase | deleteChunk => exact hok.2
  | dequeueErased | commitErased => exact hok

/-- A drain that erases goes on erasing until it ends. -/
theorem Point.Erases.kept {s s' : State ι} {l : Label ι} {p : ι} {r : Uuid} {c : ChunkId}
    (h : (s.txs p).point.Erases r c) (hst : postgres.step s l s') :
    (s'.txs p).point.Erases r c ∨ (s'.txs p).point = .idle := by
  replace hst : step s l = some s' := hst
  -- a step of another transaction leaves this one where it is
  have hother : ∀ (q : ι) (t : Tx), (q = p → t.point.Erases r c ∨ t.point = .idle) →
      (Function.update s.txs q t p).point.Erases r c ∨ (Function.update s.txs q t p).point = .idle := by
    intro q t ht
    by_cases e : p = q
    · subst e
      simpa using ht rfl
    · rw [Function.update_of_ne e]
      exact .inl h
  cases l with
  | tick δ =>
    cases hst
    exact .inl h
  | begin q t =>
    simp only [step] at hst
    split at hst
    · rename_i hidle
      obtain ⟨pt, -, rfl⟩ := Option.map_eq_some_iff.1 hst
      apply hother
      rintro rfl
      rw [hidle] at h
      cases h
    · cases hst
  | next q choice =>
    simp only [step] at hst
    split at hst
    · cases hst
    · cases hst
      exact hother q _ fun _ => .inr rfl
    · rename_i e hs
      split at hst
      · cases hst
        apply hother
        rintro rfl
        exact .inl (h.advance hs)
      · cases hst
  | commit q =>
    simp only [step] at hst
    split at hst
    · cases hst
      exact hother q _ fun _ => .inr rfl
    · cases hst
  | abort q =>
    cases hst
    exact hother q _ fun _ => .inr rfl

/-- **The drain holds its proof while it deletes.** Whatever other transactions do: from the
call of `chunks.delete` on, until the drain's transaction ends, no committed `object_chunks` row
names the chunk, no open session links it, and its count is zero. -/
theorem drain_excludes {s : State ι} (hr : postgres.Reachable s) {p : ι} {r : Uuid} {c : ChunkId}
    (h : (s.txs p).point.Erases r c) :
    (∀ x ∈ s.db.objectChunks, (x.repositoryId, x.chunkId) ≠ (r, c)) ∧ ¬ s.db.ActivelyLinked r c ∧
      (∃ k ∈ s.db.chunks, k.key = (r, c) ∧ k.referenceCount = 0) ∧
      ∀ l s', postgres.step s l s' → (s'.txs p).point.Erases r c ∨ (s'.txs p).point = .idle := by
  have hinv := postgres_inv.reachable hr
  have herase := h.erasable (hinv.ok p).point
  refine ⟨?_, herase.dormant.inactive, herase.unreferenced, fun l s' hst => h.kept hst⟩
  obtain ⟨k, hk, hkey, h0⟩ := herase.unreferenced
  obtain ⟨rfl, rfl⟩ := Prod.mk.inj hkey
  have hcount := hinv.intact.counts k hk
  apply references_eq_zero.1
  omega

namespace Sample

open GitLfsDelta.Sample

/-- Transaction `p` from its first statement to its commit. -/
def whole (p : Nat) (t : Transaction) (statements : Nat) : List (Label Nat) :=
  .begin p t :: List.replicate statements (.next p none) ++ [.commit p]

/-- An upload registers a chunk and expires; the drain finds the chunk unused. -/
def abandoned : List (Label Nat) :=
  whole 0 (.begin 1 (manifest [0x61]) 7) 2 ++
    whole 0 (.register 1 7 ⟨hashes.blake3 [0x61], 0, 1⟩) 2 ++
    [.tick (sessionLifetime + second)] ++ whole 0 (.reclaim 1 0) 3 ++
    [.begin 1 (.drain 1 (hashes.blake3 [0x61])), .next 1 none, .next 1 none]

end Sample

theorem drain_excludes_abandoned : ∃ s : State Nat, postgres.Reachable s ∧
    (s.txs 1).point = .erase 1 (GitLfsDelta.Sample.hashes.blake3 [0x61]) ∧
    ¬ s.db.ActivelyLinked 1 (GitLfsDelta.Sample.hashes.blake3 [0x61]) := by
  obtain ⟨s, hr, hp⟩ : ∃ s : State Nat, postgres.Reachable s ∧
      (s.txs 1).point = .erase 1 (GitLfsDelta.Sample.hashes.blake3 [0x61]) :=
    LTS.exists_reachable_of_exec Sample.abandoned ⟨0, rfl⟩ (by decide +kernel)
  have herases : (s.txs 1).point.Erases 1 (GitLfsDelta.Sample.hashes.blake3 [0x61]) := by
    rw [hp]
    exact .erase
  exact ⟨s, hr, hp, (drain_excludes hr herases).2.1⟩

end Postgres

end GitLfsDelta.Sql
