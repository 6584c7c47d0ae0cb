import GitLfsDelta.L4System.Readers
import GitLfsDelta.L4System.Sessions

/-!
# What is published is what is downloaded

The server over a provider that may come to hold anything between any two steps, so that every
read, of an upload or of a download, may be answered with any bytes.

The source of an `objects` row is recorded when the row appears: the body of the `upload_basic`
that inserted it, or the bytes the `finalize_cdc` that inserted it read and hashed. `SourceInv`
connects the two kinds of upload: whichever of them published the manifest, it describes the
source chunk by chunk. Downloads then give back the source, because nothing leaves them with
another identity (`round_trip`).

Neither hash collides on the set `B`, which has every string the run hashes.
-/
namespace GitLfsDelta

/-! ## The system -/

/-- A step of the server, or the provider comes to hold something else. -/
inductive ProviderEvent (ι : Type)
  | server (l : Label ι)
  | tamper (store : Store)

variable {ι : Type} [DecidableEq ι] {H : Hashes} {cut : Cutter} {B : Set Bytes}

def tamperStep (H : Hashes) (cut : Cutter) (s : State ι) : ProviderEvent ι → Option (State ι)
  | .server l => step H cut s l
  | .tamper store => some { s with store := store }

/-- Every interleaving, over any provider. -/
def tampered (H : Hashes) (cut : Cutter) : LTS (State ι) (ProviderEvent ι) :=
  LTS.ofFn (fun s => ∃ t, s = .initial t) (tamperStep H cut)

/-- What the step hashes, to name a source or its chunks, is in `B`. -/
def HashesIn (cut : Cutter) (B : Set Bytes) (s : State ι) : ProviderEvent ι → Prop
  | .server (.act _ (.start (.uploadBasic _ _ body _))) => body ∈ B ∧ ∀ raw ∈ cut body, raw.data ∈ B
  | .server (.act p (.next .auto)) =>
    match s.procs p with
    | .verifying r _ _ _ (d :: _) _ => ∀ b ∈ s.store r d.id, b ∈ B
    | .verifying _ _ _ _ [] hashed => hashed ∈ B
    | _ => True
  | _ => True

instance [DecidablePred (· ∈ B)] (s : State ι) (l : ProviderEvent ι) :
    Decidable (HashesIn cut B s l) := by
  unfold HashesIn
  split
  · infer_instance
  · split <;> infer_instance
  · infer_instance

/-- The body of the last `upload_basic` of a process, and the source of a row. -/
structure Sources (ι : Type) where
  sent : ι → Bytes
  source : Uuid × ObjectOid → Bytes

def Sources.empty : Sources ι := ⟨fun _ => [], fun _ => []⟩

def Action.sent (sent : Bytes) : Action → Bytes
  | .start (.uploadBasic _ _ body _) => body
  | _ => sent

/-- The bytes a publication of the process is one of. -/
def Proc.source (sent : Bytes) : Proc → Bytes
  | .verifying _ _ _ _ _ hashed => hashed
  | _ => sent

def Sources.next (g : Sources ι) (s : State ι) (l : ProviderEvent ι) (s' : State ι) : Sources ι :=
  match l with
  | .server (.act p a) =>
    { sent := Function.update g.sent p (a.sent (g.sent p))
      source := fun k =>
        if (s.db.objects.get? k).isNone ∧ (s'.db.objects.get? k).isSome then
          (s.procs p).source (g.sent p)
        else g.source k }
  | _ => g

/-- The server over any provider, with the sources of its rows. -/
def sourced (H : Hashes) (cut : Cutter) (B : Set Bytes) :
    LTS (State ι × Sources ι) (ProviderEvent ι) :=
  ((tampered H cut).guard (HashesIn cut B)).annotate .empty Sources.next

/-! ## Manifests of a source -/

/-- The bytes are what the descriptor names. -/
def Named (H : Hashes) (B : Set Bytes) (d : ChunkDescriptor) (b : Bytes) : Prop :=
  b ∈ B ∧ H.blake3 b = d.id ∧ b.length = d.length.toNat

theorem length_flatten_named {ds : List ChunkDescriptor} {parts : List Bytes}
    (h : List.Forall₂ (Named H B) ds parts) : parts.flatten.length = coverage ds := by
  induction h with
  | nil => rfl
  | cons hd _ ih => rw [List.flatten_cons, List.length_append, coverage_cons, hd.2.2, ih]

/-- The manifest is one of these bytes. -/
structure Describes (H : Hashes) (B : Set Bytes) (m : ObjectManifest) (b : Bytes) : Prop where
  mem : b ∈ B
  sha : H.sha256 b = m.objectOid
  parts : ∃ parts, List.Forall₂ (Named H B) m.chunks parts ∧ parts.flatten = b

theorem Describes.length {m : ObjectManifest} {b : Bytes} (h : Describes H B m b)
    (hv : m.validate = .ok ()) : b.length = m.objectSize.toNat := by
  obtain ⟨parts, hparts, rfl⟩ := h.parts
  rw [length_flatten_named hparts, (validate_ok hv).1]

/-- The chunks of a source, each the one its descriptor names, are the source. -/
theorem Describes.unique {m : ObjectManifest} {b : Bytes} (h : Describes H B m b)
    (hB : H.CollisionFree B) {bodies : List Bytes} (hlen : bodies.length = m.chunks.length)
    (hbodies : ∀ (i : Nat) x, bodies[i]? = some x →
      x ∈ B ∧ ∃ d, m.chunks[i]? = some d ∧ H.blake3 x = d.id) : bodies.flatten = b := by
  obtain ⟨parts, hparts, rfl⟩ := h.parts
  have hlen' := hparts.length_eq
  congr 1
  apply List.ext_getElem (by omega)
  intro i hi hi'
  obtain ⟨hx, d, hd, hid⟩ := hbodies i bodies[i] (List.getElem?_eq_getElem hi)
  have hpart := List.Forall₂.get hparts (by omega) hi'
  simp only [List.get_eq_getElem] at hpart
  rw [List.getElem?_eq_getElem (by omega), Option.some.injEq] at hd
  apply hB hx hpart.1
  rw [hid, hpart.2.1, hd]

/-- The manifest `upload_basic` computes is one of its body. -/
theorem describes_chunkObject (hcut : cut.Conforms) {body : Bytes} {chunks : List Chunk}
    {m : ObjectManifest} (h : chunkObject H cut body = .ok (chunks, m)) (hbody : body ∈ B)
    (hraw : ∀ raw ∈ cut body, raw.data ∈ B) : Describes H B m body := by
  obtain ⟨hfaithful, hchunks, hsha, hdata⟩ := chunkObject_spec h
  have hflat : (chunks.map (·.data)).flatten = body := by
    rw [hdata]
    exact hcut.whole body
  refine ⟨hbody, by rw [hsha, hflat], chunks.map (·.data), ?_, hflat⟩
  rw [hchunks, List.forall₂_map_left_iff, List.forall₂_map_right_iff, List.forall₂_same]
  intro c hc
  have hmem : c.data ∈ (cut body).map (·.data) := by
    rw [← hdata]
    exact List.mem_map_of_mem hc
  obtain ⟨raw, hraw', he⟩ := List.mem_map.1 hmem
  exact ⟨he ▸ hraw raw hraw', hfaithful c hc⟩

/-! ## The invariant -/

/-- What an upload is about to publish describes its source. -/
def Proc.Sourced (H : Hashes) (B : Set Bytes) (sent : Bytes) : Proc → Prop
  | .basic _ _ m _ | .basicStoring _ _ m _ _ => Describes H B m sent
  | .verifying _ oid _ m todo hashed => m.objectOid = oid ∧
    ∃ ds parts, m.chunks = ds ++ todo ∧ List.Forall₂ (Named H B) ds parts ∧ parts.flatten = hashed
  | _ => True

/-- Rows have the size of their sources, and manifests of them. -/
def ObjectRow.Sourced (H : Hashes) (B : Set Bytes) (b : Bytes) (o : ObjectRow) : Prop :=
  o.oid = o.manifest.objectOid ∧ o.size = o.manifest.objectSize.toNat ∧
    o.manifest.validate = .ok () ∧ Describes H B o.manifest b

structure SourceInv (H : Hashes) (B : Set Bytes) (s : State ι) (g : Sources ι) : Prop where
  sessions : ∀ x ∈ s.db.sessions, x.manifest.objectOid = x.objectOid
  procs : ∀ p, (s.procs p).Sourced H B (g.sent p)
  rows : ∀ o ∈ s.db.objects, o.Sourced H B (g.source o.key)

variable {now : Nat} {w w' : Shared} {q q' : Proc} {s s' : State ι} {g : Sources ι}

theorem Turn.session_oid {a : Action} (h : Turn H cut now w q a w' q')
    (hs : ∀ x ∈ w.db.sessions, x.manifest.objectOid = x.objectOid) :
    ∀ x ∈ w'.db.sessions, x.manifest.objectOid = x.objectOid := by
  intro x' hx'
  have of_follows : ∀ x ∈ w.db.sessions, x.Follows w.clock x' →
      x'.manifest.objectOid = x'.objectOid := by
    intro x hx hf
    rw [hf.manifest, hf.objectOid]
    exact hs x hx
  rcases h.follows with hf | ⟨e, r, m, newId, u, -, hres, -⟩
  · obtain ⟨x, hx, hxf⟩ := hf x' hx'
    exact of_follows x hx hxf
  · rcases resumeOrCreate_follows hres x' hx' with ⟨x, hx, hxf⟩ | rfl
    · exact of_follows x hx hxf
    · rfl

/-- An upload's own steps. -/
theorem Turn.sourced (hcut : cut.Conforms) {a : Action} {sent : Bytes}
    (h : Turn H cut now w q a w' q') (hq : q.Sourced H B sent)
    (hs : ∀ x ∈ w.db.sessions, x.manifest.objectOid = x.objectOid)
    (hstart : ∀ r oid body newId, a = .start (.uploadBasic r oid body newId) →
      body ∈ B ∧ ∀ raw ∈ cut body, raw.data ∈ B)
    (hread : ∀ r oid u m d todo hashed, q = .verifying r oid u m (d :: todo) hashed →
      a = .next .auto → ∀ b, w.store r d.id = some b → b ∈ B) : q'.Sourced H B (a.sent sent) := by
  cases h with
  | beginBasic _ _ hc _ _ =>
    obtain ⟨hbody, hraw⟩ := hstart _ _ _ _ rfl
    exact describes_chunkObject hcut hc hbody hraw
  | beginFinalize _ hm =>
    obtain ⟨x, hx, ⟨-, -, rfl⟩, -, rfl, -⟩ := loadFinalizableUpload_ok hm
    exact ⟨hs x hx, [], [], rfl, .nil, rfl⟩
  | basicRegister => exact hq
  | basicPut => exact hq
  | verify hv =>
    rename_i r oid u m d todo hashed bytes
    obtain ⟨hoid, ds, parts, hds, hparts, rfl⟩ := hq
    obtain ⟨hstore, hid, hlen⟩ := verifyChunk_ok hv
    have hmem : bytes ∈ B := hread _ _ _ _ _ _ _ rfl rfl _ hstore
    refine ⟨hoid, ds ++ [d], parts ++ [bytes], by rw [hds, List.append_cons], ?_, by simp⟩
    exact List.rel_append hparts (.cons ⟨hmem, hid, hlen⟩ .nil)
  | _ => trivial

/-- What a process publishes describes its source. -/
theorem Proc.Sourced.publishes {a : Action} {r u : Uuid} {m : ObjectManifest} {sent : Bytes}
    (hq : q.Sourced H B sent) (hact : procAct H cut now w q a = some (w', q'))
    (hpub : q.Publishes r u m) (hchange : w' ≠ w)
    (hhash : ∀ r oid u m hashed, q = .verifying r oid u m [] hashed → a = .next .auto → hashed ∈ B) :
    Describes H B m (q.source sent) := by
  rcases hpub with rfl | ⟨oid, hashed, rfl⟩
  · exact hq
  · obtain ⟨hoid, ds, parts, hds, hparts, hflat⟩ := hq
    rw [List.append_nil] at hds
    rcases procAct_hashed hact with rfl | ⟨ha, hsha⟩
    · exact absurd rfl hchange
    · exact ⟨hhash _ _ _ _ _ rfl ha, hsha.trans hoid.symm, parts, hds ▸ hparts, hflat⟩

/-- A row keeps its source as long as it is there; a new row has that of its publication. -/
theorem SourceInv.row {p : ι} {a : Action} (hi : SourceInv H B s g)
    (hact : procAct H cut s.hist.now s.toShared (s.procs p) a = some (w', q'))
    (hhash : ∀ r oid u m hashed, s.procs p = .verifying r oid u m [] hashed →
      a = .next .auto → hashed ∈ B) {o : ObjectRow} (ho : o ∈ w'.db.objects) :
    o.Sourced H B ((g.next s (.server (.act p a)) (s.move p w' q')).source o.key) := by
  have hsome : (w'.db.objects.get? o.key).isSome = true := by
    rw [Table.get?_some.2 ⟨ho, rfl⟩]
    rfl
  by_cases hold : o ∈ s.db.objects
  · have hthere : s.db.objects.get? o.key = some o := Table.get?_some.2 ⟨hold, rfl⟩
    simp only [Sources.next, hthere, Option.isNone_some, Bool.false_eq_true, false_and, if_false]
    exact hi.rows o hold
  · rcases (procAct_turn hact).objects with hsame | ⟨r, u, m, b, hpub, hp, hstore⟩ | ⟨r, oid, -, hdel⟩
    · rw [hsame] at ho
      exact absurd ho hold
    · obtain ⟨hv, -⟩ := publishManifest_ok hp
      rcases (publishManifest_objects hp).2 o ho with ho | ⟨rfl, hnone, -⟩
      · exact absurd ho hold
      · have hchange : w' ≠ s.toShared := by
          rintro rfl
          exact hold ho
        have hd := (hi.procs p).publishes hact hpub hchange hhash
        have hk : s.db.objects.get? (ObjectRow.key ⟨r, m.objectOid, m.objectSize.toNat, m⟩) = none := hnone
        simp only [Sources.next, hk, hsome, move_toShared, Option.isNone_none, and_self, if_true]
        exact ⟨rfl, rfl, hv, hd⟩
    · rw [hdel, Table.mem_deleteWhere] at ho
      exact absurd ho.1 hold

theorem SourceInv.act (hcut : cut.Conforms) {p : ι} {a : Action} (hi : SourceInv H B s g)
    (hguard : HashesIn cut B s (.server (.act p a))) (hst : step H cut s (.act p a) = some s') :
    SourceInv H B s' (g.next s (.server (.act p a)) s') := by
  obtain ⟨w, q, hact, rfl⟩ := step_act hst
  have ht := procAct_turn hact
  refine ⟨ht.session_oid hi.sessions, fun p' => ?_, fun o ho => ?_⟩
  · rw [move_procs]
    simp only [Sources.next, Function.update_apply]
    split
    · apply ht.sourced hcut (hi.procs p) hi.sessions
      · intro r oid body newId ha
        rw [ha] at hguard
        exact hguard
      · intro r oid u m d todo hashed hp ha
        simp only [ha, HashesIn, hp] at hguard
        exact hguard
    · exact hi.procs p'
  · apply hi.row hact _ ho
    intro r oid u m hashed hp ha
    simp only [ha, HashesIn, hp] at hguard
    exact hguard

/-- **Manifests describe their sources along every run**, over any provider. -/
theorem sourceInv (H : Hashes) (hcut : cut.Conforms) (B : Set Bytes) :
    (sourced H cut B : LTS (State ι × Sources ι) (ProviderEvent ι)).Inductive fun x =>
      SourceInv H B x.1 x.2 where
  init := by
    rintro ⟨s, g⟩ ⟨⟨t, rfl⟩, rfl⟩
    exact ⟨fun x hx => absurd hx (Table.not_mem_empty x), fun p => trivial,
      fun o ho => absurd ho (Table.not_mem_empty o)⟩
  step := by
    rintro ⟨s, g⟩ l ⟨s', g'⟩ hi ⟨⟨hguard, hst⟩, hg⟩
    simp only at hi hguard hst hg ⊢
    subst hg
    cases l with
    | tamper store =>
      simp only [tampered, LTS.ofFn, tamperStep, Option.some.injEq] at hst
      subst hst
      exact ⟨hi.sessions, hi.procs, hi.rows⟩
    | server l =>
      simp only [tampered, LTS.ofFn, tamperStep] at hst
      cases l with
      | advance δ =>
        simp only [step, Option.some.injEq] at hst
        subst hst
        exact ⟨hi.sessions, hi.procs, hi.rows⟩
      | act p a => exact hi.act hcut hguard hst

/-! ## The round trip -/

/-- **Uploads and downloads agree on the bytes.** In every state reached over any provider,
whichever upload published a row: its source has the row's OID and size, a `download_basic` that
answers 200 answers the source and its length, and the chunks that `download_cdc_chunk` answers
for the indices of the manifest are the source, as long as the row is the one their queries
find. -/
theorem round_trip (H : Hashes) (cut : Cutter) (hcut : cut.Conforms) (site : Site) (B : Set Bytes)
    (hsha : Set.InjOn H.sha256 B) (hblake : Set.InjOn H.blake3 B) (s : State ι) (g : Sources ι)
    (hr : (sourced H cut B).Reachable (s, g)) (o : ObjectRow) (ho : o ∈ s.db.objects) :
    H.sha256 (g.source o.key) = o.oid ∧
    o.size = (g.source o.key).length ∧
    (∀ b ∈ B, H.sha256 b = o.oid → b = g.source o.key) ∧
    (∀ db stores body length, o ∈ db.objects → body ∈ B →
      Downloads H site db o.repositoryId (.downloadBasic o.oid) stores (.content body length) →
      body = g.source o.key ∧ length.toNat = (g.source o.key).length) ∧
    ∀ db stores m (bodies : List Bytes), o ∈ db.objects →
      Downloads H site db o.repositoryId (.downloadCdcManifest o.oid) stores (.manifest m) →
      bodies.length = m.chunks.length →
      (∀ i b, bodies[i]? = some b → b ∈ B ∧ ∃ db stores, o ∈ db.objects ∧
        Downloads H site db o.repositoryId (.downloadCdcChunk o.oid i) stores (.chunk b)) →
      bodies.flatten = g.source o.key := by
  obtain ⟨hoid, hsize, hvalid, hd⟩ := ((sourceInv H hcut B).reachable hr).rows o ho
  simp only at hd
  have hsource : ∀ b ∈ B, H.sha256 b = o.oid → b = g.source o.key := by
    intro b hb he
    exact hsha hb hd.mem (by rw [he, hd.sha, hoid])
  have hlen : o.manifest.objectSize.toNat = (g.source o.key).length := (hd.length hvalid).symm
  refine ⟨by rw [hd.sha, hoid], by rw [hsize, hlen], hsource, ?_, ?_⟩
  · intro db stores body length hrow hbody h
    obtain ⟨m, hload, hbodysha, rfl⟩ := downloads_basic h
    rw [loadManifest_of_row hrow, Except.ok.injEq] at hload
    subst hload
    exact ⟨hsource body hbody hbodysha, hlen⟩
  · intro db stores m bodies hrow h hcount hbodies
    have hload := downloads_manifest h
    rw [loadManifest_of_row hrow, Except.ok.injEq] at hload
    subst hload
    apply hd.unique hblake hcount
    intro i b hb
    obtain ⟨hmem, db', stores', hrow', h'⟩ := hbodies i b hb
    obtain ⟨m', d, hload', hget, hid⟩ := downloads_chunk h'
    rw [loadManifest_of_row hrow', Except.ok.injEq] at hload'
    subst hload'
    exact ⟨hmem, d, hget, hid⟩

open Sample in
/-- A chunked upload, after which the provider holds other bytes: the row still stands for what
was uploaded. -/
theorem round_trip_tampered : ∃ (s : State Unit) (g : Sources Unit),
    (sourced hashes maximalCut {[0x61]}).Reachable (s, g) ∧
      s.store 1 (hashes.blake3 [0x61]) = some [0x62] ∧
      ∃ o ∈ s.db.objects, g.source o.key = [0x61] ∧ o.size = 1 := by
  have hreach : ∃ x : State Unit × Sources Unit,
      (sourced hashes maximalCut {[0x61]}).Reachable x ∧
        (∃ o ∈ x.1.db.objects, o.oid = hashes.sha256 [0x61]) ∧
        x.1.store 1 (hashes.blake3 [0x61]) = some [0x62] := by
    unfold sourced tampered
    rw [LTS.guard_ofFn, LTS.annotate_ofFn]
    exact LTS.exists_reachable_of_exec (s := (.initial 0, .empty))
      ((uploads () 1 7 [0x61]).map .server ++ [.tamper fun _ _ => some [0x62]]) ⟨⟨0, rfl⟩, rfl⟩
      (by decide +kernel)
  obtain ⟨⟨s, g⟩, hr, ⟨o, ho, hoid⟩, hstore⟩ := hreach
  obtain ⟨-, hsize, hsource, -⟩ := round_trip hashes maximalCut maximalCut_conforms (fun _ => none)
    {[0x61]} (Set.injOn_singleton _ _) (Set.injOn_singleton _ _) s g hr o ho
  have hsrc : g.source o.key = [0x61] := (hsource [0x61] rfl hoid.symm).symm
  exact ⟨s, g, hr, hstore, o, ho, hsrc, by rw [hsize, hsrc]; rfl⟩

end GitLfsDelta
