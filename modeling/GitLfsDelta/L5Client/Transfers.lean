import GitLfsDelta.Core.Projection
import GitLfsDelta.L5Client.Delivery
import GitLfsDelta.L5Client.Deposit

/-!
# From one client to another

Uploading and downloading clients at one server: the two systems of `Deposit` and `Delivery` put
together, each a part of the whole. Uploads, downloads, other requests, collections and drains
interleave in any order.

* `transfers_deposits`, `transfers_delivery`: the two parts.
* `transfers_exact`: what is downloaded after an upload returned `Ok` is what was uploaded, unless
  a collection deleted it between.
-/
namespace GitLfsDelta

section System

variable {ι κ κ' : Type} {n : Nat}

/-- The server with the sources of its rows and its journal, the uploads and the downloads. -/
abbrev Transfers (ι κ κ' : Type) (n : Nat) : Type :=
  (((State ι × Sources ι) × Journal ι) × (κ → Depositing ι n)) × (κ' → Delivering n)

/-- Without the downloads. -/
def Transfers.deposits (y : Transfers ι κ κ' n) : (State ι × Journal ι) × (κ → Depositing ι n) :=
  ((y.1.1.1.1, y.1.1.2), y.1.2)

/-- Without the uploads. -/
def Transfers.delivery (y : Transfers ι κ κ' n) : (State ι × Sources ι) × (κ' → Delivering n) :=
  (y.1.1.1, y.2)

abbrev TransferLabel (ι κ κ' : Type) (n : Nat) : Type :=
  LTS.ClientLabel (LTS.ClientLabel (Label ι) κ (DepositEvent ι n)) κ' (DeliveryEvent n)

variable [DecidableEq ι] [DecidableEq κ] [DecidableEq κ']

/-- No process is taken from an upload, no object is collected while it is downloaded, and nothing
goes wrong with the downloads. -/
def Gentle (down : κ' → Downloader) (y : Transfers ι κ κ' n) : TransferLabel ι κ κ' n → Prop
  | .system (.system l) => Unclaimed y.deposits (.system l) ∧ Smooth down y.delivery (.system l)
  | .system (.client k e) => Unclaimed y.deposits (.client k e)
  | .client k e => Smooth down y.delivery (.client k e)

/-- Every interleaving of a server that keeps what it publishes, uploads and downloads. -/
def transfers (H : Hashes) (cut : Cutter) (B : List Bytes) (site : Site)
    (childUrl : String → Option String) (display : Nat → String) (n : Nat) (up : κ → Depositor)
    (down : κ' → Downloader) : LTS (Transfers ι κ κ' n) (TransferLabel ι κ κ' n) :=
  (((((careful H cut B).record fun x l x' => retentionEvent x.1 l x'.1).callers
      (fun _ => ⟨.initial n, fun _ => none, 0⟩) (fun k _ => depositCall childUrl (up k))
      fun k x => depositStep H cut childUrl display (up k) x.1.1.procs x.2.length).clients
      (fun k => ⟨.initial n (down k).cache, fun _ => .idle, false⟩)
      fun k x => deliveryStep H site childUrl display (down k) x.1.1.1.toShared)).guard (Gentle down)

end System

/-- A label of the system of `Delivery`. -/
def deliveryLabel {ι κ κ' : Type} {n : Nat} :
    LTS.ClientLabel (Label ι) κ' (DeliveryEvent n) → TransferLabel ι κ κ' n
  | .system l => .system (.system l)
  | .client k e => .client k e

/-- What has been published and deleted. -/
def Transfers.journal {ι κ κ' : Type} {n : Nat} (y : Transfers ι κ κ' n) : Journal ι := y.1.1.2

/-- The download has not asked for its manifest. -/
def Delivering.unasked {n : Nat} (q : Delivering n) : Bool :=
  match q.pipeline.coordinator with
  | .starting => q.handlers none = .idle
  | _ => false

/-- The download has returned `Ok`, and its file is `b`. -/
def Delivering.Received {n : Nat} (c : Downloader) (q : Delivering n) (b : Bytes) : Prop :=
  ∃ path, q.pipeline.coordinator = .returned (.ok ⟨path, c.request.size⟩) ∧
    q.pipeline.temporary = some ⟨path, b⟩

/-! ## The parts -/

section Parts

variable {ι κ κ' : Type} {n : Nat} [DecidableEq ι] [DecidableEq κ] [DecidableEq κ']
  {H : Hashes} {cut : Cutter} {B : List Bytes} {site : Site} {childUrl : String → Option String}
  {display : Nat → String} {up : κ → Depositor} {down : κ' → Downloader}

/-- Without sources and downloads it is the system of `Deposit`. -/
theorem transfers_deposits : LTS.Projection
    (transfers H cut B site childUrl display n up down : LTS (Transfers ι κ κ' n) _)
    (deposits H cut childUrl display n up) Transfers.deposits where
  init := by
    rintro y ⟨⟨⟨⟨hs, -⟩, hlog⟩, hup⟩, -⟩
    exact ⟨⟨hs, hlog⟩, hup⟩
  step := by
    rintro y l y' ⟨hgentle, hst⟩
    cases l with
    | client k e =>
      have hsame : y'.1 = y.1 := hst.1
      exact .inl (by simp [Transfers.deposits, hsame])
    | system c =>
      obtain ⟨⟨htake, hown⟩, -⟩ := hst
      refine .inr ⟨c, ?_, ?_, hown⟩
      · cases c with
        | system l => exact hgentle.1
        | client k e => exact hgentle
      · have htake' := htake.view (N := (server H cut).record retentionEvent)
          (fun x => (x.1.1, x.2)) fun l _ hl => ⟨hl.1.1.2, hl.2⟩
        cases c with
        | system l => exact htake'
        | client k e => exact htake'

omit [DecidableEq ι] [DecidableEq κ'] in
/-- What an upload calls is a request, which no download minds. -/
theorem depositCall_smooth {q : Depositing ι n} {c : Depositor} {e : DepositEvent ι n} {l : Label ι}
    (h : depositCall childUrl c q e = some l) (x : (State ι × Sources ι) × (κ' → Delivering n)) :
    Smooth down x (.system l) := by
  cases e with
  | send who p newId =>
    simp only [depositCall, Option.map_eq_some_iff] at h
    obtain ⟨request, -, rfl⟩ := h
    trivial
  | _ => cases h

/-- Without journal and uploads it is the system of `Delivery`. -/
theorem transfers_delivery : LTS.Projection
    (transfers H cut B site childUrl display n up down : LTS (Transfers ι κ κ' n) _)
    ((delivery H cut B site childUrl display n down).guard (Smooth down)) Transfers.delivery where
  init := by
    rintro y ⟨⟨⟨hs, -⟩, -⟩, hdown⟩
    exact ⟨hs, hdown⟩
  step := by
    rintro y l y' ⟨hgentle, hst⟩
    cases l with
    | client k e =>
      obtain ⟨hsame, hact⟩ := hst
      exact .inr ⟨.client k e, hgentle, congrArg (fun x => x.1.1) hsame, hact⟩
    | system c =>
      obtain ⟨⟨htake, -⟩, hdown⟩ := hst
      have hsmooth : ∀ l, LTS.called (fun k _ => depositCall childUrl (up k)) y.1 c = some l →
          Smooth down y.delivery (.system l) := by
        intro l hl
        cases c with
        | system l' =>
          cases hl
          exact hgentle.2
        | client k e => exact depositCall_smooth hl _
      cases hcall : LTS.called (fun k _ => depositCall childUrl (up k)) y.1 c with
      | none =>
        rw [hcall] at htake
        have hsame : y'.1.1 = y.1.1 := htake
        exact .inl (by simp [Transfers.delivery, hsame, hdown])
      | some l =>
        rw [hcall] at htake
        exact .inr ⟨.system l, hsmooth l hcall, htake.1, hdown⟩

/-- What a download does with the server as it is, it does in the whole system. -/
theorem transfers_lift (up : κ → Depositor) {y : Transfers ι κ κ' n} {j : κ'}
    {ls : List (LTS.ClientLabel (Label ι) κ' (DeliveryEvent n))}
    {z : (State ι × Sources ι) × (κ' → Delivering n)}
    (hrun : ((delivery H cut B site childUrl display n down).guard (Smooth down)).Run y.delivery ls z)
    (hown : ∀ l ∈ ls, ∃ e, l = .client j e) :
    ∃ ls' y', (transfers H cut B site childUrl display n up down).Run y ls' y' ∧
      (∀ l ∈ ls', ∃ e, l = .client j e) ∧ y'.1 = y.1 ∧ y'.2 = z.2 := by
  have hlift := hrun.lift (M := transfers H cut B site childUrl display n up down)
    Transfers.delivery (P := fun l => ∃ e, l = .client j e)
    (f := deliveryLabel) ?_ rfl hown
  · obtain ⟨y', hrun', hz⟩ := hlift
    have hown' : ∀ l ∈ ls.map (deliveryLabel (κ := κ)), ∃ e, l = .client j e := by
      intro l hl
      obtain ⟨l', hl', rfl⟩ := List.mem_map.1 hl
      obtain ⟨e, rfl⟩ := hown l' hl'
      exact ⟨e, rfl⟩
    refine ⟨_, y', hrun', hown', ?_, congrArg Prod.snd hz⟩
    refine hrun'.preserve (P := fun s => s.1 = y.1) rfl fun a l b hl ha hst => ?_
    obtain ⟨e, rfl⟩ := hown' l hl
    exact hst.2.1.trans ha
  · rintro s l t ⟨e, rfl⟩ ⟨hsmooth, hsame, hact⟩
    exact ⟨(s.1, t.2), ⟨hsmooth, rfl, hact⟩, Prod.ext hsame.symm rfl⟩

end Parts

/-! ## From an upload to a download -/

section Exact

variable {ι κ κ' : Type} {n : Nat} [DecidableEq ι] [DecidableEq κ] [DecidableEq κ']
  {H : Hashes} {cut : Cutter} {B : List Bytes} {site : Site} {childUrl : String → Option String}
  {display : Nat → String} {up : κ → Depositor} {down : κ' → Downloader} {y y' : Transfers ι κ κ' n}

theorem transfers_step_journal {l : TransferLabel ι κ κ' n}
    (hst : (transfers H cut B site childUrl display n up down).step y l y') :
    y.journal <+: y'.journal := by
  cases l with
  | client k e =>
    have hsame : y'.1 = y.1 := hst.2.1
    simp [Transfers.journal, hsame]
  | system c =>
    obtain ⟨-, ⟨htake, -⟩, -⟩ := hst
    exact htake.preserve (P := fun x => y.journal <+: x.2) (List.prefix_refl _)
      fun l _ hl => hl.2 ▸ List.prefix_append _ _

theorem transfers_run_journal {ls : List (TransferLabel ι κ κ' n)}
    (hrun : (transfers H cut B site childUrl display n up down).Run y ls y') :
    y.journal <+: y'.journal :=
  hrun.preserve (P := fun z => y.journal <+: z.journal) (List.prefix_refl _)
    fun _ _ _ _ ha hst => ha.trans (transfers_step_journal hst)

/-- An object that was there is there as long as the journal does not say that it was deleted. -/
theorem Transfers.there (hcut : cut.Conforms)
    (hr : (transfers H cut B site childUrl display n up down).Reachable y) {a : Journal ι} {r : Uuid}
    {oid : ObjectOid} (hp : PresentIn a r oid) (ha : a <+: y.journal) (hy : y.journal <+: y'.journal)
    (hkeep : Undeleted (y'.journal.drop a.length) r oid) :
    (y.1.1.1.1.db.objects.get? (r, oid)).isSome := by
  obtain ⟨hx, -⟩ := (deposit_ok hcut).reachable (transfers_deposits.reachable hr)
  obtain ⟨b, hb⟩ := ha
  obtain ⟨d, hd⟩ := hy
  rw [← hd, ← hb, List.append_assoc, List.drop_left] at hkeep
  have hthere := hx.there hb.symm hp fun time hdel => hkeep time (List.mem_append_left d hdel)
  exact Option.isSome_iff_ne_none.2 (Table.get?_ne_none.2 hthere)

/-- A download finds its object missing only when it asks for the manifest. -/
theorem deliveryStep_missing {c : Downloader} {w : Shared} {q q' : Delivering n} {e : DeliveryEvent n}
    (h : deliveryStep H site childUrl display c w q e = some q')
    (hthere : (w.db.objects.get? (c.repository, c.request.oid)).isSome)
    (hq : q.missing = false) : q'.missing = false := by
  cases e with
  | own event =>
    simp only [deliveryStep] at h
    split at h
    · cases h
    · simp only [Option.map_eq_some_iff] at h
      obtain ⟨s, -, rfl⟩ := h
      exact hq
  | send who =>
    simp only [deliveryStep] at h
    split at h
    · rename_i request hquery hidle
      simp only [Option.map_eq_some_iff] at h
      obtain ⟨a, -, rfl⟩ := h
      cases who with
      | some v => simpa using hq
      | none =>
        simp only [Pipeline.query] at hquery
        split at hquery
        · split at hquery
          · cases hquery
            simpa [ReadRequest.finds] using hthere
          · cases hquery
        · cases hquery
    · cases h
  | serve who =>
    simp only [deliveryStep, Option.map_eq_some_iff] at h
    obtain ⟨a, -, rfl⟩ := h
    exact hq
  | deliver who =>
    simp only [deliveryStep] at h
    split at h
    · simp only [Option.map_eq_some_iff] at h
      obtain ⟨s, -, rfl⟩ := h
      exact hq
    · cases h
  | lose who error =>
    simp only [deliveryStep] at h
    split at h
    · cases h
    · simp only [Option.map_eq_some_iff] at h
      obtain ⟨s, -, rfl⟩ := h
      exact hq

/-- A download whose object stays there does not miss it. -/
theorem transfers_found {j : κ'} {ls : List (TransferLabel ι κ κ' n)}
    (hrun : (transfers H cut B site childUrl display n up down).Run y ls y')
    (hr : (transfers H cut B site childUrl display n up down).Reachable y)
    (hthere : ∀ z, (transfers H cut B site childUrl display n up down).Reachable z →
      y.journal <+: z.journal → z.journal <+: y'.journal →
      (z.1.1.1.1.db.objects.get? ((down j).repository, (down j).request.oid)).isSome)
    (hy : (y.2 j).missing = false) : (y'.2 j).missing = false := by
  induction hrun with
  | nil => exact hy
  | @cons a b c l ls hst hrun ih =>
    have hgrow := transfers_step_journal hst
    refine ih (hr.step hst) (fun z hz hbz hzc => hthere z hz (hgrow.trans hbz) hzc) ?_
    cases l with
    | system e =>
      have hsame : b.2 = a.2 := hst.2.2
      rw [hsame]
      exact hy
    | client k e =>
      obtain ⟨-, -, q, hact, hq⟩ := hst
      rw [hq]
      by_cases hk : j = k
      · subst hk
        rw [Function.update_self]
        refine deliveryStep_missing hact ?_ hy
        exact hthere a hr (List.prefix_refl _) (hgrow.trans (transfers_run_journal hrun))
      · rw [Function.update_of_ne hk]
        exact hy

/-- **What was uploaded is what is downloaded.** Any number of clients upload to a server and
download from it, beside other requests, collections and drains. The upload of client `i` has
returned `Ok`; client `j`, which wants the same object of the same repository, has not asked for it
yet. Whatever happens then, as long as no collection has deleted the object since the upload
began: if the download of `j` returns, it returns `Ok` and its file has the bytes that `i` uploaded;
and until then it can get there by its own steps. -/
theorem transfers_exact (H : Hashes) (cut : Cutter) (hcut : cut.Conforms) (B : List Bytes)
    (hB : H.CollisionFree {b | b ∈ B}) (site : Site) (childUrl : String → Option String)
    (display : Nat → String) (n : Nat) (up : κ → Depositor) (down : κ' → Downloader)
    (hdown : ∀ j, (down j).Suits H B childUrl n) (y y' : Transfers ι κ κ' n)
    (ls : List (TransferLabel ι κ κ' n))
    (hr : (transfers H cut B site childUrl display n up down).Reachable y)
    (hrun : (transfers H cut B site childUrl display n up down).Run y ls y') (i : κ) (size : UInt64)
    (hret : (y.1.2 i).pipeline.producer = .returned (.ok size))
    (hsource : ∀ b ∈ B, H.sha256 b = H.sha256 (up i).source → b = (up i).source) (j : κ')
    (hrepo : (down j).repository = (up i).repository)
    (hoid : (down j).request.oid = (up i).request.oid)
    (hunasked : (y.2 j).unasked = true)
    (hkeep : Undeleted (y'.journal.drop (y.1.2 i).since) (up i).repository (up i).request.oid) :
    (∀ result, (y'.2 j).pipeline.coordinator = .returned result →
      (y'.2 j).Received (down j) (up i).source) ∧
    ∃ ls' y'', (transfers H cut B site childUrl display n up down).Run y' ls' y'' ∧
      (∀ l ∈ ls', ∃ e, l = .client j e) ∧ (y''.2 j).Received (down j) (up i).source := by
  obtain ⟨-, hup⟩ := (deposit_ok hcut).reachable (transfers_deposits.reachable hr)
  obtain ⟨-, hhonest, a, b, hj, hlen, hp⟩ := (hup i).returned hret
  obtain ⟨-, hok⟩ := (delivery_ok hcut hB hdown).reachable (transfers_delivery.reachable hr)
  have hmissing : (y.2 j).missing = false := by
    obtain ⟨hstart, hidle⟩ : (y.2 j).pipeline.coordinator = .starting ∧ (y.2 j).handlers none = .idle := by
      unfold Delivering.unasked at hunasked
      split at hunasked
      · rename_i hstart
        exact ⟨hstart, by simpa using hunasked⟩
      · cases hunasked
    rcases hok j with hq | ⟨m, parts, hq⟩ | hq
    · rcases hq.manifest with ⟨-, hmiss⟩ | ⟨response, hasked, -⟩
      · exact hmiss
      · cases hidle.symm.trans hasked
    · exact absurd hstart hq.atWork.not_starting
    · obtain ⟨r, hreturned⟩ := hq.returned
      cases hstart.symm.trans hreturned
  have hfound : ∀ {z : Transfers ι κ κ' n} {ks : List (TransferLabel ι κ κ' n)},
      (transfers H cut B site childUrl display n up down).Run y ks z → z.journal = y'.journal →
      (z.2 j).missing = false := by
    intro z ks hz hsame
    refine transfers_found hz hr (fun w hw hyw hwz => ?_) hmissing
    rw [hrepo, hoid]
    have ha : a <+: y.journal := ⟨b, hj.symm⟩
    refine Transfers.there hcut hw hp (ha.trans hyw) hwz fun time hdel => hkeep time ?_
    rw [hsame] at hdel
    exact List.drop_subset_drop_left _ hlen hdel
  have hreceived : ∀ {z : Transfers ι κ κ' n}, (z.2 j).missing = false →
      (z.2 j).Delivered H B display (down j) → (z.2 j).Received (down j) (up i).source := by
    intro z hmiss hd
    rw [Delivering.Delivered, if_neg (by simp [hmiss])] at hd
    obtain ⟨path, c, hc, hsha, hresult, hfile⟩ := hd
    obtain rfl := hsource c hc (hsha.trans (hoid.trans hhonest.symm))
    exact ⟨path, hresult, hfile⟩
  have hr' := hr.run hrun
  have hdel := transfers_delivery.reachable hr'
  refine ⟨fun result hresult => ?_, ?_⟩
  · exact hreceived (hfound hrun rfl) (delivery_returned hcut hB hdown hdel hresult)
  · obtain ⟨ks, z, hz, hown, hfin⟩ := delivery_completes hcut hB hdown hdel j
    obtain ⟨ls', y'', hrun', hown', hsame, hz'⟩ := transfers_lift up hz hown
    refine ⟨ls', y'', hrun', hown', hreceived (hfound (hrun.append hrun') ?_) (hz' ▸ hfin.delivered)⟩
    simp [Transfers.journal, hsame]

instance [Fintype κ] [Fintype κ'] (down : κ' → Downloader) (y : Transfers ι κ κ' n) :
    DecidablePred (Gentle down y)
  | .system (.system l) =>
    inferInstanceAs (Decidable (Unclaimed y.deposits (.system l) ∧ Smooth down y.delivery (.system l)))
  | .system (.client k e) => inferInstanceAs (Decidable (Unclaimed y.deposits (.client k e)))
  | .client k e => inferInstanceAs (Decidable (Smooth down y.delivery (.client k e)))

end Exact

namespace Sample

/-- The second half: the download of byte `a` beside the upload. -/
def transferred : List (TransferLabel Unit Unit Unit 1) := fetches.map (.client ())

end Sample

open Sample in
/-- Byte `a` arrives at another client: answers to its uploader were lost, and repeated. -/
theorem transfers_exact_byte : ∃ y : Transfers Unit Unit Unit 1,
    (transfers hashes maximalCut [[0x61]] (fun _ => none) (fun _ => none) toString 1 (fun _ => depositor)
      fun _ => downloader).Reachable y ∧ (y.2 ()).Received downloader [0x61] := by
  obtain ⟨y, y', hr, hrun, hret, hunasked, hdone, hj⟩ : ∃ y y' : Transfers Unit Unit Unit 1,
      (transfers hashes maximalCut [[0x61]] (fun _ => none) (fun _ => none) toString 1
        (fun _ => depositor) fun _ => downloader).Reachable y ∧
      (transfers hashes maximalCut [[0x61]] (fun _ => none) (fun _ => none) toString 1
        (fun _ => depositor) fun _ => downloader).Run y transferred y' ∧
      (y.1.2 ()).pipeline.producer = .returned (.ok 1) ∧ (y.2 ()).unasked = true ∧
      ((y'.2 ()).busy = false ∧ (y'.2 ()).unasked = false) ∧
      y'.journal = [.published 1 (hashes.sha256 [0x61])] := by
    unfold transfers careful LTS.record
    rw [server, LTS.guard_ofFn, LTS.annotate_ofFn, LTS.annotate_ofFn, LTS.callers_ofFn,
      LTS.clients_ofFn, LTS.guard_ofFn]
    exact LTS.exists_run_after_exec
      (s := ((((.initial 0, .empty), []), fun _ => ⟨.initial 1, fun _ => none, 0⟩),
        fun _ => ⟨.initial 1 fun _ => none, fun _ => .idle, false⟩))
      ((Sample.deposited () fun _ => ()).map .system) transferred
      ⟨⟨⟨⟨⟨0, rfl⟩, rfl⟩, rfl⟩, rfl⟩, rfl⟩ (by decide +kernel)
  have hreturned : ∃ result, (y'.2 ()).pipeline.coordinator = .returned result := by
    obtain ⟨hbusy, hasked⟩ := hdone
    unfold Delivering.busy at hbusy
    unfold Delivering.unasked at hasked
    cases hco : (y'.2 ()).pipeline.coordinator <;> simp_all
  obtain ⟨result, hresult⟩ := hreturned
  refine ⟨y', hr.run hrun, (transfers_exact hashes maximalCut maximalCut_conforms _ byte_collisionFree
    (fun _ => none) (fun _ => none) toString 1 (fun _ => depositor) (fun _ => downloader)
    (fun _ => downloader_suits) y y' transferred hr hrun () 1 hret ?_ () rfl rfl hunasked ?_).1
    result hresult⟩
  · intro b hb _
    exact List.mem_singleton.1 hb
  · intro time hdel
    have hmem := List.mem_of_mem_drop hdel
    rw [hj] at hmem
    simp at hmem

end GitLfsDelta
