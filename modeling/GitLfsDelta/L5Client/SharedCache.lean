import Mathlib.Data.List.Sort
import GitLfsDelta.L5Client.Caching

/-!
# One cache directory for many

Any number of downloads, each with its own workers, and any number of runs of `cache prune` use one
cache directory. A prune lists the files, sorts them by the time they were modified and removes them
from the oldest on until the rest is small enough. Its listing may be out of date when it removes.

* `prune_ok`: a prune takes the files in order and none too many, whatever happens to the directory
  meanwhile.
* `genuine_kept`: no step puts anything under a name but the chunk with that identity.
* `cache_shared`: where the directory has only such entries at the start, no download can fail, none
  can be held up, and each takes a bounded number of steps of its own.

The files that are not published yet are not in the model: a publication is one step of a worker, and
`Honest` has it succeed. A prune that takes the temporary file of one makes that download fail.
-/
namespace GitLfsDelta

/-! ## Pruning -/

/-- A file below `chunks`.
mirrors crates/git-lfs-delta-client/src/main.rs:269-273 -/
structure CacheEntry where
  id : ChunkId
  size : Nat
  modified : Int
  deriving DecidableEq, Repr

/-- How much the files from the `k`-th on take. -/
def sizeFrom (listed : List CacheEntry) (k : Nat) : Nat := ((listed.drop k).map (·.size)).sum

/-- Where a call of `prune_cache` is; the entries before `removed` have been taken. The list of a call
that has returned is ghost. -/
inductive Prune
  | listing (entries : List CacheEntry)
  | removing (listed : List CacheEntry) (removed total : Nat)
  | returned (listed : List CacheEntry) (result : Except String (Nat × Nat))
  deriving Repr

inductive PruneEvent
  /-- The walk comes to a file. -/
  | file (id : ChunkId) (modified : Int)
  /-- A directory or a file cannot be read. -/
  | fail (error : String)
  | sort
  | remove (result : Except String Unit)
  | finish

/-- mirrors crates/git-lfs-delta-client/src/main.rs:275-318 -/
def pruneStep (maximum : Nat) (disk : Cache) : Prune → PruneEvent → Option (Cache × Prune)
  | .listing entries, .file id modified =>
    match disk id with
    | some bytes =>
      if id ∈ entries.map (·.id) then none
      else some (disk, .listing (entries ++ [⟨id, bytes.length, modified⟩]))
    | none => none
  | .listing entries, .fail e => some (disk, .returned entries (.error e))
  | .listing entries, .sort =>
    let listed := entries.mergeSort fun a b => a.modified ≤ b.modified
    some (disk, .removing listed 0 (listed.map (·.size)).sum)
  | .removing listed removed total, .remove result =>
    match listed[removed]? with
    | none => none
    | some entry =>
      if total ≤ maximum then none
      else match result with
      | .error e => some (disk, .returned listed (.error e))
      | .ok () =>
        if (disk entry.id).isSome then
          some (Function.update disk entry.id none, .removing listed (removed + 1) (total - entry.size))
        else none
  | .removing listed removed total, .finish =>
    if removed < listed.length ∧ maximum < total then none
    else some (disk, .returned listed (.ok (removed, total)))
  | _, _ => none

/-- The oldest files are taken, and each only because what was left was too much. -/
structure Trimmed (maximum : Nat) (listed : List CacheEntry) (removed total : Nat) : Prop where
  sorted : listed.Pairwise fun a b => a.modified ≤ b.modified
  distinct : (listed.map (·.id)).Nodup
  within : removed ≤ listed.length
  total : total = sizeFrom listed removed
  needed : ∀ i < removed, maximum < sizeFrom listed i

def Prune.Ok (maximum : Nat) : Prune → Prop
  | .listing entries => (entries.map (·.id)).Nodup
  | .removing listed removed total => Trimmed maximum listed removed total
  | .returned listed (.ok (removed, total)) => Trimmed maximum listed removed total ∧ total ≤ maximum
  | .returned _ (.error _) => True

section Prune

variable {maximum : Nat} {disk disk' : Cache} {q q' : Prune} {event : PruneEvent}

theorem sizeFrom_succ {listed : List CacheEntry} {k : Nat} {entry : CacheEntry}
    (h : listed[k]? = some entry) : sizeFrom listed k = entry.size + sizeFrom listed (k + 1) := by
  obtain ⟨hk, rfl⟩ := List.getElem?_eq_some_iff.1 h
  rw [sizeFrom, List.drop_eq_getElem_cons hk, List.map_cons, List.sum_cons, sizeFrom]

theorem trimmed_sort {entries : List CacheEntry} (h : (entries.map (·.id)).Nodup) :
    let listed := entries.mergeSort fun a b => a.modified ≤ b.modified
    Trimmed maximum listed 0 (listed.map (·.size)).sum where
  sorted := by
    have hsorted : (entries.mergeSort fun a b => a.modified ≤ b.modified).Pairwise
        fun a b => decide (a.modified ≤ b.modified) = true :=
      List.pairwise_mergeSort (fun a b c hab hbc => by simp only [decide_eq_true_eq] at *; omega)
        (fun a b => by simp only [Bool.or_eq_true, decide_eq_true_eq]; omega) entries
    simpa using hsorted
  distinct := ((List.mergeSort_perm entries _).map _).nodup_iff.2 h
  within := Nat.zero_le _
  total := by simp [sizeFrom]
  needed i hi := absurd hi (Nat.not_lt_zero i)

theorem Trimmed.remove {listed : List CacheEntry} {removed total : Nat} {entry : CacheEntry}
    (h : Trimmed maximum listed removed total) (he : listed[removed]? = some entry)
    (hlt : maximum < total) : Trimmed maximum listed (removed + 1) (total - entry.size) where
  sorted := h.sorted
  distinct := h.distinct
  within := (List.getElem?_eq_some_iff.1 he).1
  total := by
    have := sizeFrom_succ he
    have := h.total
    omega
  needed i hi := by
    rcases Nat.lt_or_eq_of_le (Nat.le_of_lt_succ hi) with hi | rfl
    · exact h.needed i hi
    · rw [← h.total]
      exact hlt

/-- The list is gone through in order, and no further than needed. -/
theorem prune_ok (h : q.Ok maximum) (hst : pruneStep maximum disk q event = some (disk', q')) :
    q'.Ok maximum := by
  unfold pruneStep at hst
  split at hst
  · split at hst
    · split at hst
      · cases hst
      · rename_i hnew
        cases hst
        simp only [Prune.Ok, List.map_append, List.map_cons, List.map_nil] at h ⊢
        exact h.append (List.nodup_singleton _) (by simpa using hnew)
    · cases hst
  · cases hst
    trivial
  · cases hst
    exact trimmed_sort h
  · split at hst
    · cases hst
    · rename_i entry he
      split at hst
      · cases hst
      · rename_i hlt
        split at hst
        · cases hst
          trivial
        · split at hst
          · cases hst
            exact Trimmed.remove h he (by omega)
          · cases hst
  · split at hst
    · cases hst
    · rename_i listed removed total hstop
      cases hst
      refine ⟨h, ?_⟩
      -- the list is at its end, or the rest is small enough
      have hw := h.within
      have ht := h.total
      by_cases hend : removed < listed.length
      · omega
      · rw [ht, sizeFrom, List.drop_of_length_le (by omega)]
        exact Nat.zero_le _
  · cases hst

/-- A prune only removes. -/
theorem prune_disk (hst : pruneStep maximum disk q event = some (disk', q')) {c : ChunkId} {b : Bytes}
    (hb : disk' c = some b) : disk c = some b := by
  unfold pruneStep at hst
  split at hst
  · split at hst
    · split at hst <;> cases hst
      exact hb
    · cases hst
  · cases hst
    exact hb
  · cases hst
    exact hb
  · split at hst
    · cases hst
    · rename_i entry _
      split at hst
      · cases hst
      · split at hst
        · cases hst
          exact hb
        · split at hst
          · cases hst
            by_cases hc : c = entry.id
            · subst hc
              simp at hb
            · rwa [Function.update_of_ne hc] at hb
          · cases hst
  · split at hst <;> cases hst
    exact hb
  · cases hst

end Prune

/-! ## Genuine entries -/

/-- Every entry is one of the strings in question, under its identity. -/
def Genuine (H : Hashes) (B : Set Bytes) (disk : Cache) : Prop :=
  ∀ c b, disk c = some b → b ∈ B ∧ H.blake3 b = c

open Classical in
/-- The cache with all of them. -/
noncomputable def fullCache (H : Hashes) (B : Set Bytes) : Cache := fun c =>
  if h : ∃ b ∈ B, H.blake3 b = c then some h.choose else none

section Entries

variable {H : Hashes} {B : Set Bytes} {childUrl : String → Option String} {request : DownloadRequest}
  {m : ObjectManifest} {parts : List Bytes} {disk : Cache} {n : Nat} {s s' : Pipeline n} {t : Trace}

theorem fullCache_mem {c : ChunkId} {b : Bytes} (h : fullCache H B c = some b) : b ∈ B ∧ H.blake3 b = c := by
  unfold fullCache at h
  split at h
  · rename_i hex
    cases h
    exact hex.choose_spec
  · cases h

theorem fullCache_eq (hB : H.CollisionFree B) {b : Bytes} (hb : b ∈ B) :
    fullCache H B (H.blake3 b) = some b := by
  have hex : ∃ b' ∈ B, H.blake3 b' = H.blake3 b := ⟨b, hb, rfl⟩
  simp only [fullCache, dif_pos hex, Option.some.injEq]
  exact hB hex.choose_spec.1 hb hex.choose_spec.2

theorem candidates_full (hparts : ∀ b ∈ parts, b ∈ B) : Candidates (fullCache H B) parts ⊆ B := by
  rintro b (hb | ⟨c, hc⟩)
  · exact hparts b hb
  · exact (fullCache_mem hc).1

/-- What stands under the name of a chunk is the chunk. -/
theorem Genuine.fine (hB : H.CollisionFree B) (hparts : ∀ b ∈ parts, b ∈ B)
    (ho : Offer H childUrl request m parts) {c : ChunkId} {b : Bytes} (hb : b ∈ B) (hc : H.blake3 b = c) :
    Fine H m c b := by
  intro j d hd hid
  obtain ⟨b', hb', hv⟩ := ho.part hd
  have heq : b = b' :=
    hB hb (hparts b' (List.mem_of_getElem? hb')) (by rw [hc, ← hid, (validChunk_iff.1 hv).2])
  exact heq ▸ hv

theorem Genuine.not_stale (h : Genuine H B disk) (hB : H.CollisionFree B) (hparts : ∀ b ∈ parts, b ∈ B)
    (ho : Offer H childUrl request m parts) (c : ChunkId) : ¬ Stale H m disk c := by
  rintro ⟨b, hb, hnot⟩
  obtain ⟨hmem, hc⟩ := h c b hb
  exact hnot (Genuine.fine hB hparts ho hmem hc)

theorem Genuine.candidate (h : Genuine H B disk) (hB : H.CollisionFree B) {c : ChunkId} {b : Bytes}
    (hb : disk c = some b) : b ∈ Candidates (fullCache H B) parts := by
  obtain ⟨hmem, rfl⟩ := h c b hb
  exact .inr ⟨_, fullCache_eq hB hmem⟩

theorem undisturbed_full (hB : H.CollisionFree B) (hparts : ∀ b ∈ parts, b ∈ B)
    (ho : Offer H childUrl request m parts) : Undisturbed H n (fullCache H B) m := by
  intro i d hfirst _ _ _ _ _ _ b hb
  obtain ⟨hmem, hc⟩ := fullCache_mem hb
  exact Genuine.fine hB hparts ho hmem hc i d hfirst.1 rfl

/-! ## A cache that changes -/

/-- In a genuine cache there is nothing to remove, so it may be exchanged for another. -/
theorem LoopInv.recache {p : Progress} (h : LoopInv H (fullCache H B) m parts s p)
    (hold : ∀ c, ¬ Stale H m s.cache c) (hnew : ∀ c, ¬ Stale H m disk c)
    (hcand : ∀ c b, disk c = some b → b ∈ Candidates (fullCache H B) parts) :
    LoopInv H (fullCache H B) m parts { s with cache := disk } p where
  entries := hcand
  stale c hc := absurd hc (hnew c)
  removing w i d hw := absurd (h.removing w i d hw).1 (hold d.id)
  publishing := h.publishing
  sending := h.sending
  completed := h.completed
  pending := h.pending
  unfinished _ d _ hs := absurd hs (hnew d.id)
  content := h.content

theorem Steady.recache (h : Steady H request m s t) (hn : 0 < n) (disk : Cache) :
    Steady H request m { s with cache := disk } t := by
  have hd := (download_inv H (fun _ => none) request n).step s (.disk disk) _ h.1.data rfl
  have hm : Move H none request s (.disk disk) { s with cache := disk } := .disk
  exact ⟨⟨hd, h.1.creating, h.1.manifest, h.1.jobs, h.1.workers⟩, h.2.move hn hm⟩

/-- A download from a shared cache, from its start to its end. -/
def Unhindered (H : Hashes) (B : Set Bytes) (request : DownloadRequest) (m : ObjectManifest)
    (parts : List Bytes) (s : Pipeline n) : Prop :=
  (s.coordinator = .starting ∨ ∃ m', s.coordinator = .creating m') ∨
    CacheInv H request (fullCache H B) m parts s

theorem Unhindered.recache (h : Unhindered H B request m parts s)
    (hold : ∀ c, ¬ Stale H m s.cache c) (hnew : ∀ c, ¬ Stale H m disk c)
    (hcand : ∀ c b, disk c = some b → b ∈ Candidates (fullCache H B) parts) :
    Unhindered H B request m parts { s with cache := disk } := by
  rcases h with h | h
  · exact .inl h
  · cases hp : s.coordinator.progress? with
    | some p => exact .inr (((h.loop hp).recache hold hnew hcand).cacheInv hp)
    | none =>
      unfold CacheInv at h
      cases hc : s.coordinator with
      | starting => exact .inl (.inl rfl)
      | creating m' => exact .inl (.inr ⟨m', rfl⟩)
      | joining m' result =>
        rw [hc] at h
        exact .inr (by simpa only [CacheInv, hc] using h)
      | finishing m' =>
        rw [hc] at h
        exact .inr (by simpa only [CacheInv, hc] using h)
      | returned r =>
        rw [hc] at h
        exact .inr (by simpa only [CacheInv, hc] using h)
      | _ => rw [hc] at hp; cases hp

/-- Only chunks of the object are published. -/
theorem Unhindered.publishing (h : Unhindered H B request m parts s) (hs : Steady H request m s t)
    {w : Fin n} {i : Nat} {d : ChunkDescriptor} {b : Bytes}
    (hw : s.workers w = .fetching i d (.publishing b)) : parts[i]? = some b := by
  have hin : ¬ s.coordinator.Outside := by
    intro hout
    rw [hs.2.outside hout w] at hw
    cases hw
  rcases h with (hc | ⟨m', hc⟩) | h
  · exact absurd (hc ▸ trivial) hin
  · exact absurd (hc ▸ trivial) hin
  · cases hp : s.coordinator.progress? with
    | some p => exact (h.loop hp).publishing w i d b hw
    | none =>
      cases hc : s.coordinator with
      | joining m' result =>
        -- the last chunk has been written, so no worker is busy
        unfold CacheInv at h
        rw [hc] at h
        have hex := hs.2.outcome
        rw [hc, h.1] at hex
        have hmem : i ∈ s.inFlight := mem_inFlight (w := w) (by rw [hw]; exact Multiset.mem_singleton_self i)
        rw [hex.1] at hmem
        exact absurd hmem (Multiset.notMem_zero i)
      | starting | creating | finishing | returned => exact absurd (hc ▸ trivial) hin
      | _ => rw [hc] at hp; cases hp

section Step

variable {l : DownloadEvent n} (ho : Offer H childUrl request m parts) (hB : H.CollisionFree B)
  (hparts : ∀ b ∈ parts, b ∈ B) (hs : Steady H request m s t) (hg : Genuine H B s.cache)
  (h : Unhindered H B request m parts s) (hhonest : Honest m parts s l)
  (hst : downloadStep H childUrl request s l = some s')

include ho hparts hs hg h hhonest hst in
/-- What a download does to the cache. -/
theorem genuine_kept : Genuine H B s'.cache := by
  cases downloadStep_move hst with
  | disk => exact hhonest.elim
  | @fetch w i d f event cache published next hw hfetch =>
    have hd := hs.1.workers w i d f hw
    cases honestFetch_of_step ho hd hw hhonest hfetch with
    | removed =>
      intro c b hb
      simp only at hb
      by_cases hc : c = d.id
      · subst hc
        simp at hb
      · rw [Function.update_of_ne hc] at hb
        exact hg c b hb
    | @published _ b hnone =>
      have hpart := h.publishing hs hw
      obtain ⟨b', hb', hv⟩ := ho.part hd
      rw [hpart, Option.some.injEq] at hb'
      subst hb'
      intro c b' hb'
      simp only at hb'
      by_cases hc : c = d.id
      · subst hc
        simp only [Function.update_self, Option.some.injEq] at hb'
        subst hb'
        exact ⟨hparts b (List.mem_of_getElem? hpart), (validChunk_iff.1 hv).2⟩
      · rw [Function.update_of_ne hc] at hb'
        exact hg c b' hb'
    | _ => exact hg
  | _ => exact hg

include ho hB hparts hs hg h hhonest hst in
theorem Unhindered.step (hn : 0 < n) : Unhindered H B request m parts s' := by
  have hstep : (honestDownload H childUrl request n (fullCache H B) m parts).step s l s' := ⟨hhonest, hst⟩
  rcases h with hearly | h
  · have hout : s.coordinator.Outside := by
      rcases hearly with hc | ⟨m', hc⟩ <;> rw [hc] <;> trivial
    rcases honest_outside ho hout (hs.2.outside hout) hstep with
      ⟨-, rfl⟩ | ⟨m', path, hc, rfl⟩ | ⟨m', hc, -⟩
    · exact .inl (.inr ⟨m, rfl⟩)
    · obtain rfl := hs.1.creating m' hc
      -- the loops start as they would with the full cache
      have hl : LoopInv H (fullCache H B) m' parts
          ({ s with
            coordinator := .priming ⟨m', 0, 0, fun _ => none⟩
            temporary := some ⟨path, []⟩
            hashed := []
            jobs := []
            jobsOpen := true
            completed := []
            workers := fun _ => .waiting
            cache := fullCache H B } : Pipeline n) ⟨m', 0, 0, fun _ => none⟩ :=
        loopInv_initial _ rfl rfl rfl rfl fun _ => rfl
      have hfull : Genuine H B (fullCache H B) := fun c b hb => fullCache_mem hb
      exact .inr ((hl.recache (hfull.not_stale hB hparts ho) (hg.not_stale hB hparts ho)
        fun c b hb => hg.candidate hB hb).cacheInv rfl)
    · rcases hearly with hc' | ⟨_, hc'⟩ <;> rw [hc'] at hc <;> cases hc
  · exact .inr (h.step hs ho (hB.mono (candidates_full hparts)) (undisturbed_full hB hparts ho) hn hstep)

end Step

end Entries

/-! ## The system -/

/-- The directory, the downloads and the prunes; what `downloads` has for a cache is out of date. -/
structure Sharing (κ ρ : Type) (n : Nat) where
  disk : Cache
  downloads : κ → Pipeline n
  prunes : ρ → Prune

inductive SharingEvent (κ ρ : Type) (n : Nat)
  | download (k : κ) (event : DownloadEvent n)
  | prune (j : ρ) (event : PruneEvent)

section System

variable {κ ρ : Type} {n : Nat}

def SharingEvent.client? : SharingEvent κ ρ n → Option κ
  | .download k _ => some k
  | .prune .. => none

/-- A download as it finds the directory. -/
def Sharing.view (x : Sharing κ ρ n) (k : κ) : Pipeline n := { x.downloads k with cache := x.disk }

def Sharing.initial (n : Nat) (disk : Cache) : Sharing κ ρ n :=
  ⟨disk, fun _ => .initial n disk, fun _ => .listing []⟩

variable [DecidableEq κ] [DecidableEq ρ]

def sharingStep (H : Hashes) (childUrl : String → Option String) (request : κ → DownloadRequest)
    (maximum : ρ → Nat) (x : Sharing κ ρ n) : SharingEvent κ ρ n → Option (Sharing κ ρ n)
  | .download k event =>
    if event.own then
      (downloadStep H childUrl (request k) (x.view k) event).map fun s =>
        { x with disk := s.cache, downloads := Function.update x.downloads k s }
    else none
  | .prune j event =>
    (pruneStep (maximum j) x.disk (x.prunes j) event).map fun y =>
      { x with disk := y.1, prunes := Function.update x.prunes j y.2 }

/-- The servers answer correctly, and the files of the downloads are in order. -/
def AllHonest (m : κ → ObjectManifest) (parts : κ → List Bytes) (x : Sharing κ ρ n) :
    SharingEvent κ ρ n → Prop
  | .download k event => Honest (m k) (parts k) (x.view k) event
  | .prune .. => True

/-- Every interleaving of downloads and prunes in one directory. -/
def sharing (H : Hashes) (childUrl : String → Option String) (request : κ → DownloadRequest)
    (maximum : ρ → Nat) (n : Nat) (disk : Cache) (m : κ → ObjectManifest) (parts : κ → List Bytes) :
    LTS (Sharing κ ρ n) (SharingEvent κ ρ n) :=
  (LTS.ofFn (fun x => x = .initial n disk) (sharingStep H childUrl request maximum)).guard
    (AllHonest m parts)

variable {H : Hashes} {B : Set Bytes} {childUrl : String → Option String} {request : κ → DownloadRequest}
  {maximum : ρ → Nat} {disk : Cache} {m : κ → ObjectManifest} {parts : κ → List Bytes}
  {x x' : Sharing κ ρ n}

omit [DecidableEq ρ] in
theorem view_self {k : κ} {s : Pipeline n} :
    Sharing.view { x with disk := s.cache, downloads := Function.update x.downloads k s } k = s := by
  simp [Sharing.view]

omit [DecidableEq ρ] in
theorem view_other {j k : κ} (hj : j ≠ k) {s : Pipeline n} :
    Sharing.view { x with disk := s.cache, downloads := Function.update x.downloads k s } j =
      { x.view j with cache := s.cache } := by
  simp [Sharing.view, Function.update_of_ne hj]

structure SharingInv (H : Hashes) (B : Set Bytes) (request : κ → DownloadRequest) (maximum : ρ → Nat)
    (m : κ → ObjectManifest) (parts : κ → List Bytes) (x : Sharing κ ρ n) : Prop where
  genuine : Genuine H B x.disk
  steady : ∀ k, ∃ t, Steady H (request k) (m k) (x.view k) t
  downloads : ∀ k, Unhindered H B (request k) (m k) (parts k) (x.view k)
  prunes : ∀ j, (x.prunes j).Ok (maximum j)

theorem sharing_inv (hn : 0 < n) (hB : H.CollisionFree B) (hdisk : Genuine H B disk)
    (ho : ∀ k, Offer H childUrl (request k) (m k) (parts k)) (hparts : ∀ k, ∀ b ∈ parts k, b ∈ B) :
    (sharing H childUrl request maximum n disk m parts).Inductive
      (SharingInv H B request maximum m parts) where
  init x hx := by
    obtain rfl : x = .initial n disk := hx
    exact ⟨hdisk, fun k => steady_initial disk, fun k => .inl (.inl rfl), fun j => List.nodup_nil⟩
  step x l x' h hst := by
    obtain ⟨hhonest, hst⟩ := hst
    -- what happens to the directory is no matter for a download
    have other : ∀ {disk'}, Genuine H B disk' → ∀ k,
        (∃ t, Steady H (request k) (m k) { x.view k with cache := disk' } t) ∧
          Unhindered H B (request k) (m k) (parts k) { x.view k with cache := disk' } := by
      intro disk' hg k
      obtain ⟨t, hs⟩ := h.steady k
      refine ⟨⟨t, hs.recache hn disk'⟩, ?_⟩
      exact (h.downloads k).recache (h.genuine.not_stale hB (hparts k) (ho k))
        (hg.not_stale hB (hparts k) (ho k)) fun c b hb => hg.candidate hB hb
    cases l with
    | download k event =>
      simp only [LTS.ofFn, sharingStep] at hst
      split at hst
      · rw [Option.map_eq_some_iff] at hst
        obtain ⟨s, hstep, rfl⟩ := hst
        obtain ⟨t, hs⟩ := h.steady k
        have hone : (honestDownload H childUrl (request k) n disk (m k) (parts k)).step (x.view k) event s :=
          ⟨hhonest, hstep⟩
        have hg : Genuine H B s.cache :=
          genuine_kept (ho k) (hparts k) hs h.genuine (h.downloads k) hhonest hstep
        refine ⟨hg, fun j => ?_, fun j => ?_, h.prunes⟩
        · by_cases hj : j = k
          · subst hj
            rw [view_self]
            exact ⟨_, hs.step hn hone⟩
          · rw [view_other hj]
            exact (other hg j).1
        · by_cases hj : j = k
          · subst hj
            rw [view_self]
            exact (h.downloads j).step (ho j) hB (hparts j) hs h.genuine hhonest hstep hn
          · rw [view_other hj]
            exact (other hg j).2
      · cases hst
    | prune j event =>
      simp only [LTS.ofFn, sharingStep, Option.map_eq_some_iff] at hst
      obtain ⟨⟨disk', q⟩, hstep, rfl⟩ := hst
      have hg : Genuine H B disk' := fun c b hb => h.genuine c b (prune_disk hstep hb)
      refine ⟨hg, fun k => (other hg k).1, fun k => (other hg k).2, fun i => ?_⟩
      by_cases hi : i = j
      · subst hi
        simp only [Function.update_self]
        exact prune_ok (h.prunes i) hstep
      · simp only [Function.update_of_ne hi]
        exact h.prunes i

/-- A download's own steps bring it nearer to its end, and the others' do not keep it from there. -/
theorem sharing_left (hn : 0 < n) {l : SharingEvent κ ρ n} (h : SharingInv H B request maximum m parts x)
    (hst : (sharing H childUrl request maximum n disk m parts).step x l x') (k : κ) :
    (if l.client? = some k then 1 else 0) + stepsLeft (m k) (x'.view k) ≤ stepsLeft (m k) (x.view k) := by
  obtain ⟨hhonest, hst⟩ := hst
  cases l with
  | download j event =>
    simp only [LTS.ofFn, sharingStep] at hst
    split at hst
    · rw [Option.map_eq_some_iff] at hst
      obtain ⟨s, hstep, rfl⟩ := hst
      by_cases hj : j = k
      · subst hj
        obtain ⟨t, hs⟩ := h.steady j
        have hone : (honestDownload H childUrl (request j) n disk (m j) (parts j)).step (x.view j) event s :=
          ⟨hhonest, hstep⟩
        have hlt := hs.stepsLeft_lt hn hone
        rw [view_self, SharingEvent.client?, if_pos rfl]
        omega
      · have hsame : stepsLeft (m k) { x.view k with cache := s.cache } = stepsLeft (m k) (x.view k) := rfl
        rw [view_other (Ne.symm hj), hsame, SharingEvent.client?, if_neg (by simpa using hj), Nat.zero_add]
    · cases hst
  | prune j event =>
    simp only [LTS.ofFn, sharingStep, Option.map_eq_some_iff] at hst
    obtain ⟨y, -, rfl⟩ := hst
    have hsame : stepsLeft (m k) { x.view k with cache := y.1 } = stepsLeft (m k) (x.view k) := rfl
    rw [SharingEvent.client?, if_neg (by simp), Nat.zero_add]
    exact hsame.le

theorem sharing_run (hn : 0 < n) (hB : H.CollisionFree B) (hdisk : Genuine H B disk)
    (ho : ∀ k, Offer H childUrl (request k) (m k) (parts k)) (hparts : ∀ k, ∀ b ∈ parts k, b ∈ B)
    {ls : List (SharingEvent κ ρ n)}
    (hrun : (sharing H childUrl request maximum n disk m parts).Run x ls x') (k : κ)
    (h : SharingInv H B request maximum m parts x) :
    ls.countP (fun l => l.client? = some k) + stepsLeft (m k) (x'.view k) ≤ stepsLeft (m k) (x.view k) := by
  induction hrun with
  | nil => simp
  | cons hst _ ih =>
    have hone := sharing_left hn h hst k
    have hrest := ih ((sharing_inv hn hB hdisk ho hparts).step _ _ _ h hst)
    rw [List.countP_cons]
    simp only [decide_eq_true_eq]
    omega

/-- **Downloads and prunes may share a directory.** Whatever the directory has at the start, as long as
it is genuine, and in every interleaving of downloads that servers and file systems do not fail with
prunes that may fail at any point: the entries stay genuine; a download that has returned has its
object; one that has not can take a step of its own, and takes no more than a fixed number of them;
and every prune that has not failed has taken the oldest of the files it has listed, none of them
needlessly. -/
theorem cache_shared (H : Hashes) (childUrl : String → Option String) (request : κ → DownloadRequest)
    (maximum : ρ → Nat) (n : Nat) (hn : 0 < n) (disk : Cache) (m : κ → ObjectManifest)
    (parts : κ → List Bytes) (B : Set Bytes) (hB : H.CollisionFree B) (hdisk : Genuine H B disk)
    (ho : ∀ k, Offer H childUrl (request k) (m k) (parts k)) (hparts : ∀ k, ∀ b ∈ parts k, b ∈ B) :
    (∀ x, (sharing H childUrl request maximum n disk m parts).Reachable x →
      Genuine H B x.disk ∧
      (∀ k r, (x.downloads k).coordinator = .returned r → ∃ path,
        r = .ok ⟨path, (request k).size⟩ ∧ (x.downloads k).temporary = some ⟨path, (parts k).flatten⟩) ∧
      (∀ k, (∀ r, (x.downloads k).coordinator ≠ .returned r) → ∃ event x',
        (sharing H childUrl request maximum n disk m parts).step x (.download k event) x') ∧
      ∀ j, (x.prunes j).Ok (maximum j)) ∧
    ∀ x ls, (sharing H childUrl request maximum n disk m parts).Run (.initial n disk) ls x → ∀ k,
      ls.countP (fun l => l.client? = some k) ≤ 30 * (m k).chunks.length + n + 7 := by
  have hinv : (sharing H childUrl request maximum n disk m parts).Inductive
      (SharingInv H B request maximum m parts) := sharing_inv hn hB hdisk ho hparts
  refine ⟨fun x hr => ?_, fun x ls hrun k => ?_⟩
  · have h := hinv.reachable hr
    refine ⟨h.genuine, fun k r hret => ?_, fun k hne => ?_, h.prunes⟩
    · have hview : (x.view k).coordinator = .returned r := hret
      rcases h.downloads k with (hc | ⟨m', hc⟩) | hc
      · rw [hview] at hc
        cases hc
      · rw [hview] at hc
        cases hc
      · simp only [CacheInv, hview] at hc
        exact hc
    · obtain ⟨t, hs⟩ := h.steady k
      obtain ⟨event, s, hhonest, hstep⟩ : ∃ event s,
          (honestDownload H childUrl (request k) n disk (m k) (parts k)).step (x.view k) event s :=
        hs.1.enabled (ho k) hs.2 hn hne
      have hstep' : downloadStep H childUrl (request k) (x.view k) event = some s := hstep
      refine ⟨event, { x with disk := s.cache, downloads := Function.update x.downloads k s }, hhonest, ?_⟩
      simp only [LTS.ofFn, sharingStep, hhonest.own, if_true, hstep', Option.map_some]
  · have hsteps := sharing_run hn hB hdisk ho hparts hrun k (hinv.init _ rfl)
    have hstart : stepsLeft (m k) (Sharing.view (.initial n disk : Sharing κ ρ n) k) =
        30 * (m k).chunks.length + n + 7 := rfl
    omega

end System

/-- The directory has byte `a`. -/
def Sample.cached : Cache := fun c => if c = Sample.hashes.blake3 [0x61] then some [0x61] else none

open Sample in
/-- Two downloads of one object, whose entry is there at first, and a prune that removes it. -/
theorem cache_shared_pruned :
    ((∀ x, (sharing hashes (fun _ => none) (fun _ : Bool => wanted) (fun _ : Unit => 0) 2
        cached (fun _ => manifest [0x61]) fun _ => [[0x61]]).Reachable x →
      Genuine hashes {[0x61]} x.disk ∧
      (∀ k r, (x.downloads k).coordinator = .returned r → ∃ path,
        r = .ok ⟨path, 1⟩ ∧ (x.downloads k).temporary = some ⟨path, [0x61]⟩) ∧
      (∀ k, (∀ r, (x.downloads k).coordinator ≠ .returned r) → ∃ event x',
        (sharing hashes (fun _ => none) (fun _ : Bool => wanted) (fun _ : Unit => 0) 2
          cached (fun _ => manifest [0x61]) fun _ => [[0x61]]).step x (.download k event) x') ∧
      ∀ j, (x.prunes j).Ok 0) ∧
    ∀ x ls, (sharing hashes (fun _ => none) (fun _ : Bool => wanted) (fun _ : Unit => 0) 2
        cached (fun _ => manifest [0x61]) fun _ => [[0x61]]).Run (.initial 2 cached) ls x →
      ∀ k, ls.countP (fun l => l.client? = some k) ≤ 39) ∧
    ∃ x, (sharing hashes (fun _ => none) (fun _ : Bool => wanted) (fun _ : Unit => 0) 2
        cached (fun _ => manifest [0x61]) fun _ => [[0x61]]).Reachable x ∧
      x.disk (hashes.blake3 [0x61]) = none ∧
      x.prunes () = .returned [⟨hashes.blake3 [0x61], 1, 0⟩] (.ok (1, 0)) := by
  have hgenuine : Genuine hashes {[0x61]} cached := by
    intro c b h
    unfold cached at h
    split at h
    · rename_i hc
      cases h
      exact ⟨rfl, hc.symm⟩
    · cases h
  refine ⟨cache_shared hashes (fun _ => none) (fun _ : Bool => wanted) (fun _ : Unit => 0) 2 (by decide) cached
    (fun _ => manifest [0x61]) (fun _ => [[0x61]]) {[0x61]} (Set.injOn_singleton _ _) hgenuine
    (fun _ => ⟨⟨_, rfl, rfl⟩, by decide +kernel, rfl, rfl, .cons (by decide +kernel) .nil, by decide +kernel⟩)
    (by simp), ?_⟩
  have hsort : pruneStep 0 cached (.listing [⟨hashes.blake3 [0x61], 1, 0⟩]) .sort =
      some (cached, .removing [⟨hashes.blake3 [0x61], 1, 0⟩] 0 1) := by
    simp [pruneStep]
  have hsorted : sharingStep hashes (fun _ => none) (fun _ : Bool => wanted) (fun _ : Unit => 0)
      (⟨cached, fun _ => .initial 2 cached, fun _ => .listing [⟨hashes.blake3 [0x61], 1, 0⟩]⟩ :
        Sharing Bool Unit 2) (.prune () .sort) =
      some ⟨cached, fun _ => .initial 2 cached, fun _ => .removing [⟨hashes.blake3 [0x61], 1, 0⟩] 0 1⟩ := by
    rw [sharingStep, hsort]
    rfl
  exact ⟨_, ⟨.initial 2 cached, [.prune () (.file (hashes.blake3 [0x61]) 0), .prune () .sort,
    .prune () (.remove (.ok ())), .prune () .finish], rfl, .cons ⟨trivial, rfl⟩ (.cons ⟨trivial, hsorted⟩
      (.cons ⟨trivial, rfl⟩ (.cons ⟨trivial, rfl⟩ (.nil _))))⟩, rfl, rfl⟩

end GitLfsDelta
