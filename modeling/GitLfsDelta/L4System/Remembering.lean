import Mathlib.Data.Finset.Card
import GitLfsDelta.L4System.AuthorizationCache

/-!
# What the authorization cache remembers

A decision that `authenticate_forgejo` has inserted is to spare Forgejo the next requests. It does so for
the whole of `ttl` if the requests in use have fewer keys than the cache has room for. (With as many keys
as room, two concurrent calls for one key are enough to remove the entry of another one: the second
insertion makes room before it replaces the entry of the first.)

* `authStep_entries`: with room to spare, no step removes an entry that has not expired.
* `authorization_remembered`: until it expires, a decision answers every call for its key at once.
-/
namespace GitLfsDelta

namespace ForgejoAuthorizationCache

variable {cache cache' : ForgejoAuthorizationCache} {entry e : CachedForgejoIdentity} {key : BitVec 256}
  {now : Nat} {victim : Option (BitVec 256)}

theorem lookup_keeps (key : BitVec 256) (he : e ∈ cache.entries) (hfresh : now < e.expiresAt) :
    e ∈ (cache.lookup key now).2.entries := by
  unfold lookup
  split
  · exact he
  · rename_i cached hget
    split
    · exact he
    · rename_i hstale
      refine Table.mem_deleteWhere.2 ⟨he, ?_⟩
      -- the entry under the key has expired, so it is another one
      obtain ⟨hmem, hkey⟩ := Table.get?_some.1 hget
      refine decide_eq_false fun hek => hstale ?_
      rwa [← Table.eq_of_key he hmem (hek.trans hkey.symm)]

/-- With an entry for the key that has not expired, the lookup finds it. -/
theorem lookup_finds (he : e ∈ cache.entries) (hkey : e.key = key) (hfresh : now < e.expiresAt) :
    cache.lookup key now = (some e, cache) := by
  have hget : cache.entries.get? key = some e := Table.get?_some.2 ⟨he, hkey⟩
  simp only [lookup, hget, if_pos hfresh]

theorem evict_room (hroom : cache.entries.rows.length < cache.capacity) :
    cache.evict now victim = some (cache.entries.deleteWhere fun e => e.expiresAt ≤ now) := by
  have hlength : (cache.entries.deleteWhere fun e => e.expiresAt ≤ now).rows.length ≤
      cache.entries.rows.length := List.length_filter_le _ _
  unfold evict
  rw [if_pos (lt_of_le_of_lt hlength hroom)]

theorem storeEvicting_keeps (hroom : cache.entries.rows.length < cache.capacity)
    (h : cache.storeEvicting entry now victim = some cache') (he : e ∈ cache.entries)
    (hfresh : now < e.expiresAt) : e ∈ cache'.entries ∨ e.key = entry.key := by
  rw [storeEvicting, evict_room hroom] at h
  cases h
  by_cases hkey : e.key = entry.key
  · exact .inr hkey
  · refine .inl (Table.mem_insert_of_mem
      (Table.mem_deleteWhere.2 ⟨Table.mem_deleteWhere.2 ⟨he, ?_⟩, ?_⟩))
    · exact decide_eq_false (by omega)
    · exact decide_eq_false hkey

theorem storeEvicting_mem (h : cache.storeEvicting entry now victim = some cache') :
    entry ∈ cache'.entries := by
  unfold storeEvicting at h
  obtain ⟨room, -, rfl⟩ := Option.map_eq_some_iff.1 h
  refine Table.mem_insert.2 (.inr ⟨rfl, Table.get?_none.2 fun r hr => ?_⟩)
  simpa using (Table.mem_deleteWhere.1 hr).2

end ForgejoAuthorizationCache

/-! ## The calls -/

section System

variable {ι : Type} [DecidableEq ι] {H : Hashes} {s s' : AuthState ι} {l : AuthLabel ι}
  {K : Finset (BitVec 256)} {ttl capacity : Nat}

/-- With room to spare an entry stays until it expires, or gives way to a newer one. -/
theorem authStep_entries (h : authStep H s l = some s')
    (hroom : s.cache.entries.rows.length < s.cache.capacity) {e : CachedForgejoIdentity}
    (he : e ∈ s.cache.entries) (hfresh : s.clock < e.expiresAt) :
    ∃ e' ∈ s'.cache.entries, e'.key = e.key ∧
      (e' = e ∨ e'.expiresAt = s.clock + s.cache.ttl) := by
  have same : s'.cache = s.cache → ∃ e' ∈ s'.cache.entries, e'.key = e.key ∧
      (e' = e ∨ e'.expiresAt = s.clock + s.cache.ttl) :=
    fun heq => ⟨e, heq ▸ he, rfl, .inl rfl⟩
  cases l with
  | lookup c =>
    simp only [authStep] at h
    split at h
    · rename_i call hcall
      split at h
      · cases h
        refine ⟨e, ?_, rfl, .inl rfl⟩
        have hkeeps := ForgejoAuthorizationCache.lookup_keeps (call.request.key H) he hfresh
        unfold AuthState.lookUp
        split
        · rename_i hlookup
          rw [hlookup] at hkeeps
          exact hkeeps
        · rename_i hlookup
          rw [hlookup] at hkeeps
          exact hkeeps
      · cases h
    · cases h
  | insert c victim =>
    simp only [authStep] at h
    split at h
    · split at h
      · obtain ⟨cache, hstore, rfl⟩ := Option.map_eq_some_iff.1 h
        rcases ForgejoAuthorizationCache.storeEvicting_keeps hroom hstore he hfresh with hmem | hkey
        · exact ⟨e, hmem, rfl, .inl rfl⟩
        · exact ⟨_, ForgejoAuthorizationCache.storeEvicting_mem hstore, hkey.symm, .inr rfl⟩
      · cases h
    · cases h
  | advance δ =>
    cases h
    exact same rfl
  | call c x =>
    simp only [authStep] at h
    split at h <;> cases h
    exact same rfl
  | user c reply | repository c reply | drop c =>
    simp only [authStep] at h
    split at h
    · split at h <;> cases h
      exact same rfl
    · cases h

theorem call_of_update {calls : ι → Option AuthCall} {c d : ι} {call call' : AuthCall}
    (h : Function.update calls d (some call) c = some call') :
    c = d ∧ call' = call ∨ calls c = some call' := by
  by_cases e : c = d
  · subst e
    rw [Function.update_self, Option.some.injEq] at h
    exact .inl ⟨rfl, h.symm⟩
  · rw [Function.update_of_ne e] at h
    exact .inr h

/-- Nobody changes the request of a call. -/
theorem authStep_request (h : authStep H s l = some s') {c : ι} {call' : AuthCall}
    (hcall' : s'.calls c = some call') :
    (∃ call, s.calls c = some call ∧ call'.request = call.request) ∨ l = .call c call'.request := by
  have put : ∀ {d : ι} {call₀ call₁ : AuthCall}, s.calls d = some call₀ →
      Function.update s.calls d (some call₁) c = some call' → call₁.request = call₀.request →
      ∃ call, s.calls c = some call ∧ call'.request = call.request := by
    intro d call₀ call₁ hd hc hsame
    rcases call_of_update hc with ⟨rfl, rfl⟩ | hold
    · exact ⟨call₀, hd, hsame⟩
    · exact ⟨call', hold, rfl⟩
  cases l with
  | advance δ =>
    cases h
    exact .inl ⟨call', hcall', rfl⟩
  | call d x =>
    simp only [authStep] at h
    split at h <;> cases h
    rcases call_of_update hcall' with ⟨rfl, rfl⟩ | hold
    · exact .inr rfl
    · exact .inl ⟨call', hold, rfl⟩
  | lookup d =>
    simp only [authStep] at h
    split at h
    · rename_i hd
      split at h <;> cases h
      unfold AuthState.lookUp at hcall'
      split at hcall'
      · exact .inl (put hd hcall' rfl)
      · exact .inl (put hd hcall' rfl)
    · cases h
  | insert d victim =>
    simp only [authStep] at h
    split at h
    · rename_i hd
      split at h
      · obtain ⟨cache, -, rfl⟩ := Option.map_eq_some_iff.1 h
        exact .inl (put hd hcall' rfl)
      · cases h
    · cases h
  | user d reply | repository d reply | drop d =>
    simp only [authStep] at h
    split at h
    · rename_i hd
      split at h <;> cases h
      exact .inl (put hd hcall' rfl)
    · cases h

/-! ## The invariant -/

/-- The keys in use are among these. -/
def Keyed (H : Hashes) (K : Finset (BitVec 256)) (_ : AuthState ι) : AuthLabel ι → Prop
  | .call _ x => x.key H ∈ K
  | _ => True

instance (H : Hashes) (K : Finset (BitVec 256)) (s : AuthState ι) : DecidablePred (Keyed H K s)
  | .call _ x => inferInstanceAs (Decidable (x.key H ∈ K))
  | .advance _ | .lookup _ | .user .. | .repository .. | .insert .. | .drop _ => .isTrue trivial

structure RememberInv (H : Hashes) (K : Finset (BitVec 256)) (ttl capacity : Nat) (s : AuthState ι) :
    Prop where
  base : AuthInv H ttl capacity s
  keyed : ∀ c call, s.calls c = some call → call.request.key H ∈ K
  kept : ∀ c call t e, s.calls c = some call → call.inserted = some (t, e) → s.clock < t + ttl →
    ∃ e' ∈ s.cache.entries, e'.key = e.key ∧ t + ttl ≤ e'.expiresAt

omit [DecidableEq ι] in
/-- There is room to spare. -/
theorem RememberInv.room (h : RememberInv H K ttl capacity s) (hK : K.card < capacity) :
    s.cache.entries.rows.length < s.cache.capacity := by
  have hsub : (s.cache.entries.rows.map CachedForgejoIdentity.key).toFinset ⊆ K := by
    intro key hkey
    obtain ⟨e, he, rfl⟩ := List.mem_map.1 (List.mem_toFinset.1 hkey)
    obtain ⟨c, call, t, hcall, hins⟩ := h.base.entries e he
    rw [(h.base.recorded c call t e hcall hins).2.1]
    exact h.keyed c call hcall
  have hcard := Finset.card_le_card hsub
  rw [List.toFinset_card_of_nodup s.cache.entries.nodup, List.length_map] at hcard
  rw [h.base.settings.2]
  omega

/-- An insertion of this step. -/
theorem authStep_inserted (h : authStep H s l = some s') (hi : AuthInv H ttl capacity s) {c : ι}
    {call' : AuthCall} {t : Nat} {e : CachedForgejoIdentity} (hcall' : s'.calls c = some call')
    (hins : call'.inserted = some (t, e)) :
    (∃ call, s.calls c = some call ∧ call.inserted = some (t, e)) ∨
      t = s.clock ∧ e ∈ s'.cache.entries ∧ e.expiresAt = t + ttl := by
  rcases authStep_cases h with ⟨-, -, hcalls⟩ | ⟨-, -, d, x, -, hcalls⟩ |
    ⟨d, call₀, call₁, hd, -, hcalls, hstep⟩
  · exact .inl ⟨call', hcalls ▸ hcall', hins⟩
  · rw [hcalls] at hcall'
    rcases call_of_update hcall' with ⟨rfl, rfl⟩ | hold
    · cases hins
    · exact .inl ⟨call', hold, hins⟩
  · rw [hcalls] at hcall'
    rcases call_of_update hcall' with ⟨rfl, rfl⟩ | hold
    · have hfresh := hstep.fresh (hi.sound c call₀ hd)
      cases hstep with
      | insert _ hentry hstore =>
        cases hins
        have hmem := ForgejoAuthorizationCache.storeEvicting_mem hstore
        refine .inr ⟨rfl, hmem, ?_⟩
        rw [hentry, hi.settings.1]
      | _ => exact absurd (hins.symm.trans hfresh) (by simp)
    · exact .inl ⟨call', hold, hins⟩

theorem authStep_clock (h : authStep H s l = some s') : s.clock ≤ s'.clock := by
  rcases authStep_cases h with ⟨-, hle, -⟩ | ⟨-, heq, -⟩ | ⟨_, _, _, -, heq, -⟩
  · exact hle
  · exact heq.ge
  · exact heq.ge

theorem rememberInv_inductive (hK : K.card < capacity) :
    ((authorizing H ttl capacity : LTS (AuthState ι) (AuthLabel ι)).guard (Keyed H K)).Inductive
      (RememberInv H K ttl capacity) where
  init s hs := by
    have hnone := hs.2
    refine ⟨(authorizing_inv H ttl (by omega)).init s hs, fun c call hcall => ?_,
      fun c call t e hcall => ?_⟩
    · rw [hnone c] at hcall
      cases hcall
    · rw [hnone c] at hcall
      cases hcall
  step s l s' h hst := by
    obtain ⟨hkeyed, hst⟩ := hst
    refine ⟨(authorizing_inv H ttl (by omega)).step s l s' h.base hst, fun c call' hcall' => ?_,
      fun c call' t e hcall' hins hlate => ?_⟩
    · rcases authStep_request hst hcall' with ⟨call, hcall, hsame⟩ | rfl
      · rw [hsame]
        exact h.keyed c call hcall
      · exact hkeyed
    · rcases authStep_inserted hst h.base hcall' hins with ⟨call, hcall, hold⟩ | ⟨-, hmem, hexpires⟩
      · have hclock := authStep_clock hst
        obtain ⟨e₁, he₁, hkey, hexpires⟩ := h.kept c call t e hcall hold (by omega)
        obtain ⟨e₂, he₂, hkey₂, hcase⟩ := authStep_entries hst (h.room hK) he₁ (by omega)
        refine ⟨e₂, he₂, hkey₂.trans hkey, ?_⟩
        rcases hcase with rfl | hnew
        · exact hexpires
        · have hle := (h.base.recorded c call t e hcall hold).1
          rw [hnew, h.base.settings.1]
          omega
      · exact ⟨e, hmem, rfl, hexpires.ge⟩

/-- **A decision is remembered until it expires.** Where the requests have fewer keys than the cache has
room for, and calls run in any number and interleaving and are dropped anywhere: once a call has inserted
a decision, every lookup of its key in the next `ttl` ends its call with an identity, without a request
to Forgejo and without a change of the cache. -/
theorem authorization_remembered (H : Hashes) (ttl capacity : Nat) (K : Finset (BitVec 256))
    (hK : K.card < capacity) (s : AuthState ι)
    (hr : ((authorizing H ttl capacity).guard (Keyed H K)).Reachable s) (c d : ι) (call asking : AuthCall)
    (t : Nat) (e : CachedForgejoIdentity) (hcall : s.calls c = some call)
    (hins : call.inserted = some (t, e)) (hlate : s.clock < t + ttl) (hasking : s.calls d = some asking)
    (hphase : asking.phase = .lookup) (hkey : asking.request.key H = call.request.key H) :
    ∃ s' identity, authStep H s (.lookup d) = some s' ∧ s'.cache = s.cache ∧
      s'.calls = Function.update s.calls d
        (some { asking with phase := .returned s.clock (.ok identity) }) ∧
      identity.authorization = asking.request.authorization := by
  have h := (rememberInv_inductive hK).reachable hr
  obtain ⟨e', he', hkey', hexpires⟩ := h.kept c call t e hcall hins hlate
  have hek : e'.key = asking.request.key H := by
    rw [hkey', (h.base.recorded c call t e hcall hins).2.1, hkey]
  have hfind := ForgejoAuthorizationCache.lookup_finds he' hek (lt_of_lt_of_le hlate hexpires)
  refine ⟨s.lookUp H d asking, ⟨asking.request.authorization, e'.subject, e'.administrator⟩,
    ?_, ?_, ?_, rfl⟩
  · simp only [authStep, hasking, if_pos hphase]
  · unfold AuthState.lookUp
    rw [hfind]
    rfl
  · unfold AuthState.lookUp
    rw [hfind]
    rfl

end System

namespace Sample

/-- What is kept of a call that Forgejo has granted its request. -/
def grantedCall (expiresAt : Nat) : AuthCall :=
  ⟨plainRequest, .returned 0 (.ok granted), some (.response 200 (some "alice".toList)),
    some (.response 200 (some ⟨true, false, false⟩)),
    some (0, ⟨plainRequest.key keyHashes, "alice".toList, false, expiresAt⟩)⟩

/-- A request with another key. -/
def otherRequest : AuthRequest := { plainRequest with repository := "p".toList }

/-- Two calls for one key insert after each other, and there is no room for a third entry. -/
def insertedTwice : List (AuthLabel (Fin 4)) :=
  [.call 0 plainRequest, .lookup 0, .user 0 (.response 200 (some "alice".toList)),
    .repository 0 (.response 200 (some ⟨true, false, false⟩)), .insert 0 none,
    .call 1 otherRequest, .lookup 1, .call 2 otherRequest, .lookup 2,
    .user 1 (.response 200 (some "alice".toList)), .user 2 (.response 200 (some "alice".toList)),
    .repository 1 (.response 200 (some ⟨true, false, false⟩)),
    .repository 2 (.response 200 (some ⟨true, false, false⟩)), .insert 1 none,
    .insert 2 (some (plainRequest.key keyHashes)), .call 3 plainRequest, .lookup 3]

end Sample

open Sample in
/-- The second of two calls finds the decision of the first three ticks later. -/
theorem authorization_remembered_hit : ∃ s : AuthState Bool,
    ((authorizing keyHashes 10 2).guard (Keyed keyHashes {plainRequest.key keyHashes})).Reachable s ∧
      ∃ s' identity, authStep keyHashes s (.lookup true) = some s' ∧ s'.cache = s.cache ∧
        s'.calls = Function.update s.calls true
          (some ⟨plainRequest, .returned s.clock (.ok identity), none, none, none⟩) ∧
        identity.authorization = plainRequest.authorization := by
  obtain ⟨s, hs, hclock, hfalse, htrue⟩ : ∃ s : AuthState Bool,
      ((authorizing keyHashes 10 2).guard (Keyed keyHashes {plainRequest.key keyHashes})).Reachable s ∧
        s.clock = 3 ∧ s.calls false = some (grantedCall 10) ∧
          s.calls true = some ⟨plainRequest, .lookup, none, none, none⟩ :=
    LTS.exists_reachable_of_execGuard hitAfterMiss.dropLast (s := ⟨⟨.empty, 10, 2⟩, 0, fun _ => none⟩)
      ⟨rfl, fun _ => rfl⟩ (by decide +kernel)
  exact ⟨s, hs, authorization_remembered keyHashes 10 2 {plainRequest.key keyHashes} (by decide) s hs
    false true _ _ 0 _ hfalse rfl (by omega) htrue rfl rfl⟩

open Sample in
/-- With as many keys as room, a decision may be gone at once: its key is looked up in vain. -/
theorem authorization_forgotten : ∃ s : AuthState (Fin 4), (authorizing keyHashes 10 2).Reachable s ∧
    s.clock = 0 ∧ s.calls 0 = some (grantedCall 10) ∧
      s.calls 3 = some ⟨plainRequest, .awaitUser, none, none, none⟩ :=
  LTS.exists_reachable_of_exec insertedTwice (s := ⟨⟨.empty, 10, 2⟩, 0, fun _ => none⟩)
    ⟨rfl, fun _ => rfl⟩ (by decide +kernel)

end GitLfsDelta
