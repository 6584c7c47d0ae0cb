import GitLfsDelta.Core.Text
import GitLfsDelta.L1Data.ChunkStream
import GitLfsDelta.L2Storage.ChunkStore

/-!
# The chunk store over provider paths (`git-lfs-delta-storage/src/lib.rs`)

An object-store provider holds bytes under path names; `ChunkStore` is a client of it that
names a chunk by its repository and its digest. The operations here are those of `ChunkStore`
on such a provider, with the result and the provider they leave.

* `chunkPath_injective`: distinct chunks have distinct paths, so what the provider holds under
  chunk paths is a `Store`, and the operations are the ones on that store (`view_putVerified`,
  `view_getVerified`, `view_holds`, `view_delete`).
* `readsBack_iff`: when a successful write can be read back.
-/
namespace GitLfsDelta

/-! ## Paths -/

/-- A lower-case hexadecimal digit. -/
def hexDigit (n : Nat) : Char := if n < 10 then Char.ofNat (48 + n) else Char.ofNat (87 + n)

/-- The last `width` hexadecimal digits of a number. -/
def hexDigits (width n : Nat) : Text :=
  (List.range width).map fun i => hexDigit (n / 16 ^ (width - 1 - i) % 16)

/-- `Uuid::fmt`: 32 digits in groups of 8, 4, 4, 4 and 12. -/
def uuidText (u : Uuid) : Text :=
  let digits := hexDigits 32 u.toNat
  digits.take 8 ++ '-' :: ((digits.drop 8).take 4 ++ '-' :: ((digits.drop 12).take 4 ++
    '-' :: ((digits.drop 16).take 4 ++ '-' :: digits.drop 20)))

/-- mirrors crates/git-lfs-delta-storage/src/lib.rs:173-179 -/
def chunkPath (r : Uuid) (c : ChunkId) : Text :=
  let digest := hexDigits 64 c.digest.toNat
  "repositories/".toList ++ (uuidText r ++ ("/chunks/".toList ++ (digest.take 2 ++ '/' :: digest)))

theorem hexEncode_eq (d : BitVec 256) : hexEncode d = String.ofList (hexDigits 64 d.toNat) := rfl

theorem hexDigit_injective : ∀ a < 16, ∀ b < 16, hexDigit a = hexDigit b → a = b := by decide

theorem length_hexDigits (width n : Nat) : (hexDigits width n).length = width := by
  simp [hexDigits]

/-- A number below `16 ^ width` is determined by that many digits. -/
theorem eq_of_digits : ∀ (width : Nat) {n m : Nat}, n < 16 ^ width → m < 16 ^ width →
    (∀ k < width, n / 16 ^ k % 16 = m / 16 ^ k % 16) → n = m := by
  intro width
  induction width with
  | zero =>
    intro n m hn hm _
    omega
  | succ width ih =>
    intro n m hn hm h
    have hlast : n % 16 = m % 16 := by simpa using h 0 (Nat.zero_lt_succ width)
    have hrest : n / 16 = m / 16 := by
      apply ih
      · rw [Nat.pow_succ] at hn
        omega
      · rw [Nat.pow_succ] at hm
        omega
      · intro k hk
        have := h (k + 1) (by omega)
        rwa [Nat.pow_succ', ← Nat.div_div_eq_div_mul, ← Nat.div_div_eq_div_mul] at this
    omega

theorem hexDigits_injective {width n m : Nat} (hn : n < 16 ^ width) (hm : m < 16 ^ width)
    (h : hexDigits width n = hexDigits width m) : n = m := by
  apply eq_of_digits width hn hm
  intro k hk
  have hget := congrArg (fun t : Text => t[width - 1 - k]?) h
  simp only [hexDigits, List.getElem?_map, List.getElem?_range (show width - 1 - k < width by omega),
    Option.map_some, Option.some.injEq] at hget
  rw [show width - 1 - (width - 1 - k) = k by omega] at hget
  exact hexDigit_injective _ (Nat.mod_lt _ (by decide)) _ (Nat.mod_lt _ (by decide)) hget

theorem length_uuidText (u : Uuid) : (uuidText u).length = 36 := by
  simp [uuidText, length_hexDigits]

/-- The groups of digits, put together again. -/
theorem regroup (t : Text) : t.take 8 ++ ((t.drop 8).take 4 ++ ((t.drop 12).take 4 ++
    ((t.drop 16).take 4 ++ t.drop 20))) = t := by
  have h : ∀ n, (t.drop n).take 4 ++ t.drop (n + 4) = t.drop n := by
    intro n
    rw [← List.drop_drop, List.take_append_drop]
  rw [h 16, h 12, h 8, List.take_append_drop]

theorem uuidText_digits (u : Uuid) : (uuidText u).filter (· ≠ '-') = hexDigits 32 u.toNat := by
  have hnone : ∀ n < 16, hexDigit n ≠ '-' := by decide
  have hself : ∀ c ∈ hexDigits 32 u.toNat, c ≠ '-' := by
    intro c hc
    obtain ⟨i, -, rfl⟩ := List.mem_map.1 hc
    exact hnone _ (Nat.mod_lt _ (by decide))
  have htake : ∀ m n, (((hexDigits 32 u.toNat).drop m).take n).filter (· ≠ '-') =
      ((hexDigits 32 u.toNat).drop m).take n := by
    intro m n
    rw [List.filter_eq_self]
    intro c hc
    simpa using hself c (List.mem_of_mem_drop (List.mem_of_mem_take hc))
  have hdrop : ((hexDigits 32 u.toNat).drop 20).filter (· ≠ '-') = (hexDigits 32 u.toNat).drop 20 := by
    rw [List.filter_eq_self]
    intro c hc
    simpa using hself c (List.mem_of_mem_drop hc)
  have hzero := htake 0 8
  rw [List.drop_zero] at hzero
  have hhyphen : ∀ t : Text, ('-' :: t).filter (· ≠ '-') = t.filter (· ≠ '-') := by
    intro t
    exact List.filter_cons_of_neg (by simp)
  simp only [uuidText, List.filter_append, hhyphen, hzero, htake, hdrop]
  exact regroup _

theorem uuidText_injective {u v : Uuid} (h : uuidText u = uuidText v) : u = v := by
  have hdigits : hexDigits 32 u.toNat = hexDigits 32 v.toNat := by
    rw [← uuidText_digits, ← uuidText_digits, h]
  apply BitVec.eq_of_toNat_eq
  exact hexDigits_injective (by simpa using u.isLt) (by simpa using v.isLt) hdigits

/-- **Distinct chunks have distinct paths.** -/
theorem chunkPath_injective {r r' : Uuid} {c c' : ChunkId} (h : chunkPath r c = chunkPath r' c') :
    r = r' ∧ c = c' := by
  obtain ⟨-, h⟩ := List.append_inj h rfl
  obtain ⟨huuid, h⟩ := List.append_inj h (by rw [length_uuidText, length_uuidText])
  obtain ⟨-, h⟩ := List.append_inj h rfl
  obtain ⟨-, h⟩ := List.append_inj h (by simp [length_hexDigits])
  have hdigest := hexDigits_injective (by simpa using c.digest.isLt) (by simpa using c'.digest.isLt)
    (List.cons.inj h).2
  exact ⟨uuidText_injective huuid, congrArg ChunkId.mk (BitVec.eq_of_toNat_eq hdigest)⟩

/-! ## Operations -/

/-- What a provider holds, by path. -/
abbrev Provider := Text → Option Bytes

/-- What `put_opts` with `PutMode::Create` answers. -/
inductive CreateOutcome
  | created | alreadyExists
  deriving DecidableEq, Repr

namespace Provider

/-- Nothing changes under a path that is taken. -/
def create (p : Provider) (path : Text) (bytes : Bytes) : CreateOutcome × Provider :=
  match p path with
  | none => (.created, fun q => if q = path then some bytes else p q)
  | some _ => (.alreadyExists, p)

/-- mirrors crates/git-lfs-delta-storage/src/lib.rs:31-51 -/
def putVerified (H : Hashes) (p : Provider) (r : Uuid) (claimed : ChunkId) (bytes : Bytes) :
    Except StorageError Unit × Provider :=
  match verifyDigest H claimed bytes with
  | .error e => (.error e, p)
  | .ok () =>
    match p.create (chunkPath r claimed) bytes with
    | (.created, p') | (.alreadyExists, p') => (.ok (), p')

/-- mirrors crates/git-lfs-delta-storage/src/lib.rs:58-73 -/
def getVerified (H : Hashes) (p : Provider) (r : Uuid) (c : ChunkId) : Except StorageError Bytes :=
  match p (chunkPath r c) with
  | none => .error .notFound
  | some bytes =>
    match verifyDigest H c bytes with
    | .error e => .error e
    | .ok () => .ok bytes

/-- `exists`.
mirrors crates/git-lfs-delta-storage/src/lib.rs:80-90 -/
def holds (p : Provider) (r : Uuid) (c : ChunkId) : Bool := (p (chunkPath r c)).isSome

/-- mirrors crates/git-lfs-delta-storage/src/lib.rs:98-107 -/
def delete (p : Provider) (r : Uuid) (c : ChunkId) : Provider :=
  fun q => if q = chunkPath r c then none else p q

/-- What the provider holds of chunks. -/
def view (p : Provider) : Store := fun r c => p (chunkPath r c)

variable {H : Hashes} {p : Provider} {r r' : Uuid} {c c' : ChunkId} {b : Bytes}

/-! ## The store it holds -/

theorem path_eq_iff : chunkPath r' c' = chunkPath r c ↔ r' = r ∧ c' = c := by
  constructor
  · exact chunkPath_injective
  · intro h
    rw [h.1, h.2]

theorem view_create : (p.create (chunkPath r c) b).2.view = p.view.create r c b := by
  funext r' c'
  simp only [view, create, Store.create]
  split
  · rename_i h
    simp [h, path_eq_iff]
  · rename_i h
    simp [h]

theorem putVerified_eq : p.putVerified H r c b =
    if H.blake3 b = c then (.ok (), (p.create (chunkPath r c) b).2)
    else (.error (.digestMismatch c (H.blake3 b)), p) := by
  unfold putVerified verifyDigest
  split
  · rename_i hv
    split at hv
    · cases hv
    · rename_i hne
      cases hv
      rw [if_neg hne]
  · rename_i hv
    split at hv
    · rename_i heq
      rw [if_pos heq]
      rcases hout : p.create (chunkPath r c) b with ⟨outcome, p'⟩
      cases outcome <;> rfl
    · cases hv

theorem view_putVerified : GitLfsDelta.putVerified H p.view r c b =
    (p.putVerified H r c b).1.map fun _ => (p.putVerified H r c b).2.view := by
  rw [putVerified_eq]
  unfold GitLfsDelta.putVerified verifyDigest
  split
  · rename_i hv
    split at hv
    · cases hv
    · rename_i hne
      cases hv
      rw [if_neg hne]
      rfl
  · rename_i hv
    split at hv
    · rename_i heq
      rw [if_pos heq]
      simp only [Except.map, view_create]
    · cases hv

theorem view_getVerified : GitLfsDelta.getVerified H p.view r c = p.getVerified H r c := rfl

theorem view_holds : chunkExists p.view r c = p.holds r c := rfl

theorem view_delete : deleteChunk p.view r c = (p.delete r c).view := by
  funext r' c'
  simp only [deleteChunk, Store.erase, view, delete, path_eq_iff]

/-! ## Reading back what was written -/

/-- What a write of `b` as chunk `c` promises: if it succeeds, the chunk is there and reads as
`b`; bytes of another identity are refused and change nothing; no other chunk is touched, by it
or by a deletion. -/
structure ReadsBack (H : Hashes) (p : Provider) (r : Uuid) (c : ChunkId) (b : Bytes) : Prop where
  readable : (p.putVerified H r c b).1 = .ok () →
    (p.putVerified H r c b).2.holds r c = true ∧ (p.putVerified H r c b).2.getVerified H r c = .ok b
  refused : H.blake3 b ≠ c → p.putVerified H r c b = (.error (.digestMismatch c (H.blake3 b)), p)
  elsewhere : ∀ r' c', (r', c') ≠ (r, c) →
    (p.putVerified H r c b).2 (chunkPath r' c') = p (chunkPath r' c') ∧
      (p.delete r c) (chunkPath r' c') = p (chunkPath r' c')

/-- The provider holds nothing else under the chunk's path. -/
def Undamaged (p : Provider) (r : Uuid) (c : ChunkId) (b : Bytes) : Prop :=
  p (chunkPath r c) = none ∨ p (chunkPath r c) = some b

theorem create_elsewhere {path : Text} (h : path ≠ chunkPath r c) :
    (p.create (chunkPath r c) b).2 path = p path := by
  unfold create
  split
  · exact if_neg h
  · rfl

/-- After a write the path holds what was there before, or else the bytes. -/
theorem create_here :
    (p.create (chunkPath r c) b).2 (chunkPath r c) = some ((p (chunkPath r c)).getD b) := by
  unfold create
  split
  · rename_i h
    simp [h]
  · rename_i h
    simp [h]

theorem getVerified_create (hb : H.blake3 b = c) :
    (p.create (chunkPath r c) b).2.getVerified H r c = .ok b ↔ p.Undamaged r c b := by
  rw [← view_getVerified, getVerified_ok, view, create_here, Undamaged]
  cases p (chunkPath r c) with
  | none => simp [hb]
  | some b' => simp [hb]

/-- **When a chunk write can be read back**: always, unless it succeeds over other bytes that
the provider already holds under the chunk's path. -/
theorem readsBack_iff (H : Hashes) (p : Provider) (r : Uuid) (c : ChunkId) (b : Bytes) :
    p.ReadsBack H r c b ↔ (H.blake3 b = c → p.Undamaged r c b) := by
  constructor
  · intro h hb
    have hok : (p.putVerified H r c b).1 = .ok () := by rw [putVerified_eq, if_pos hb]
    have hget := (h.readable hok).2
    rw [putVerified_eq, if_pos hb] at hget
    exact (getVerified_create hb).1 hget
  · intro h
    refine ⟨fun hok => ?_, fun hne => ?_, fun r' c' hne => ?_⟩
    · by_cases hb : H.blake3 b = c
      · rw [putVerified_eq, if_pos hb]
        refine ⟨?_, (getVerified_create hb).2 (h hb)⟩
        show ((p.create (chunkPath r c) b).2 (chunkPath r c)).isSome = true
        rw [create_here]
        rfl
      · rw [putVerified_eq, if_neg hb] at hok
        cases hok
    · rw [putVerified_eq, if_neg hne]
    · have hpath : chunkPath r' c' ≠ chunkPath r c := by
        intro heq
        obtain ⟨rfl, rfl⟩ := chunkPath_injective heq
        exact hne rfl
      refine ⟨?_, if_neg hpath⟩
      rw [putVerified_eq]
      split
      · exact create_elsewhere hpath
      · rfl

/-- A provider that already holds `b` under the path of the chunk `a`. -/
def damaged : Provider := fun path =>
  if path = chunkPath 0 (Sample.hashes.blake3 [0x61]) then some [0x62] else none

/-- The write of the chunk succeeds, and the chunk cannot be read. -/
theorem write_not_readable : (damaged.putVerified Sample.hashes 0 (Sample.hashes.blake3 [0x61]) [0x61]).1 =
      .ok () ∧
    ¬ damaged.ReadsBack Sample.hashes 0 (Sample.hashes.blake3 [0x61]) [0x61] := by
  constructor
  · rw [putVerified_eq, if_pos rfl]
  · intro h
    have hread := (h.readable (by rw [putVerified_eq, if_pos rfl])).2
    rw [putVerified_eq, if_pos rfl, getVerified_create rfl] at hread
    simp [Undamaged, damaged] at hread

end Provider
end GitLfsDelta
