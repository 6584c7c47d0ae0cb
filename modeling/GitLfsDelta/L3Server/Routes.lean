import GitLfsDelta.Core.Json
import GitLfsDelta.Core.Router
import GitLfsDelta.L2Storage.Provider
import GitLfsDelta.L3Server.Digests
import GitLfsDelta.L3Server.ForgejoUrls

/-!
# Routes (`git-lfs-delta-server/src/lib.rs`)

The server's routes, and what its `Path` extractors make of the segments that the parameters of a
route stand for: they are percent-decoded, have to be UTF-8, and are read as ids or indexes where
the handler says so. A path is looked up as it was sent, so a fixed segment has to stand there
unescaped; an owner and a repository may be empty.

* `parseUsize_digits`, `parseUuid_text`: an index or an id that was written is read back.
* `receive_address`: every endpoint is reached, whatever its owner and its repository are.
* `receive_named`: what a path has to be like to reach a handler of a repository.
-/
namespace GitLfsDelta

/-! ## Parameters -/

/-- `usize::from_str`. -/
def parseUsize (t : Text) : Option Nat :=
  let digits := match t with
    | '+' :: rest => rest
    | _ => t
  if digits ≠ [] ∧ digits.all Char.isDigit = true then
    let n := Nat.ofDigitChars 10 digits 0
    if n < 2 ^ 64 then some n else none
  else none

/-- `Uuid::parse_str` of 32 digits. -/
def parseSimple (t : Text) : Option Uuid :=
  if t.length = 32 then (t.mapM hexValue).map fun digits => BitVec.ofNat 128 (ofHexDigits digits)
  else none

/-- `Uuid::parse_str` of five groups of digits. -/
def parseHyphenated (t : Text) : Option Uuid :=
  if t.length = 36 ∧ [8, 13, 18, 23].all (fun i => t[i]? = some '-') = true then
    parseSimple (t.take 8 ++ ((t.drop 9).take 4 ++ ((t.drop 14).take 4 ++ ((t.drop 19).take 4 ++ t.drop 24))))
  else none

/-- `Uuid::parse_str`. -/
def parseUuid (t : Text) : Option Uuid :=
  if t.length = 32 then parseSimple t
  else if t.length = 36 then parseHyphenated t
  else if t.length = 38 ∧ t.head? = some '\x7b' ∧ t.getLast? = some '\x7d' then
    parseHyphenated (t.tail.dropLast)
  else (dropBeginning "urn:uuid:".toList t).bind parseHyphenated

/-! ## Written and read back -/

theorem parseUsize_digits {n : Nat} (h : n < 2 ^ 64) : parseUsize (Nat.toDigits 10 n) = some n := by
  obtain ⟨c, cs, hcs, hc⟩ := Json.toDigits_cons n
  have hall : (Nat.toDigits 10 n).all Char.isDigit = true :=
    List.all_eq_true.2 fun d hd => Nat.isDigit_of_mem_toDigits (by decide) (by decide) hd
  have hplus : c ≠ '+' := by
    rintro rfl
    exact absurd hc (by decide)
  have hvalue : Nat.ofDigitChars 10 (c :: cs) 0 = n := hcs ▸ Nat.ofDigitChars_ten_toDigits
  rw [hcs] at hall ⊢
  unfold parseUsize
  split
  · rename_i heq
    exact absurd (List.cons.inj heq).1 hplus
  · have hlt : n < 18446744073709551616 := h
    simp [hall, hvalue, hlt]

theorem parseSimple_digits (u : Uuid) : parseSimple (hexDigits 32 u.toNat) = some u := by
  obtain ⟨digits, hdigits, hvalue⟩ := Option.map_eq_some_iff.1 (mapM_hexDigits 32 u.toNat)
  have hlt : u.toNat < 16 ^ 32 := by simpa using u.isLt
  unfold parseSimple
  rw [if_pos (length_hexDigits 32 _), hdigits]
  simp only [Option.map_some]
  rw [hvalue, Nat.mod_eq_of_lt hlt, BitVec.ofNat_toNat, BitVec.setWidth_eq]

/-- The parser looks for the five groups where they are written. -/
theorem parseHyphenated_groups {a b c d e : Text} (ha : a.length = 8) (hb : b.length = 4)
    (hc : c.length = 4) (hd : d.length = 4) (he : e.length = 12) :
    parseHyphenated (a ++ '-' :: (b ++ '-' :: (c ++ '-' :: (d ++ '-' :: e)))) =
      parseSimple (a ++ (b ++ (c ++ (d ++ e)))) := by
  have hdrop : ∀ {t : Text} {n : Nat}, t.length ≤ n → t.drop n = [] := List.drop_of_length_le
  unfold parseHyphenated
  rw [if_pos]
  · simp [List.drop_append, ha, hb, hc, hd, hdrop]
  · simp [List.getElem?_append, ha, hb, hc, hd, he]

theorem parseUuid_text (u : Uuid) : parseUuid (uuidText u) = some u := by
  have hlength := length_uuidText u
  have hdigits := length_hexDigits 32 u.toNat
  unfold parseUuid
  rw [if_neg (by omega), if_pos hlength, uuidText, parseHyphenated_groups, regroup, parseSimple_digits]
  all_goals
    simp only [List.length_take, List.length_drop]
    omega

/-! ## Routes -/

inductive Method
  | get | post | put
  deriving DecidableEq, Repr

/-- What the router knows. -/
inductive RouteName
  | healthz | readyz | metrics | batch | object | cdc | cdcChunk | uploadChunk | finalize
  | locks | verifyLocks | unlock
  deriving DecidableEq, Repr

/-- The paths below `/{owner}/{repository}/info/lfs`. -/
def RouteName.below : RouteName → List Router.Piece :=
  let object : List Router.Piece := [.text "objects".toList, .parameter]
  let cdc : List Router.Piece := object ++ [.text "cdc".toList]
  fun
  | .healthz | .readyz | .metrics => []
  | .batch => [.text "objects".toList, .text "batch".toList]
  | .object => object
  | .cdc => cdc
  | .cdcChunk => cdc ++ [.text "chunks".toList, .parameter]
  | .uploadChunk => cdc ++ [.parameter, .text "chunks".toList, .parameter]
  | .finalize => cdc ++ [.parameter, .text "finalize".toList]
  | .locks => [.text "locks".toList]
  | .verifyLocks => [.text "locks".toList, .text "verify".toList]
  | .unlock => [.text "locks".toList, .parameter, .text "unlock".toList]

def RouteName.pattern : RouteName → List Router.Piece
  | .healthz => [.text "healthz".toList]
  | .readyz => [.text "readyz".toList]
  | .metrics => [.text "metrics".toList]
  | route => .parameter :: .parameter :: .text "info".toList :: .text "lfs".toList :: route.below

/-- mirrors crates/git-lfs-delta-server/src/lib.rs:454-486 -/
def router : Router.Routes RouteName :=
  [RouteName.healthz, .readyz, .metrics, .batch, .object, .cdc, .cdcChunk, .uploadChunk, .finalize,
    .locks, .verifyLocks, .unlock].map fun route => (route.pattern, route)

/-- The handlers of a repository, with the parameters they read besides its names. -/
inductive Endpoint
  | batch
  | uploadBasic (oid : Text)
  | downloadBasic (oid : Text)
  | beginCdc (oid : Text)
  | downloadCdcManifest (oid : Text)
  | downloadCdcChunk (oid : Text) (index : Nat)
  | uploadCdcChunk (oid : Text) (u : Uuid) (index : Nat)
  | finalizeCdc (oid : Text) (u : Uuid)
  | createLock
  | listLocks
  | verifyLocks
  | unlock (lockId : Uuid)
  deriving DecidableEq, Repr

/-- The handler of a route, and how it reads the parameters behind the names.
mirrors crates/git-lfs-delta-server/src/lib.rs:454-486 and the `Path` arguments of the handlers -/
def RouteName.handler : RouteName → Method → Option (List Text → Option Endpoint)
  | .batch, .post => some fun _ => some .batch
  | .object, .put => some fun | [oid] => some (.uploadBasic oid) | _ => none
  | .object, .get => some fun | [oid] => some (.downloadBasic oid) | _ => none
  | .cdc, .post => some fun | [oid] => some (.beginCdc oid) | _ => none
  | .cdc, .get => some fun | [oid] => some (.downloadCdcManifest oid) | _ => none
  | .cdcChunk, .get => some fun
    | [oid, index] => (parseUsize index).map (.downloadCdcChunk oid)
    | _ => none
  | .uploadChunk, .put => some fun
    | [oid, u, index] => (parseUuid u).bind fun u => (parseUsize index).map (.uploadCdcChunk oid u)
    | _ => none
  | .finalize, .post => some fun | [oid, u] => (parseUuid u).map (.finalizeCdc oid) | _ => none
  | .locks, .post => some fun _ => some .createLock
  | .locks, .get => some fun _ => some .listLocks
  | .verifyLocks, .post => some fun _ => some .verifyLocks
  | .unlock, .post => some fun | [lockId] => (parseUuid lockId).map .unlock | _ => none
  | _, _ => none

/-- What becomes of a request before any handler of this server runs. -/
inductive Receipt
  | service (route : RouteName)
  | call (owner repository : Text) (endpoint : Endpoint)
  | rejected (status : Nat)
  deriving DecidableEq, Repr

/-- The service's own routes read no parameters. -/
def RouteName.IsService : RouteName → Prop
  | .healthz | .readyz | .metrics => True
  | _ => False

instance : DecidablePred RouteName.IsService
  | .healthz | .readyz | .metrics => .isTrue trivial
  | .batch | .object | .cdc | .cdcChunk | .uploadChunk | .finalize | .locks | .verifyLocks | .unlock =>
    .isFalse fun h => h

def receive (method : Method) (path : List Text) : Receipt :=
  match Router.find router path with
  | none => .rejected 404
  | some (route, raw) =>
    if route.IsService then if method = .get then .service route else .rejected 405
    else match route.handler method with
      | none => .rejected 405
      | some extract =>
        match raw.mapM percentDecode with
        | some (owner :: repository :: parameters) =>
          (extract parameters).elim (.rejected 400) (.call owner repository)
        | _ => .rejected 400

/-! ## Addresses -/

def Endpoint.method : Endpoint → Method
  | .batch | .beginCdc _ | .finalizeCdc .. | .createLock | .verifyLocks | .unlock _ => .post
  | .uploadBasic _ | .uploadCdcChunk .. => .put
  | .downloadBasic _ | .downloadCdcManifest _ | .downloadCdcChunk .. | .listLocks => .get

def Endpoint.route : Endpoint → RouteName
  | .batch => .batch
  | .uploadBasic _ | .downloadBasic _ => .object
  | .beginCdc _ | .downloadCdcManifest _ => .cdc
  | .downloadCdcChunk .. => .cdcChunk
  | .uploadCdcChunk .. => .uploadChunk
  | .finalizeCdc .. => .finalize
  | .createLock | .listLocks => .locks
  | .verifyLocks => .verifyLocks
  | .unlock _ => .unlock

/-- The parameters of an endpoint, as a path has them. -/
def Endpoint.parameters : Endpoint → List Text
  | .batch | .createLock | .listLocks | .verifyLocks => []
  | .uploadBasic oid | .downloadBasic oid | .beginCdc oid | .downloadCdcManifest oid => [oid]
  | .downloadCdcChunk oid index => [oid, Nat.toDigits 10 index]
  | .uploadCdcChunk oid u index => [oid, uuidText u, Nat.toDigits 10 index]
  | .finalizeCdc oid u => [oid, uuidText u]
  | .unlock lockId => [uuidText lockId]

/-- The path below `info/lfs`. -/
def Endpoint.segments : Endpoint → List Text
  | .batch => ["objects".toList, "batch".toList]
  | .uploadBasic oid | .downloadBasic oid => ["objects".toList, oid]
  | .beginCdc oid | .downloadCdcManifest oid => ["objects".toList, oid, "cdc".toList]
  | .downloadCdcChunk oid index =>
    ["objects".toList, oid, "cdc".toList, "chunks".toList, Nat.toDigits 10 index]
  | .uploadCdcChunk oid u index =>
    ["objects".toList, oid, "cdc".toList, uuidText u, "chunks".toList, Nat.toDigits 10 index]
  | .finalizeCdc oid u => ["objects".toList, oid, "cdc".toList, uuidText u, "finalize".toList]
  | .createLock | .listLocks => ["locks".toList]
  | .verifyLocks => ["locks".toList, "verify".toList]
  | .unlock lockId => ["locks".toList, uuidText lockId, "unlock".toList]

/-- A request for an endpoint, as the path's segments are written. -/
def address (set : EscapeSet) (owner repository : Text) (e : Endpoint) : List Text :=
  [owner, repository, "info".toList, "lfs".toList].map set.encode ++ e.segments.map set.encode

/-- A last parameter that is not empty and that no fixed segment takes the place of, and an index
that fits. -/
def Endpoint.Addressable : Endpoint → Prop
  | .uploadBasic oid | .downloadBasic oid => oid ≠ [] ∧ oid ≠ "batch".toList
  | .downloadCdcChunk _ index | .uploadCdcChunk _ _ index => index < 2 ^ 64
  | _ => True

section Address

variable (set : EscapeSet) {owner repository : Text} {e : Endpoint}

theorem mem_router {pattern : List Router.Piece} {route : RouteName} :
    (pattern, route) ∈ router ↔ pattern = route.pattern := by
  unfold router
  rw [List.mem_map]
  constructor
  · rintro ⟨r, -, h⟩
    cases h
    rfl
  · rintro rfl
    exact ⟨route, by cases route <;> decide, rfl⟩

/-- The fixed segments of an address are as they are. -/
theorem address_eq : address set owner repository e =
    set.encode owner :: set.encode repository :: "info".toList :: "lfs".toList :: match e with
      | .batch => ["objects".toList, "batch".toList]
      | .uploadBasic oid | .downloadBasic oid => ["objects".toList, set.encode oid]
      | .beginCdc oid | .downloadCdcManifest oid => ["objects".toList, set.encode oid, "cdc".toList]
      | .downloadCdcChunk oid index =>
        ["objects".toList, set.encode oid, "cdc".toList, "chunks".toList, set.encode (Nat.toDigits 10 index)]
      | .uploadCdcChunk oid u index =>
        ["objects".toList, set.encode oid, "cdc".toList, set.encode (uuidText u), "chunks".toList,
          set.encode (Nat.toDigits 10 index)]
      | .finalizeCdc oid u =>
        ["objects".toList, set.encode oid, "cdc".toList, set.encode (uuidText u), "finalize".toList]
      | .createLock | .listLocks => ["locks".toList]
      | .verifyLocks => ["locks".toList, "verify".toList]
      | .unlock lockId => ["locks".toList, set.encode (uuidText lockId), "unlock".toList] := by
  have hwords : ∀ w ∈ ["info", "lfs", "objects", "batch", "cdc", "chunks", "finalize", "locks", "verify",
      "unlock"], set.encode w.toList = w.toList := by
    intro w hw
    apply set.encode_word
    simp only [List.mem_cons, List.not_mem_nil, or_false] at hw
    rcases hw with rfl | rfl | rfl | rfl | rfl | rfl | rfl | rfl | rfl | rfl <;> decide
  simp only [List.forall_mem_cons] at hwords
  obtain ⟨hinfo, hlfs, hobjects, hbatch, hcdc, hchunks, hfinalize, hlocks, hverify, hunlock, -⟩ := hwords
  unfold address
  cases e <;> simp only [Endpoint.segments, List.map_cons, List.map_nil, List.cons_append, List.nil_append,
    hinfo, hlfs, hobjects, hbatch, hcdc, hchunks, hfinalize, hlocks, hverify, hunlock]

theorem digits_ne_finalize (n : Nat) : Nat.toDigits 10 n ≠ "finalize".toList := by
  intro h
  have hdigit := Nat.isDigit_of_mem_toDigits (b := 10) (n := n) (by decide) (by decide) (c := 'f')
    (by rw [h]; decide)
  exact absurd hdigit (by decide)

theorem uuidText_ne_chunks (u : Uuid) : uuidText u ≠ "chunks".toList := by
  intro h
  have hlength := length_uuidText u
  rw [h] at hlength
  exact absurd hlength (by decide)

/-- The route of an endpoint matches its address. -/
theorem captures_address (he : e.Addressable) :
    Router.captures e.route.pattern (address set owner repository e) =
      some (([owner, repository] ++ e.parameters).map set.encode) := by
  have hdigits : ∀ n, set.encode (Nat.toDigits 10 n) ≠ [] := fun n h =>
    Nat.toDigits_ne_nil (set.encode_eq_nil.1 h)
  have hoid : ∀ {oid : Text}, oid ≠ [] → set.encode oid ≠ [] := fun hne h => hne (set.encode_eq_nil.1 h)
  rw [address_eq set]
  cases e <;> simp only [Endpoint.Addressable] at he <;>
    simp [Endpoint.route, Endpoint.parameters, RouteName.pattern, RouteName.below, Router.captures, hdigits,
      hoid, he]

/-- No other does, but for the object route, which takes `batch` for an object id. -/
theorem captures_only (he : e.Addressable) {route : RouteName}
    (h : (Router.captures route.pattern (address set owner repository e)).isSome = true) :
    route = e.route ∨ e = .batch ∧ route = .object := by
  have hword : ∀ {t : Text} {w : String}, w.toList.all (fun c => decide (Unreserved c)) = true →
      t ≠ w.toList → set.encode t ≠ w.toList := by
    intro t w hw hne heq
    rw [← set.encode_word hw] at heq
    exact hne (set.encode_injective heq)
  have hbatch : ∀ {oid : Text}, oid ≠ "batch".toList → set.encode oid ≠ "batch".toList := hword (by decide)
  have hchunks : ∀ u, set.encode (uuidText u) ≠ "chunks".toList := fun u =>
    hword (by decide) (uuidText_ne_chunks u)
  have hfinalize : ∀ n, set.encode (Nat.toDigits 10 n) ≠ "finalize".toList := fun n =>
    hword (by decide) (digits_ne_finalize n)
  rw [address_eq set] at h
  cases route with
  | healthz | readyz | metrics => cases e <;> simp [RouteName.pattern, Router.captures] at h
  | batch =>
    cases e <;> simp [RouteName.pattern, RouteName.below, Router.captures] at h <;>
      simp [Endpoint.route] <;> simp_all [Endpoint.Addressable]
  | _ =>
    cases e <;> simp [RouteName.pattern, RouteName.below, Router.captures] at h <;>
      simp_all [Endpoint.route]

theorem find_address (he : e.Addressable) :
    Router.find router (address set owner repository e) =
      some (e.route, ([owner, repository] ++ e.parameters).map set.encode) := by
  refine Router.find_preferred (mem_router.2 rfl) (captures_address set he) fun p route hp hmatch => ?_
  obtain rfl := mem_router.1 hp
  rcases captures_only set he hmatch with rfl | ⟨rfl, rfl⟩
  · exact .inl ⟨rfl, rfl⟩
  · -- both begin with the names; then the text `batch` precedes the parameter
    exact .inr (.there _ (.there _ (.there _ (.there _ (.there _ (.here ..))))))

/-- **An endpoint is reached at its address**, whatever the names are. -/
theorem receive_address (he : e.Addressable) :
    receive e.method (address set owner repository e) = .call owner repository e := by
  have hdecode : ∀ l : List Text, (l.map set.encode).mapM percentDecode = some l := by
    intro l
    induction l with
    | nil => rfl
    | cons t l ih => simp [List.mapM_cons, set.percentDecode_encode, ih]
  unfold receive
  rw [find_address set he]
  simp only [hdecode]
  cases e with
  | downloadCdcChunk oid index | uploadCdcChunk oid u index =>
    have hindex := parseUsize_digits he
    simp [Endpoint.route, Endpoint.method, Endpoint.parameters, RouteName.IsService, RouteName.handler,
      parseUuid_text, hindex]
  | _ =>
    simp [Endpoint.route, Endpoint.method, Endpoint.parameters, RouteName.IsService, RouteName.handler,
      parseUuid_text]

end Address

/-- A handler is asked for its own endpoints only. -/
theorem RouteName.handler_route {route : RouteName} {method : Method}
    {extract : List Text → Option Endpoint} {parameters : List Text} {e : Endpoint}
    (h : route.handler method = some extract) (he : extract parameters = some e) : e.route = route := by
  cases route <;> cases method <;> simp only [RouteName.handler, reduceCtorEq, Option.some.injEq] at h <;>
    subst h <;> grind [Endpoint.route, Option.map_eq_some_iff, Option.bind_eq_some_iff]

/-- **What reaches a handler of a repository**: a path that names it, before `info/lfs` and what
the handler's route has behind it. -/
theorem receive_named {method : Method} {path : List Text} {owner repository : Text} {e : Endpoint}
    (h : receive method path = .call owner repository e) :
    ∃ a b rest, path = a :: b :: "info".toList :: "lfs".toList :: rest ∧
      rest.length = e.route.below.length ∧
      percentDecode a = some owner ∧ percentDecode b = some repository := by
  unfold receive at h
  split at h
  · cases h
  · rename_i route raw hfound
    obtain ⟨pattern, hmem, hmatch, -⟩ := Router.find_sound hfound
    obtain rfl := mem_router.1 hmem
    split at h
    · split at h <;> cases h
    · rename_i hservice
      split at h
      · cases h
      · rename_i extract hhandler
        split at h
        · rename_i o r parameters hdecode
          obtain ⟨rfl, rfl, hextract⟩ : o = owner ∧ r = repository ∧ extract parameters = some e := by
            cases hextracted : extract parameters with
            | none => simp [hextracted] at h
            | some e' => simpa [hextracted] using h
          have hroute := RouteName.handler_route hhandler hextract
          have hpattern : route.pattern =
              .parameter :: .parameter :: .text "info".toList :: .text "lfs".toList :: route.below := by
            cases route with
            | healthz | readyz | metrics => exact absurd trivial hservice
            | _ => rfl
          have hlength := Router.captures_length hmatch
          rw [hpattern] at hmatch hlength
          obtain ⟨a, _, _, rfl, rfl, -, hnames⟩ := Router.captures_parameter.1 hmatch
          obtain ⟨b, _, _, rfl, rfl, -, hinfo⟩ := Router.captures_parameter.1 hnames
          obtain ⟨_, rfl, hlfs⟩ := Router.captures_text.1 hinfo
          obtain ⟨rest, rfl, -⟩ := Router.captures_text.1 hlfs
          simp only [List.mapM_cons, Option.bind_eq_bind, Option.bind_eq_some_iff, Option.pure_def,
            Option.some.injEq, List.cons.injEq] at hdecode
          obtain ⟨_, hao, _, ⟨_, hbr, _, -, rfl⟩, rfl, rfl, rfl⟩ := hdecode
          refine ⟨a, b, rest, rfl, ?_, hao, hbr⟩
          simpa [hroute] using hlength
        · cases h

end GitLfsDelta
