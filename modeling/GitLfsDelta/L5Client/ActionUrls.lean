import GitLfsDelta.L3Server.AuthorizationKeys
import GitLfsDelta.L3Server.Routes
import GitLfsDelta.L4System.LockPaths
import GitLfsDelta.L5Client.Backend

/-!
# The URLs of an action (`git-lfs-delta-client/src/backend.rs`)

A batch answer carries one URL for each object. Git LFS and the client send their requests to it
and to URLs the client derives from it (`child_url`); the server has to find its own handlers
behind them again. What a proxy in front of the server takes from a path is the base URL's path.

The URL library's parser is a parameter: what it is relied on for is that it reads back a URL
made of the base URL's parts and of segments it has escaped itself.

* `actions_routed`: every request that goes out for an action reaches the handler it is meant for,
  with the owner, the repository, the object id, the upload id and the index it was made for, iff
  both names are path segments as they are. (An empty owner is lost at a base URL without a path,
  and every name at one with the path `//`.)
-/
namespace GitLfsDelta

/-! ## The client's side -/

def Url.text (u : Url) : Text := u.origin ++ u.path.text ++ u.query.elim [] ('?' :: ·)

section Client

variable (parse : Text → Except String (Option Url)) (set : EscapeSet)

/-- Where a request goes that is derived from an action; a parsed URL may have no path of segments.
mirrors crates/git-lfs-delta-client/src/backend.rs:445-452 -/
def childUrl (base : Text) (children : List Text) : Except BackendError Target :=
  match parse base with
  | .error e => .error (failure s!"invalid action URL: {e}")
  | .ok none => .error (failure "action URL cannot contain path segments")
  | .ok (some url) => .ok ⟨url.origin, UrlPath.textOf (url.path.extend set children), url.query⟩

end Client

/-- What is requested for an action: the first two by Git LFS itself.
mirrors crates/git-lfs-delta-client/src/backend.rs:61, 99, 157, 232-235, 360 -/
inductive ActionRequest
  | uploadBasic
  | downloadBasic
  | begin
  | upload (uploadId : Uuid) (index : UInt32)
  | finalize (uploadId : Uuid)
  | manifest
  | chunk (index : UInt64)
  deriving DecidableEq

namespace ActionRequest

def operation : ActionRequest → Operation
  | .uploadBasic | .begin | .upload .. | .finalize _ => .upload
  | .downloadBasic | .manifest | .chunk _ => .download

def transfer : ActionRequest → TransferKind
  | .uploadBasic | .downloadBasic => .basic
  | .begin | .upload .. | .finalize _ | .manifest | .chunk _ => .cdc

def method : ActionRequest → Method
  | .uploadBasic | .upload .. => .put
  | .begin | .finalize _ => .post
  | .downloadBasic | .manifest | .chunk _ => .get

/-- The children of the action's URL that the request goes to. -/
def children : ActionRequest → List Text
  | .uploadBasic | .downloadBasic | .begin | .manifest => []
  | .upload uploadId index => [uuidText uploadId, "chunks".toList, Nat.toDigits 10 index.toNat]
  | .finalize uploadId => [uuidText uploadId, "finalize".toList]
  | .chunk index => ["chunks".toList, Nat.toDigits 10 index.toNat]

/-- The handler it is meant for. -/
def endpoint (oid : Text) : ActionRequest → Endpoint
  | .uploadBasic => .uploadBasic oid
  | .downloadBasic => .downloadBasic oid
  | .begin => .beginCdc oid
  | .upload uploadId index => .uploadCdcChunk oid uploadId index.toNat
  | .finalize uploadId => .finalizeCdc oid uploadId
  | .manifest => .downloadCdcManifest oid
  | .chunk index => .downloadCdcChunk oid index.toNat

end ActionRequest

/-! ## The way to the server -/

/-- The segments of a path's text. -/
def pathSegments (path : Text) : List Text := (splitAt '/' path).tail

/-- A request at the server, the base URL's path taken away. -/
def arrives (base : Url) (method : Method) (target : Target) : Receipt :=
  match base.path.front.isPrefixOf? (pathSegments target.path) with
  | none => .rejected 404
  | some path => receive method path

theorem joinPath_cons (t : Text) (segments : List Text) :
    joinPath (t :: segments) = t ++ UrlPath.textOf segments := by
  induction segments generalizing t with
  | nil => simp [joinPath, UrlPath.textOf]
  | cons s rest ih =>
    have hjoin : joinPath (t :: s :: rest) = t ++ '/' :: joinPath (s :: rest) := by
      simp [joinPath, List.intercalate]
    rw [hjoin, ih]
    simp [UrlPath.textOf]

theorem pathSegments_textOf {segments : List Text} (h : ∀ s ∈ segments, '/' ∉ s) :
    pathSegments (UrlPath.textOf segments) = segments := by
  have hjoin : UrlPath.textOf segments = joinPath ([] :: segments) := by rw [joinPath_cons]; rfl
  unfold pathSegments
  rw [hjoin, splitAt_joinPath (by simp) (by simpa using h)]
  rfl

section Action

variable {parse : Text → Except String (Option Url)} {set : EscapeSet} {base : Url}

/-- A URL made of the base URL's parts and of escaped segments. -/
structure Kin (set : EscapeSet) (base url : Url) : Prop where
  origin : url.origin = base.origin
  query : url.query = base.query
  segments : ∀ s ∈ url.path.segments, s ∈ base.path.segments ∨ ∃ t, s = set.encode t

/-- What `action_url` writes down is a URL: the base's path and what was added. -/
theorem site_url (set : EscapeSet) (base : Url) (added : List Text)
    (hne : UrlPath.extendSegments set (UrlPath.popIfEmpty base.path.segments) added ≠ []) : ∃ url : Url,
      base.site set added = some url.text ∧ Kin set base url ∧
        url.path.segments = UrlPath.extendSegments set (UrlPath.popIfEmpty base.path.segments) added := by
  have hpop : ∀ {s : Text}, s ∈ UrlPath.popIfEmpty base.path.segments → s ∈ base.path.segments := by
    intro s hs
    unfold UrlPath.popIfEmpty at hs
    split at hs
    · exact List.dropLast_subset _ hs
    · exact hs
  have hkin : ∀ s ∈ UrlPath.extendSegments set (UrlPath.popIfEmpty base.path.segments) added,
      s ∈ base.path.segments ∨ ∃ t, ¬ DotSegment t ∧ s = set.encode t :=
    fun s hs => (UrlPath.mem_extendSegments hs).imp_left hpop
  refine ⟨⟨base.origin, ⟨_, hne, ?_, ?_⟩, base.query⟩, rfl, ⟨rfl, rfl, ?_⟩, rfl⟩
  · intro s hs
    rcases hkin s hs with hs | ⟨t, -, rfl⟩
    · exact base.path.plain s hs
    · exact set.slash_encode t
  · intro s hs
    rcases hkin s hs with hs | ⟨t, hdot, rfl⟩
    · exact base.path.normal s hs
    · exact mt set.encode_dots.1 hdot
  · intro s hs
    exact (hkin s hs).imp_right fun ⟨t, _, ht⟩ => ⟨t, ht⟩

/-- A child of such a URL. -/
theorem child_segments {url : Url} {children : List Text} (hchildren : ∀ s ∈ children, PlainName s)
    (hlong : url.path.segments ≠ [[]]) (hparse : parse url.text = .ok (some url)) :
    ∃ target, childUrl parse set url.text children = .ok target ∧
      target.origin = url.origin ∧ target.query = url.query ∧
      pathSegments target.path = url.path.segments ++ children.map set.encode := by
  refine ⟨⟨url.origin, UrlPath.textOf (url.path.extend set children), url.query⟩, ?_, rfl, rfl, ?_⟩
  · unfold childUrl
    rw [hparse]
  · have hextend : url.path.extend set children = url.path.segments ++ children.map set.encode :=
      UrlPath.extendSegments_append hlong url.path.nonempty hchildren
    simp only
    rw [hextend, pathSegments_textOf]
    intro s hs
    rcases List.mem_append.1 hs with hs | hs
    · exact url.path.plain s hs
    · obtain ⟨t, -, rfl⟩ := List.mem_map.1 hs
      exact set.slash_encode t

/-! ## Requests for an action -/

/-- The segments `action_url` appends. -/
def actionSegments (owner repository : Text) (oid : ObjectOid) (transfer : TransferKind) : List Text :=
  [owner, repository, "info".toList, "lfs".toList, "objects".toList, oid.toText] ++
    if transfer = .cdc then ["cdc".toList] else []

theorem actionUrl_eq (site : Site) (owner repository : Text) (oid : ObjectOid) (transfer : TransferKind) :
    actionUrl site owner repository oid transfer =
      (site (actionSegments owner repository oid transfer)).elim (.error ⟨500, "invalid base URL"⟩) .ok := by
  unfold actionUrl actionSegments
  cases transfer with
  | basic => cases h : site [owner, repository, "info".toList, "lfs".toList, "objects".toList, oid.toText] <;>
      simp_all [ObjectOid.toText]
  | cdc => cases h : site [owner, repository, "info".toList, "lfs".toList, "objects".toList, oid.toText,
      "cdc".toList] <;> simp_all [ObjectOid.toText]

theorem not_dot_of_length {s : Text} (h : 2 < s.length) : ¬ DotSegment s := by
  rintro (rfl | rfl) <;> simp at h

theorem length_oidText (oid : ObjectOid) : oid.toText.length = 64 := by
  rw [ObjectOid.toText_eq, length_hexDigits]

theorem HexDigit.not_ignored {c : Char} (h : HexDigit c) : ¬ Ignored c := by
  rintro (rfl | rfl | rfl) <;> exact absurd h (by unfold HexDigit; decide)

theorem oidText_plain (oid : ObjectOid) : PlainName oid.toText := by
  refine ⟨not_dot_of_length (by rw [length_oidText]; decide), fun c hc => ?_⟩
  rw [ObjectOid.toText_eq] at hc
  exact (hexDigit_mem_hexDigits c hc).not_ignored

theorem uuidText_plain (u : Uuid) : PlainName (uuidText u) := by
  refine ⟨not_dot_of_length (by rw [length_uuidText]; decide), fun c hc => ?_⟩
  by_cases hdash : c = '-'
  · subst hdash
    decide
  · have hdigit : c ∈ (uuidText u).filter (· ≠ '-') := List.mem_filter.2 ⟨hc, by simpa using hdash⟩
    rw [uuidText_digits] at hdigit
    exact (hexDigit_mem_hexDigits c hdigit).not_ignored

theorem digits_plain (n : Nat) : PlainName (Nat.toDigits 10 n) := by
  have hdigit : ∀ {c : Char}, c ∈ Nat.toDigits 10 n → c.isDigit = true := fun hc =>
    Nat.isDigit_of_mem_toDigits (by decide) (by decide) hc
  constructor
  · intro h
    have hdot : '.' ∈ Nat.toDigits 10 n := by rcases h with h | h <;> simp [h]
    exact absurd (hdigit hdot) (by decide)
  · rintro c hc (rfl | rfl | rfl) <;> exact absurd (hdigit hc) (by decide)

theorem children_plain (q : ActionRequest) : ∀ s ∈ q.children, PlainName s := by
  cases q <;> simp only [ActionRequest.children, List.forall_mem_cons, List.not_mem_nil, false_implies,
    implies_true, and_true, uuidText_plain, digits_plain, true_and] <;> decide

/-- What stands behind the names in an action's path. -/
def objectSegments (oid : ObjectOid) (transfer : TransferKind) : List Text :=
  "lfs".toList :: "objects".toList :: oid.toText :: if transfer = .cdc then ["cdc".toList] else []

theorem objectSegments_plain (oid : ObjectOid) (transfer : TransferKind) :
    ∀ s ∈ objectSegments oid transfer, PlainName s := by
  have hlfs : PlainName "lfs".toList := by decide
  have hobjects : PlainName "objects".toList := by decide
  have hcdc : PlainName "cdc".toList := by decide
  unfold objectSegments
  simp only [List.forall_mem_cons]
  refine ⟨hlfs, hobjects, oidText_plain oid, fun s hs => ?_⟩
  split at hs
  · rwa [List.mem_singleton.1 hs]
  · cases hs

theorem endpoint_addressable (oid : ObjectOid) (q : ActionRequest) : (q.endpoint oid.toText).Addressable := by
  have hlength := length_oidText oid
  have hne : oid.toText ≠ [] := by
    intro h
    simp [h] at hlength
  have hbatch : oid.toText ≠ "batch".toList := by
    intro h
    rw [h] at hlength
    exact absurd hlength (by decide)
  cases q with
  | uploadBasic | downloadBasic => exact ⟨hne, hbatch⟩
  | begin | finalize | manifest => trivial
  | upload uploadId index =>
    have hlt := index.toNat_lt
    exact lt_trans hlt (by decide)
  | chunk index => exact index.toNat_lt

/-! ## The names -/

/-- What an action's path has before `info`: the base path and the names as they were pushed. -/
def namesPath (set : EscapeSet) (base : UrlPath) (owner repository : Text) : List Text :=
  UrlPath.begun (UrlPath.pushSegment set (UrlPath.pushSegment set (UrlPath.popIfEmpty base.segments) owner)
    repository)

theorem action_segments (set : EscapeSet) (base : UrlPath) (owner repository : Text) (oid : ObjectOid)
    (transfer : TransferKind) : UrlPath.extendSegments set (UrlPath.popIfEmpty base.segments)
        (actionSegments owner repository oid transfer) =
      namesPath set base owner repository ++
        ("info".toList :: objectSegments oid transfer).map set.encode := by
  have hsegments : actionSegments owner repository oid transfer =
      owner :: repository :: "info".toList :: objectSegments oid transfer := rfl
  have hinfo : PlainName "info".toList := by decide
  rw [hsegments, namesPath, ← UrlPath.extendSegments_begun hinfo (by decide) (objectSegments_plain oid transfer)]
  unfold UrlPath.extendSegments
  rw [List.foldl_cons, List.foldl_cons]

theorem namesPath_plain {base : UrlPath} {owner repository : Text} (ho : PlainName owner)
    (hr : PlainName repository) (hne : ¬ (base.IsRoot ∧ owner = [])) (hslash : base.segments ≠ [[], []]) :
    namesPath set base owner repository = base.front ++ [set.encode owner] ++ [set.encode repository] := by
  have hfirst : UrlPath.begun (base.front ++ [set.encode owner]) = base.front ++ [set.encode owner] := by
    rw [UrlPath.begun_concat, UrlPath.front_eq_nil, set.encode_eq_nil]
    exact ⟨rfl, rfl, hne⟩
  rw [namesPath, UrlPath.pushSegment_plain ho, UrlPath.begun_popIfEmpty.2 hslash,
    UrlPath.pushSegment_plain hr, hfirst, UrlPath.begun_concat]
  simp

/-- **The names can be read where the router looks for them** only if they are path segments as
they are, and the owner has a place of its own. -/
theorem namesPath_back {base : UrlPath} {owner repository a b : Text}
    (hnames : namesPath set base owner repository = base.front ++ [a] ++ [b])
    (ha : percentDecode a = some owner) (hb : percentDecode b = some repository) :
    PlainName owner ∧ PlainName repository ∧ ¬ (base.IsRoot ∧ owner = []) ∧ base.segments ≠ [[], []] := by
  have hbase := base.length_popIfEmpty
  have howner := UrlPath.pushSegment_length set (UrlPath.popIfEmpty base.segments) owner
  obtain ⟨hr, hback, -⟩ := UrlPath.pushSegment_back hnames hb (by
    rw [List.length_append, List.length_singleton]
    omega)
  obtain ⟨ho, hfront, hne⟩ := UrlPath.pushSegment_back hback ha hbase
  rw [UrlPath.front_eq_nil] at hne
  exact ⟨ho, hr, hne, UrlPath.begun_popIfEmpty.1 hfront⟩

/-- With the names where they belong the path is the address of the request's handler. -/
theorem receive_names (set : EscapeSet) {owner repository : Text} (oid : ObjectOid) (q : ActionRequest)
    {target : Target}
    (htarget : pathSegments target.path = namesPath set base.path owner repository ++
      ("info".toList :: "lfs".toList :: (q.endpoint oid.toText).segments).map set.encode) :
    arrives base q.method target = .call owner repository (q.endpoint oid.toText) ↔
      PlainName owner ∧ PlainName repository ∧ ¬ (base.path.IsRoot ∧ owner = []) ∧
        base.path.segments ≠ [[], []] := by
  have hbelow : (q.endpoint oid.toText).segments.length = (q.endpoint oid.toText).route.below.length := by
    cases q <;> rfl
  unfold arrives
  rw [htarget]
  constructor
  · intro h
    split at h
    · cases h
    · rename_i path hpath
      obtain ⟨a, b, rest, rfl, hlength, ha, hb⟩ := receive_named h
      rw [List.isPrefixOf?_eq_some_iff_append_eq] at hpath
      have hwhole : base.path.front ++ [a] ++ [b] ++ "info".toList :: "lfs".toList :: rest =
          namesPath set base.path owner repository ++
            ("info".toList :: "lfs".toList :: (q.endpoint oid.toText).segments).map set.encode := by
        rw [← hpath]
        simp
      -- the router's pattern is as long as what was appended, so the names are what is before it
      have hnames := List.append_inj_left' hwhole (by simp [hlength, hbelow])
      exact namesPath_back hnames.symm ha hb
  · rintro ⟨ho, hr, hne, hslash⟩
    have hmethod : q.method = (q.endpoint oid.toText).method := by cases q <;> rfl
    have haddress : base.path.front.isPrefixOf? (namesPath set base.path owner repository ++
        ("info".toList :: "lfs".toList :: (q.endpoint oid.toText).segments).map set.encode) =
          some (address set owner repository (q.endpoint oid.toText)) := by
      rw [List.isPrefixOf?_eq_some_iff_append_eq, namesPath_plain ho hr hne hslash]
      simp [address]
    rw [haddress, hmethod]
    exact receive_address set (endpoint_addressable oid q)

/-- **Requests for an action reach their handlers.** Let a batch answer offer an action for an
object. Every request that this action's transfer makes to its URL, or to the URL it derives from
it, goes to the base URL's origin; behind the base URL's path it is routed to the handler it is
meant for, with the names, the object id, the upload id and the index it was made for, iff both
names are path segments as they are, and the owner has a place of its own. -/
theorem actions_routed (hparse : ∀ url, Kin set base url → parse url.text = .ok (some url)) {b : Batch}
    {present : Bool} {object : BatchObject} {answer : BatchObjectResponse}
    (hanswer : batchObject (base.site set) b present object = .ok answer)
    {operation : Operation} {action : LfsAction} (haction : answer.action = some (operation, action))
    (q : ActionRequest) (hq : q.transfer = b.transfer) :
    ∃ target, childUrl parse set action.href q.children = .ok target ∧
      target.origin = base.origin ∧ target.query = base.query ∧
      (arrives base q.method target = .call b.owner b.repository (q.endpoint object.oid.toText) ↔
        PlainName b.owner ∧ PlainName b.repository ∧ ¬ (base.path.IsRoot ∧ b.owner = []) ∧
          base.path.segments ≠ [[], []]) := by
  have hsegments := action_segments set base.path b.owner b.repository object.oid b.transfer
  have hlong : UrlPath.extendSegments set (UrlPath.popIfEmpty base.path.segments)
      (actionSegments b.owner b.repository object.oid b.transfer) ≠ [[]] := by
    intro e
    rw [hsegments] at e
    have hlength := congrArg List.length e
    simp [objectSegments] at hlength
    omega
  obtain ⟨url, hsite, hkin, hurl⟩ := site_url set base
    (actionSegments b.owner b.repository object.oid b.transfer) (by rw [hsegments]; simp)
  have hhref : action.href = url.text := by
    have htext : actionUrl (base.site set) b.owner b.repository object.oid b.transfer = .ok url.text := by
      rw [actionUrl_eq, hsite]
      rfl
    unfold batchObject at hanswer
    rw [htext] at hanswer
    split at hanswer <;> cases hanswer <;> cases haction <;> rfl
  obtain ⟨target, hchild, horigin, hquery, hpath⟩ :=
    child_segments (children_plain q) (by rw [hurl]; exact hlong) (hparse url hkin)
  rw [← hhref] at hchild
  refine ⟨target, hchild, horigin.trans hkin.origin, hquery.trans hkin.query,
    receive_names set object.oid q ?_⟩
  rw [hpath, hurl, hsegments, List.append_assoc, ← List.map_append, ← hq]
  congr 2
  cases q <;> rfl

end Action

/-! ## A URL library -/

namespace Sample

/-- A parser for the URLs of one host. -/
def parseAt (origin : Text) (t : Text) : Except String (Option Url) :=
  match dropBeginning origin t with
  | none => .error "relative URL without a base"
  | some path =>
    let segments := pathSegments path
    if h : segments ≠ [] ∧ (∀ s ∈ segments, '/' ∉ s) ∧ ∀ s ∈ segments, ¬ DotSegment s then
      .ok (some ⟨origin, ⟨segments, h.1, h.2.1, h.2.2⟩, none⟩)
    else .error "relative URL without a base"

theorem parseAt_text {url : Url} (hquery : url.query = none) : parseAt url.origin url.text = .ok (some url) := by
  obtain ⟨origin, path, query⟩ := url
  obtain rfl : query = none := hquery
  have htext : Url.text ⟨origin, path, none⟩ = origin ++ UrlPath.textOf path.segments := by
    simp [Url.text, UrlPath.text]
  unfold parseAt
  rw [htext, dropBeginning_some.2 rfl]
  simp only [pathSegments_textOf path.plain]
  rw [dif_pos ⟨path.nonempty, path.plain, path.normal⟩]

def uploadBatch : Batch :=
  ⟨"my team".toList, "assets".toList, ⟨"Bearer t".toList, "git-lfs".toList, false⟩, .upload, .cdc⟩

end Sample

open Sample in
/-- The first chunk of an upload to `https://forge.example/git`. -/
theorem actions_routed_chunk : ∃ answer action target,
    batchObject ((forge gitPath).site pathSegmentSet) uploadBatch false ⟨⟨0⟩, 1⟩ = .ok answer ∧
      answer.action = some (.upload, action) ∧
      childUrl (parseAt "https://forge.example".toList) pathSegmentSet action.href
        [uuidText 7, "chunks".toList, "0".toList] = .ok target ∧
      arrives (forge gitPath) .put target =
        .call "my team".toList "assets".toList (.uploadCdcChunk (⟨0⟩ : ObjectOid).toText 7 0) := by
  have hparse : ∀ url, Kin pathSegmentSet (forge gitPath) url →
      parseAt "https://forge.example".toList url.text = .ok (some url) := by
    intro url hkin
    have horigin : url.origin = "https://forge.example".toList := hkin.origin
    rw [← horigin]
    exact parseAt_text hkin.query
  have hanswer : batchObject ((forge gitPath).site pathSegmentSet) uploadBatch false ⟨⟨0⟩, 1⟩ = .ok _ := rfl
  obtain ⟨target, hchild, -, -, harrives⟩ := actions_routed hparse hanswer rfl (.upload 7 0) rfl
  exact ⟨_, _, target, hanswer, rfl, hchild, harrives.2 (by decide)⟩

end GitLfsDelta
