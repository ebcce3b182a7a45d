import TeamClaude.Lib.Slices
import TeamClaude.Lib.SocketText
import TeamClaude.Provider

/-!
# Request headers

What the front of the proxy reads off a client's headers, and the headers a request goes out with: a
pooled one under an account's token, a relayed one under the client's own credential, a raw one
under none.
-/

namespace TeamClaude.FrontDoor

open Lib

/-- A header value, as text where `to_str` can read it. -/
inductive HeaderValue
  | text (value : String)
  | octets (value : List UInt8)
  deriving DecidableEq

/-- `to_str().ok()` -/
def HeaderValue.toStr : HeaderValue → Option String
  | text value => some value
  | octets _ => none

/-- A `HeaderMap`: the values in order, each under a name in lower case. -/
structure HeaderMap where
  entries : List (String × HeaderValue)
  deriving DecidableEq

namespace HeaderMap

def get (headers : HeaderMap) (name : String) : Option HeaderValue :=
  headers.entries.lookup name

def getStr (headers : HeaderMap) (name : String) : Option String :=
  (headers.get name).bind HeaderValue.toStr

def containsKey (headers : HeaderMap) (name : String) : Bool :=
  headers.entries.any fun entry => entry.1 == name

/-- The headers that a loop with `continue` leaves standing. -/
def without (headers : HeaderMap) (skip : String → HeaderValue → Bool) : HeaderMap where
  entries := headers.entries.filter fun entry => !skip entry.1 entry.2

def remove (headers : HeaderMap) (name : String) : HeaderMap :=
  headers.without fun other _ => other == name

def insert (headers : HeaderMap) (name : String) (value : HeaderValue) : HeaderMap where
  entries := (headers.remove name).entries ++ [(name, value)]

theorem mem_without {headers : HeaderMap} {skip : String → HeaderValue → Bool}
    {entry : String × HeaderValue} : entry ∈ (headers.without skip).entries ↔
      entry ∈ headers.entries ∧ skip entry.1 entry.2 = false := by
  simp [without]

theorem mem_remove {headers : HeaderMap} {name : String} {entry : String × HeaderValue} :
    entry ∈ (headers.remove name).entries ↔ entry ∈ headers.entries ∧ entry.1 ≠ name := by
  simp [remove, mem_without]

theorem mem_insert {headers : HeaderMap} {name : String} {value : HeaderValue}
    {entry : String × HeaderValue} : entry ∈ (headers.insert name value).entries ↔
      (entry ∈ headers.entries ∧ entry.1 ≠ name) ∨ entry = (name, value) := by
  simp [insert, mem_remove]

end HeaderMap

def eqIgnoreAsciiCase (a b : String) : Bool :=
  toAsciiLowercase a == toAsciiLowercase b

theorem eq_ignore_case_iff {a b : String} :
    eqIgnoreAsciiCase a b = true ↔ toAsciiLowercase a = toAsciiLowercase b := by
  rw [eqIgnoreAsciiCase, beq_iff_eq]

theorem eq_ignore_case_symm {a b : String} (h : eqIgnoreAsciiCase a b = true) :
    eqIgnoreAsciiCase b a = true := by
  rw [eq_ignore_case_iff] at h ⊢
  exact h.symm

theorem eq_ignore_case_trans {a b c : String} (h : eqIgnoreAsciiCase a b = true)
    (h' : eqIgnoreAsciiCase b c = true) : eqIgnoreAsciiCase a c = true := by
  rw [eq_ignore_case_iff] at h h' ⊢
  exact h.trans h'

/-! ## The host a request names -/

/-- The host of an authority, a bracketed one with its brackets. -/
def stripPort (authority : String) : String :=
  let text := authority.toList
  if text.head? = some '[' then
    String.ofList (text.takeWhile (· ≠ ']') ++ (text.dropWhile (· ≠ ']')).take 1)
  else
    match rsplitOnce ':' text with
    | some (host, _) => String.ofList host
    | none => authority

/-- `target_host`: the host of the target, else of the `Host` header. -/
def targetHost (uriHost : Option String) (headers : HeaderMap) : Option String :=
  uriHost.or ((headers.getStr "host").map stripPort)

/-- `str::parse::<IpAddr>` -/
def parseIpAddr (text : List Char) : Option Net.IpAddr :=
  match ((Net.readIpv4 text).map fun (ip, rest) => (Net.IpAddr.v4 ip, rest)).or
      ((Net.readIpv6 text).map fun (ip, rest) => (Net.IpAddr.v6 ip, rest)) with
  | some (ip, []) => some ip
  | _ => none

def isLoopbackIp : Net.IpAddr → Bool
  | .v4 ip => ip.a == 127
  | .v6 ip => ip.segments == [0, 0, 0, 0, 0, 0, 0, 1]

def hostIsLoopback (host : String) : Bool :=
  let text := host.toList
  let bare := if text.head? = some '[' ∧ text.tail.getLast? = some ']' then text.tail.dropLast
    else text
  (parseIpAddr bare).any isLoopbackIp || eqIgnoreAsciiCase host "localhost"

/-! ## What a client says about itself -/

/-- The bytes past the end of the expected key are read as zero. -/
def keyDiff : List UInt8 → List UInt8 → UInt8 → UInt8
  | [], _, diff => diff
  | x :: a, b, diff => keyDiff a b.tail (diff ||| (x ^^^ b.head?.getD 0))

/-- `key_matches`: no byte of a wrong key tells its place. -/
def keyMatches (provided : Option String) (expected : String) : Bool :=
  match provided with
  | none => false
  | some provided =>
    let a := asBytes provided.toList
    let b := asBytes expected.toList
    keyDiff a b (if a.length ≠ b.length then 1 else 0) == 0

/-- `client_bearer_of`: the token behind a bearer scheme. -/
def clientBearerOf (headers : HeaderMap) : Option String := do
  let value := trimSpace (← headers.getStr "authorization").toList
  let scheme := value.takeWhile fun c => !isWhiteSpace c
  if value.any isWhiteSpace then
    let token := trimSpace (value.drop (scheme.length + 1))
    if eqIgnoreAsciiCase (String.ofList scheme) "bearer" && !token.isEmpty then
      some (String.ofList token)
    else none
  else none

def wantsWebsocketUpgrade (headers : HeaderMap) : Bool :=
  (headers.getStr "upgrade").any fun value =>
    eqIgnoreAsciiCase (String.ofList (trimSpace value.toList)) "websocket"

def codexAccountHeader : String := "chatgpt-account-id"

def codexRoutingHeaders : List String := ["x-openai-account-routing-override", "x-openai-fedramp"]

def namesCodexRouting (headers : HeaderMap) : Bool :=
  codexRoutingHeaders.any headers.containsKey

/-! ## The proxy's own secrets -/

/-- The two keys a client may present to this proxy and to no other host. -/
structure ProxySecrets where
  apiKey : Option String
  requestKey : Option String

def ProxySecrets.contains (secrets : ProxySecrets) (value : Option String) : Bool :=
  (([secrets.apiKey, secrets.requestKey].filterMap id).filter fun s => !s.isEmpty).any
    (keyMatches value)

/-- The loop reads a difference exactly where the keys differ. -/
theorem key_diff_eq_zero {a b : List UInt8} (hlen : a.length = b.length) (diff : UInt8) :
    keyDiff a b diff = 0 ↔ diff = 0 ∧ a = b := by
  induction a generalizing b diff with
  | nil =>
    obtain rfl : b = [] := List.length_eq_zero_iff.mp hlen.symm
    simp [keyDiff]
  | cons x a ih =>
    obtain ⟨y, b, rfl⟩ : ∃ y b', b = y :: b' := by
      cases b with
      | nil => simp at hlen
      | cons y b => exact ⟨y, b, rfl⟩
    have htail : a.length = b.length := by simpa using hlen
    simp only [keyDiff, List.tail_cons, List.head?_cons, Option.getD_some]
    rw [ih htail, UInt8.or_eq_zero_iff, UInt8.xor_eq_zero_iff, List.cons.injEq]
    tauto

theorem key_diff_mono (a b : List UInt8) (diff : UInt8) :
    keyDiff a b diff = 0 → diff = 0 := by
  induction a generalizing b diff with
  | nil => exact id
  | cons x a ih =>
    intro h
    exact (UInt8.or_eq_zero_iff.mp (ih _ _ h)).1

/-- A key matches exactly where it is the expected one. -/
theorem key_matches_iff {provided : Option String} {expected : String} :
    keyMatches provided expected = true ↔ provided = some expected := by
  cases provided with
  | none => simp [keyMatches]
  | some provided =>
    have hbytes : asBytes provided.toList = asBytes expected.toList ↔ provided = expected := by
      rw [as_bytes_inj, String.toList_inj]
    simp only [keyMatches, beq_iff_eq, Option.some.injEq]
    by_cases hlen : (asBytes provided.toList).length = (asBytes expected.toList).length
    · rw [if_neg (not_not.mpr hlen), key_diff_eq_zero hlen, hbytes]
      simp
    · rw [if_pos hlen]
      constructor
      · intro h
        exact absurd (key_diff_mono _ _ _ h) (by decide)
      · rintro rfl
        exact absurd rfl hlen

/-- What counts as a secret is a key that is set and not empty. -/
theorem secrets_contains_iff {secrets : ProxySecrets} {value : Option String} :
    secrets.contains value = true ↔
      ∃ s, s ≠ "" ∧ (secrets.apiKey = some s ∨ secrets.requestKey = some s) ∧ value = some s := by
  simp only [ProxySecrets.contains, List.any_eq_true, List.mem_filter, List.mem_filterMap, id,
    List.mem_cons, List.not_mem_nil, or_false, key_matches_iff, Bool.not_eq_true',
    String.isEmpty_eq_false_iff, exists_eq_right]
  constructor
  · rintro ⟨s, ⟨hset, hs⟩, hvalue⟩
    exact ⟨s, hs, hset.imp Eq.symm Eq.symm, hvalue⟩
  · rintro ⟨s, hs, hset, hvalue⟩
    exact ⟨s, ⟨hset.imp Eq.symm Eq.symm, hs⟩, hvalue⟩

/-! ## The headers a request goes out with -/

def requestKeyHeader : String := "x-tcr-key"

def relayedHeaderName : String := "x-tcr-relayed"

def relayUserAgent : String := "tcr/1.2.12"

def isRequestHopByHop (name : String) : Bool :=
  name ∈ ["host", "connection", "keep-alive", "transfer-encoding", "te", "trailer", "trailers",
    "upgrade", "proxy-authorization", "proxy-authenticate", "content-length"]

/-- The text `HeaderValue::from_str` takes. -/
def isHeaderText (value : String) : Bool :=
  value.toList.all fun c => c == '\t' || decide (32 ≤ c.toNat ∧ c.toNat < 127)

/-- `build_upstream_headers`: the client's credentials dropped and the account's bearer set. -/
def buildUpstreamHeaders (reqHeaders : HeaderMap) (token : String) : HeaderMap :=
  let out := reqHeaders.without fun name _ =>
    startsWith name ":" || isRequestHopByHop name || name == "x-api-key" ||
      name == requestKeyHeader || name == "authorization" || name == "accept-encoding" ||
      name == relayedHeaderName
  if isHeaderText ("Bearer " ++ token) then
    out.insert "authorization" (.text ("Bearer " ++ token))
  else out

def buildCodexUpstreamHeaders (reqHeaders : HeaderMap) (token : String)
    (accountId : Option String) : HeaderMap :=
  let out := (buildUpstreamHeaders reqHeaders token).remove codexAccountHeader
  let out := codexRoutingHeaders.foldl HeaderMap.remove out
  match accountId.filter isHeaderText with
  | some id => out.insert codexAccountHeader (.text id)
  | none => out

/-- `build_passthrough_headers`: the client's own credential, and neither of the proxy's keys. -/
def buildPassthroughHeaders (reqHeaders : HeaderMap) (secrets : ProxySecrets) : HeaderMap :=
  reqHeaders.without fun name value =>
    startsWith name ":" || isRequestHopByHop name || name == "accept-encoding" ||
      name == requestKeyHeader || (name == "x-api-key" && secrets.contains value.toStr)

/-- `build_raw_relay_headers`: three headers, each the client's or its default. -/
def buildRawRelayHeaders (reqHeaders : HeaderMap) : HeaderMap :=
  [("content-type", "application/json"), ("accept", "application/json"),
    ("user-agent", relayUserAgent)].foldl
      (fun out (name, default) =>
        out.insert name ((reqHeaders.get name).getD (.text default))) ⟨[]⟩

/-- A header that may leave with a request: neither framing nor a key of this proxy. -/
def MayLeave (secrets : ProxySecrets) (entry : String × HeaderValue) : Prop :=
  isRequestHopByHop entry.1 = false ∧ entry.1 ≠ requestKeyHeader ∧
    (entry.1 = "x-api-key" → secrets.contains entry.2.toStr = false)

/-- The bearer of a pooled request is the account's, whatever the client sent. -/
theorem mem_upstream_headers {reqHeaders : HeaderMap} {token : String}
    {entry : String × HeaderValue} (h : entry ∈ (buildUpstreamHeaders reqHeaders token).entries) :
    entry = ("authorization", .text ("Bearer " ++ token)) ∨
      (entry ∈ reqHeaders.entries ∧ entry.1 ≠ "authorization" ∧ entry.1 ≠ "x-api-key" ∧
        isRequestHopByHop entry.1 = false ∧ entry.1 ≠ requestKeyHeader) := by
  have hkept : ∀ {entry : String × HeaderValue},
      entry ∈ (reqHeaders.without fun name _ =>
        startsWith name ":" || isRequestHopByHop name || name == "x-api-key" ||
          name == requestKeyHeader || name == "authorization" || name == "accept-encoding" ||
          name == relayedHeaderName).entries →
        entry ∈ reqHeaders.entries ∧ entry.1 ≠ "authorization" ∧ entry.1 ≠ "x-api-key" ∧
          isRequestHopByHop entry.1 = false ∧ entry.1 ≠ requestKeyHeader := by
    intro entry h
    obtain ⟨hmem, hskip⟩ := HeaderMap.mem_without.mp h
    simp only [Bool.or_eq_false_iff, beq_eq_false_iff_ne] at hskip
    exact ⟨hmem, hskip.1.1.2, hskip.1.1.1.1.2, hskip.1.1.1.1.1.2, hskip.1.1.1.2⟩
  unfold buildUpstreamHeaders at h
  split at h
  · rcases HeaderMap.mem_insert.mp h with ⟨h, -⟩ | h
    · exact .inr (hkept h)
    · exact .inl h
  · exact .inr (hkept h)

theorem upstream_headers_bearer (reqHeaders : HeaderMap) {token : String}
    (h : isHeaderText ("Bearer " ++ token) = true) :
    ("authorization", .text ("Bearer " ++ token)) ∈
      (buildUpstreamHeaders reqHeaders token).entries := by
  unfold buildUpstreamHeaders
  rw [if_pos h]
  exact HeaderMap.mem_insert.mpr (.inr rfl)

/-- What the Codex headers take out or put in is no bearer. -/
theorem codex_headers_bearer (reqHeaders : HeaderMap) {token : String} (accountId : Option String)
    (h : isHeaderText ("Bearer " ++ token) = true) :
    ("authorization", .text ("Bearer " ++ token)) ∈
      (buildCodexUpstreamHeaders reqHeaders token accountId).entries := by
  have haccount : "authorization" ≠ codexAccountHeader := by decide
  have hrouting : ∀ name ∈ codexRoutingHeaders, "authorization" ≠ name := by decide
  have hkept : ("authorization", .text ("Bearer " ++ token)) ∈
      (codexRoutingHeaders.foldl HeaderMap.remove
        ((buildUpstreamHeaders reqHeaders token).remove codexAccountHeader)).entries := by
    simp only [codexRoutingHeaders, List.foldl_cons, List.foldl_nil, HeaderMap.mem_remove]
    exact ⟨⟨⟨upstream_headers_bearer reqHeaders h, haccount⟩, hrouting _ (by decide)⟩,
      hrouting _ (by decide)⟩
  unfold buildCodexUpstreamHeaders
  simp only
  split
  · exact HeaderMap.mem_insert.mpr (.inl ⟨hkept, haccount⟩)
  · exact hkept

/-- The client's own credential is relayed as it came. -/
theorem passthrough_headers_bearer {reqHeaders : HeaderMap} (secrets : ProxySecrets)
    {value : HeaderValue} (h : ("authorization", value) ∈ reqHeaders.entries) :
    ("authorization", value) ∈ (buildPassthroughHeaders reqHeaders secrets).entries := by
  refine HeaderMap.mem_without.mpr ⟨h, ?_⟩
  have hplain : (startsWith "authorization" ":" || isRequestHopByHop "authorization" ||
      "authorization" == "accept-encoding" || "authorization" == requestKeyHeader) = false := by
    decide +kernel
  have hkey : ("authorization" == "x-api-key") = false := by decide
  rw [hplain, hkey, Bool.false_and, Bool.or_false]

theorem mem_codex_headers {reqHeaders : HeaderMap} {token : String} {accountId : Option String}
    {entry : String × HeaderValue}
    (h : entry ∈ (buildCodexUpstreamHeaders reqHeaders token accountId).entries) :
    (∃ id, accountId = some id ∧ entry = (codexAccountHeader, .text id)) ∨
      (entry ∈ (buildUpstreamHeaders reqHeaders token).entries ∧ entry.1 ≠ codexAccountHeader ∧
        entry.1 ∉ codexRoutingHeaders) := by
  have hkept : ∀ {entry : String × HeaderValue},
      entry ∈ (codexRoutingHeaders.foldl HeaderMap.remove
        ((buildUpstreamHeaders reqHeaders token).remove codexAccountHeader)).entries →
        entry ∈ (buildUpstreamHeaders reqHeaders token).entries ∧ entry.1 ≠ codexAccountHeader ∧
          entry.1 ∉ codexRoutingHeaders := by
    intro entry h
    simp only [codexRoutingHeaders, List.foldl_cons, List.foldl_nil, HeaderMap.mem_remove] at h
    simp only [codexRoutingHeaders, List.mem_cons, List.not_mem_nil, or_false]
    tauto
  unfold buildCodexUpstreamHeaders at h
  simp only at h
  split at h
  · rename_i id hid
    obtain ⟨hid, -⟩ := Option.filter_eq_some_iff.mp hid
    rcases HeaderMap.mem_insert.mp h with ⟨h, -⟩ | h
    · exact .inr (hkept h)
    · exact .inl ⟨id, hid, h⟩
  · exact .inr (hkept h)

theorem mem_passthrough_headers {reqHeaders : HeaderMap} {secrets : ProxySecrets}
    {entry : String × HeaderValue}
    (h : entry ∈ (buildPassthroughHeaders reqHeaders secrets).entries) :
    entry ∈ reqHeaders.entries ∧ MayLeave secrets entry := by
  obtain ⟨hmem, hskip⟩ := HeaderMap.mem_without.mp h
  simp only [Bool.or_eq_false_iff, beq_eq_false_iff_ne, Bool.and_eq_false_imp, beq_iff_eq] at hskip
  exact ⟨hmem, hskip.1.1.1.2, hskip.1.2, hskip.2⟩

theorem mem_raw_headers {reqHeaders : HeaderMap} {entry : String × HeaderValue}
    (h : entry ∈ (buildRawRelayHeaders reqHeaders).entries) :
    entry.1 ∈ ["content-type", "accept", "user-agent"] := by
  simp only [buildRawRelayHeaders, List.foldl_cons, List.foldl_nil, HeaderMap.mem_insert] at h
  rcases h with ⟨⟨⟨h, -⟩ | h, -⟩ | h, -⟩ | h
  · cases h
  all_goals
    rw [h]
    simp

end TeamClaude.FrontDoor
