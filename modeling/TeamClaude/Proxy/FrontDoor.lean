import TeamClaude.Config.MintName
import TeamClaude.Proxy.Headers
import TeamClaude.Proxy.Paths

/-!
# The front door

What a request passes before an account is chosen for it. A request goes to the origin of one
provider whatever host it names, so the host, the tunnel it came through and the path must agree on
that provider; and a path that is bound to the client's identity leaves under the client's own
credential.
-/

namespace TeamClaude.FrontDoor

open Lib

inductive ErrorKind
  | invalidRequest
  | proxy
  | api
  | notFound
  | authentication
  | permission
  | rateLimit
  | upgradeRequired
  deriving DecidableEq

structure ClientError where
  status : Nat
  kind : ErrorKind
  message : String
  deriving DecidableEq

/-! ## The hosts -/

def codexHost : String := "chatgpt.com"

def allowedHosts : List String := ["api.anthropic.com", "platform.claude.com", "chatgpt.com"]

def hostAllowed (host : String) : Bool :=
  allowedHosts.any fun h => eqIgnoreAsciiCase h host

def interceptedHostProviders : List (String × Provider) :=
  [("api.anthropic.com", .anthropic), ("platform.claude.com", .anthropic), (codexHost, .codex)]

def interceptedHostProvider (host : String) : Option Provider :=
  (interceptedHostProviders.find? fun entry => eqIgnoreAsciiCase entry.1 host).map Prod.snd

def providerKind : Provider → String
  | .anthropic => "an Anthropic"
  | .codex => "a Codex"

def hostPathDisagreement (host path : String) (pathProvider : Provider) : String :=
  match interceptedHostProvider host with
  | some hostProvider =>
    "Refusing " ++ host ++ path ++ ": " ++ host ++ " is " ++ providerKind hostProvider ++
      " host but this is " ++ providerKind pathProvider ++
      " path (Codex paths are the ones under " ++ Provider.codexPathPrefix ++
      "/), and tcr never forwards a request, or the credential on it, to the other provider."
  | none =>
    "Refusing " ++ host ++ path ++ ": tcr intercepts " ++ host ++
      " but knows no provider for it, so it forwards nothing there."

def tunnelHostDisagreement (tunnel path : String) : String :=
  "Refusing " ++ tunnel ++ path ++ ": the request came through a tunnel to " ++ tunnel ++
    " but names another host, and tcr serves a tunnel only for the host it was opened to."

/-! ## The relays -/

/-- How a request that no account serves is relayed. -/
inductive RelayMode
  | clientCredential
  | raw
  deriving DecidableEq

def relayMode (method path : String) (clientBearer : Bool) : Option RelayMode :=
  let provider := Provider.ofPath path
  if method = "POST" ∧ pathIsUnder path clientTokenRefreshPath = true then some .raw
  else if clientCredentialPrefixes.any (pathIsUnder path) ||
      (match provider with
        | .anthropic => false
        | .codex => !provider.isInferencePath path) then some .clientCredential
  else if clientBearer && !provider.isInferencePath path then some .clientCredential
  else none

/-! ## The identity of a client -/

/-- What `controlIdentity` does about a client that is someone else. -/
inductive ControlIdentityMode
  | off
  | warn
  | refuse
  deriving DecidableEq

structure ControlIdentity where
  name : String
  accountUuid : Option String

structure ClientIdentity where
  email : Option String
  accountUuid : Option String
  deriving DecidableEq

def ClientIdentity.display : ClientIdentity → String
  | ⟨some email, _⟩ => email
  | ⟨none, some uuid⟩ => "account " ++ uuid
  | ⟨none, none⟩ => "an unknown account"

inductive Verdict
  | isControl
  | mismatch (client : ClientIdentity)
  | unknown
  deriving DecidableEq

/-- `verdict`: the uuid where both sides have one, else the email of a control account named by
one. -/
def verdict (control : ControlIdentity) (client : ClientIdentity) : Verdict :=
  match control.accountUuid, client.accountUuid with
  | some c, some k => if c = k then .isControl else .mismatch client
  | _, _ =>
    let controlEmail := emailOf control.name
    if '@' ∉ controlEmail.toList then .unknown
    else
      match client.email with
      | some email =>
        if eqIgnoreAsciiCase email controlEmail then .isControl else .mismatch client
      | none => .unknown

/-! ## A request at the door -/

/-- What the door reads off the running manager. -/
structure Door where
  secrets : ProxySecrets
  controlIdentity : ControlIdentityMode
  controlTarget : Option ControlIdentity

structure ClientRequest where
  method : String
  uriHost : Option String
  path : String
  headers : HeaderMap
  deriving DecidableEq

/-- A request as the listener stamps it: whose it is, and the tunnel it was decrypted from. -/
structure Request extends ClientRequest where
  clientIsLoopback : Bool
  interceptedHost : Option String
  deriving DecidableEq

namespace Request

def target (r : Request) : Option String :=
  targetHost r.uriHost r.headers

def codexTunnel (r : Request) : Bool :=
  r.interceptedHost.any fun host => eqIgnoreAsciiCase host codexHost

def provider (r : Request) : Provider :=
  if r.codexTunnel then .codex else Provider.ofPath r.path

/-- An Anthropic path in a tunnel to the Codex host. -/
def codexPassthrough (r : Request) : Bool :=
  match Provider.ofPath r.path with
  | .anthropic => r.codexTunnel
  | .codex => false

/-! The refusals, in the order they are asked. -/

def keyRefusal (door : Door) (r : Request) : Option ClientError :=
  match door.secrets.apiKey with
  | some expected =>
    if r.clientIsLoopback then none
    else if keyMatches (r.headers.getStr "x-api-key") expected then none
    else some ⟨401, .authentication, "Missing or invalid x-api-key."⟩
  | none => none

def shapeRefusal (r : Request) : Option ClientError :=
  if pathIsAmbiguous r.path then
    some ⟨400, .invalidRequest, "Request path must not contain a dot segment or a backslash."⟩
  else if pathIsUnder r.path localPrefix then some ⟨404, .notFound, "Unknown tcr endpoint."⟩
  else none

def hostRefusal (r : Request) : Option ClientError :=
  match r.target with
  | some host =>
    if !hostIsLoopback host && !hostAllowed host then
      some ⟨421, .invalidRequest,
        "This proxy only serves its configured upstream hosts (Anthropic and Codex); refusing to forward a request for a different host."⟩
    else none
  | none => none

/-- Does a request in a tunnel name another host than the tunnel's? -/
def namesAnotherHost (r : Request) (tunnel : String) : Bool :=
  match r.target with
  | some host => !eqIgnoreAsciiCase host tunnel
  -- a host header that cannot be read names a host
  | none => r.headers.containsKey "host"

def disagreement (r : Request) : Option String :=
  match r.interceptedHost with
  | some tunnel =>
    if r.namesAnotherHost tunnel then some (tunnelHostDisagreement tunnel r.path)
    else if interceptedHostProvider tunnel ≠ some r.provider then
      some (hostPathDisagreement tunnel r.path r.provider)
    else none
  | none =>
    (r.target.filter fun host =>
      !hostIsLoopback host && interceptedHostProvider host ≠ some r.provider).map fun host =>
        hostPathDisagreement host r.path r.provider

def upgradeRefusal (r : Request) : Option ClientError :=
  match r.provider with
  | .codex =>
    if r.path = Provider.codexResponsesPath ∧ wantsWebsocketUpgrade r.headers = true then
      some ⟨426, .upgradeRequired,
        "tcr relays Codex over HTTP streaming only; the client falls back to SSE for this session."⟩
    else none
  | .anthropic => none

/-- The refusals that ask nobody. -/
def refusal (door : Door) (r : Request) : Option ClientError :=
  (r.keyRefusal door).or <| r.shapeRefusal.or <| r.hostRefusal.or <|
    (r.disagreement.map fun message => ⟨421, .invalidRequest, message⟩).or r.upgradeRefusal

/-- The bearer `refuse_foreign_client` resolves at the Anthropic profile, if it comes to that. -/
def askedBearer (door : Door) (r : Request) : Option String :=
  match r.provider with
  | .anthropic =>
    if door.controlIdentity = .off ∨ door.controlTarget = none then none
    else clientBearerOf r.headers
  | .codex => none

/-- `refuse_foreign_client`, with what the profile answered for a bearer. -/
def foreignRefusal (door : Door) (profile : String → Option ClientIdentity) (r : Request) :
    Option ClientError := do
  let bearer ← r.askedBearer door
  let control ← door.controlTarget
  let client ← profile bearer
  match verdict control client with
  | .mismatch client =>
    if door.controlIdentity = .warn then none
    else
      let controlEmail := emailOf control.name
      some ⟨403, .permission,
        "tcr: this client is signed in as " ++ client.display ++ ", but controlAccount is " ++
          controlEmail ++ ", so its connectors, plugins and settings would come from the wrong " ++
          "account. Run /logout, then /login as " ++ controlEmail ++
          " — or set \"controlIdentity\": \"warn\" (or \"off\") in the tcr config to serve it anyway."⟩
  | _ => none

/-- How a request that was let in is relayed; none is served from the pool. -/
def relay (r : Request) : Option RelayMode :=
  let pathRelay := if r.codexPassthrough then some .clientCredential
    else relayMode r.method r.path (clientBearerOf r.headers).isSome
  match pathRelay with
  | some mode => some mode
  | none =>
    match r.provider with
    | .anthropic => none
    | .codex => if namesCodexRouting r.headers then some .clientCredential else none

end Request

/-- Where the door sends a request. -/
inductive Route
  | refused (error : ClientError)
  | relayed (mode : RelayMode)
  | pooled
  deriving DecidableEq

/-- `handle_request`, up to the choice of an account. -/
def handleRequest (door : Door) (profile : String → Option ClientIdentity) (r : Request) : Route :=
  match (r.refusal door).or (r.foreignRefusal door profile) with
  | some error => .refused error
  | none =>
    match r.relay with
    | some mode => .relayed mode
    | none => .pooled

/-! ## What was let in -/

section Hosts

variable {host other : String}

/-- The two tables list the same hosts, so no host is let in without a provider. -/
theorem host_allowed_iff : hostAllowed host = true ↔ (interceptedHostProvider host).isSome := by
  have htable : allowedHosts = interceptedHostProviders.map Prod.fst := rfl
  unfold hostAllowed interceptedHostProvider
  rw [htable, List.any_map, Option.isSome_map, List.find?_isSome, List.any_eq_true]
  rfl

theorem intercepted_provider_congr (h : eqIgnoreAsciiCase host other = true) :
    interceptedHostProvider host = interceptedHostProvider other := by
  have hsame : ∀ name, eqIgnoreAsciiCase name host = eqIgnoreAsciiCase name other := by
    intro name
    unfold eqIgnoreAsciiCase
    rw [eq_ignore_case_iff.mp h]
  unfold interceptedHostProvider
  simp only [hsame]

/-- The Codex host is the one host of its provider. -/
theorem intercepted_codex_iff :
    interceptedHostProvider host = some .codex ↔ eqIgnoreAsciiCase host codexHost = true := by
  unfold interceptedHostProvider interceptedHostProviders
  constructor
  · intro h
    obtain ⟨entry, hfound, hentry⟩ := Option.map_eq_some_iff.mp h
    have hmem := List.mem_of_find?_eq_some hfound
    have heq := List.find?_some hfound
    simp only [List.mem_cons, List.not_mem_nil, or_false] at hmem
    rcases hmem with rfl | rfl | rfl
    · cases hentry
    · cases hentry
    · exact eq_ignore_case_symm heq
  · intro h
    have hother : ∀ name, eqIgnoreAsciiCase name codexHost = false →
        eqIgnoreAsciiCase name host = false := by
      intro name hname
      rw [Bool.eq_false_iff] at hname ⊢
      exact fun hsame => hname (eq_ignore_case_trans hsame h)
    simp only [List.find?_cons, hother "api.anthropic.com" (by decide +kernel),
      hother "platform.claude.com" (by decide +kernel), eq_ignore_case_symm h, Option.map_some]

end Hosts

namespace Request

variable {door : Door} {profile : String → Option ClientIdentity} {r : Request} {p : Provider}

/-- A request agrees on a provider through every host it is known to be for. -/
structure Agrees (r : Request) (p : Provider) : Prop where
  tunnel : ∀ host, r.interceptedHost = some host → interceptedHostProvider host = some p
  target : ∀ host, r.target = some host →
    hostIsLoopback host = true ∨ interceptedHostProvider host = some p
  same : ∀ tunnel host, r.interceptedHost = some tunnel → r.target = some host →
    eqIgnoreAsciiCase host tunnel = true

/-- What no refusal that asks nobody lets through. -/
structure Admitted (door : Door) (r : Request) : Prop where
  keyed : ∀ expected, door.secrets.apiKey = some expected →
    r.clientIsLoopback = true ∨ r.headers.getStr "x-api-key" = some expected
  plain : pathIsAmbiguous r.path = false
  foreign : pathIsUnder r.path localPrefix = false
  agrees : r.Agrees r.provider

/-- The paths an account's credential may serve. -/
structure Poolable (r : Request) : Prop where
  path : Provider.ofPath r.path = r.provider
  unbound : ∀ base ∈ clientCredentialPrefixes, pathIsUnder r.path base = false
  refresh : r.method = "POST" → pathIsUnder r.path clientTokenRefreshPath = false
  inference : r.provider.isInferencePath r.path = true ∨
    (r.provider = .anthropic ∧ clientBearerOf r.headers = none)
  routing : r.provider = .codex → namesCodexRouting r.headers = false

theorem keyed_of_none (h : r.keyRefusal door = none) (expected : String)
    (hkey : door.secrets.apiKey = some expected) :
    r.clientIsLoopback = true ∨ r.headers.getStr "x-api-key" = some expected := by
  unfold keyRefusal at h
  rw [hkey] at h
  simp only at h
  split at h
  · rename_i hloop
    exact .inl hloop
  · split at h
    · rename_i hmatch
      exact .inr (key_matches_iff.mp hmatch)
    · cases h

theorem shape_of_none (h : r.shapeRefusal = none) :
    pathIsAmbiguous r.path = false ∧ pathIsUnder r.path localPrefix = false := by
  unfold shapeRefusal at h
  split at h
  · cases h
  · split at h
    · cases h
    · rename_i hshape hlocal
      exact ⟨Bool.not_eq_true _ ▸ hshape, Bool.not_eq_true _ ▸ hlocal⟩

/-- In a tunnel the host that is named is the tunnel's, and out of one it is the provider's. -/
theorem agrees_of_none (h : r.disagreement = none) : r.Agrees r.provider := by
  unfold disagreement at h
  cases htunnel : r.interceptedHost with
  | none =>
    rw [htunnel] at h
    simp only [Option.map_eq_none_iff, Option.filter_eq_none_iff] at h
    refine ⟨fun host hhost => ?_, fun host hhost => ?_, fun tunnel host ht => ?_⟩
    · rw [htunnel] at hhost
      cases hhost
    · have := h host hhost
      simpa [or_iff_not_imp_left] using this
    · rw [htunnel] at ht
      cases ht
  | some tunnel =>
    rw [htunnel] at h
    simp only at h
    split at h
    · cases h
    · rename_i hnames
      split at h
      · cases h
      · rename_i hprovider
        have hprovider := not_not.mp hprovider
        have hsame : ∀ host, r.target = some host → eqIgnoreAsciiCase host tunnel = true := by
          intro host hhost
          unfold namesAnotherHost at hnames
          rw [hhost] at hnames
          simpa using hnames
        refine ⟨fun host hhost => ?_, fun host hhost => ?_, fun other host ht hhost => ?_⟩
        · rw [htunnel, Option.some.injEq] at hhost
          rw [← hhost]
          exact hprovider
        · rw [intercepted_provider_congr (hsame host hhost)]
          exact .inr hprovider
        · rw [htunnel, Option.some.injEq] at ht
          rw [← ht]
          exact hsame host hhost

theorem admitted_of_none (h : r.refusal door = none) : r.Admitted door := by
  unfold refusal at h
  simp only [Option.or_eq_none_iff, Option.map_eq_none_iff] at h
  obtain ⟨hkey, hshape, -, hagree, -⟩ := h
  exact ⟨keyed_of_none hkey, (shape_of_none hshape).1, (shape_of_none hshape).2,
    agrees_of_none hagree⟩

theorem relay_mode_none_iff {method path : String} {bearer : Bool} :
    relayMode method path bearer = none ↔
      (method = "POST" → pathIsUnder path clientTokenRefreshPath = false) ∧
        (∀ base ∈ clientCredentialPrefixes, pathIsUnder path base = false) ∧
        (Provider.ofPath path = .codex ∨ bearer = true →
          (Provider.ofPath path).isInferencePath path = true) := by
  unfold relayMode
  simp only
  split
  · rename_i hrefresh
    refine iff_of_false (by simp) fun h => ?_
    rw [h.1 hrefresh.1] at hrefresh
    exact Bool.false_ne_true hrefresh.2
  · rename_i hrefresh
    have hrefresh : method = "POST" → pathIsUnder path clientTokenRefreshPath = false :=
      fun hpost => Bool.eq_false_iff.mpr fun hunder => hrefresh ⟨hpost, hunder⟩
    have hbases : (∀ base ∈ clientCredentialPrefixes, pathIsUnder path base = false) ↔
        clientCredentialPrefixes.any (pathIsUnder path) = false := by
      rw [List.any_eq_false]
      exact forall₂_congr fun base _ => (Bool.not_eq_true _).symm.to_iff
    rw [hbases, and_iff_right hrefresh]
    cases Provider.ofPath path with
    | anthropic =>
      cases bearer <;> cases clientCredentialPrefixes.any (pathIsUnder path) <;>
        cases Provider.anthropic.isInferencePath path <;> simp
    | codex =>
      cases bearer <;> cases clientCredentialPrefixes.any (pathIsUnder path) <;>
        cases Provider.codex.isInferencePath path <;> simp

/-- A request is passed through to Codex exactly where its path is not of its provider. -/
theorem codex_passthrough_iff :
    r.codexPassthrough = false ↔ Provider.ofPath r.path = r.provider := by
  unfold codexPassthrough provider
  cases Provider.ofPath r.path with
  | anthropic => cases r.codexTunnel <;> simp
  | codex => cases r.codexTunnel <;> simp

/-- No relay takes a request exactly where an account's credential may serve it. -/
theorem relay_none_iff : r.relay = none ↔ r.Poolable := by
  have hrelay : r.relay = none ↔ r.codexPassthrough = false ∧
      relayMode r.method r.path (clientBearerOf r.headers).isSome = none ∧
        (r.provider = .codex → namesCodexRouting r.headers = false) := by
    unfold relay
    cases r.codexPassthrough with
    | true => simp
    | false =>
      cases relayMode r.method r.path (clientBearerOf r.headers).isSome with
      | some mode => simp
      | none => cases r.provider <;> simp
  rw [hrelay, codex_passthrough_iff, relay_mode_none_iff]
  constructor
  · rintro ⟨hpath, ⟨hrefresh, hunbound, hinference⟩, hrouting⟩
    rw [hpath] at hinference
    refine ⟨hpath, hunbound, hrefresh, ?_, hrouting⟩
    cases hp : r.provider with
    | codex => exact .inl (hp ▸ hinference (.inl hp))
    | anthropic =>
      cases hb : clientBearerOf r.headers with
      | none => exact .inr ⟨rfl, rfl⟩
      | some token => exact .inl (hp ▸ hinference (.inr (by rw [hb]; rfl)))
  · rintro ⟨hpath, hunbound, hrefresh, hinference, hrouting⟩
    refine ⟨hpath, ⟨hrefresh, hunbound, fun hasks => ?_⟩, hrouting⟩
    rw [hpath] at hasks ⊢
    rcases hinference with h | ⟨hp, hb⟩
    · exact h
    · rw [hp, hb] at hasks
      rcases hasks with h | h <;> cases h

end Request

end TeamClaude.FrontDoor
