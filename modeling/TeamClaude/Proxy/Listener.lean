import TeamClaude.Base64
import TeamClaude.Lib.Exec
import TeamClaude.Lib.JsonText.Members
import TeamClaude.Proxy.FrontDoor

/-!
# The listener

One port takes requests and tunnels. A tunnel is terminated only to a host the listener pools for
and holds a certificate for; every other tunnel is a pipe. What is read from either kind passes the
front door, and the pool of accounts may change between any two steps.
-/

namespace TeamClaude.FrontDoor

open Lib

/-! ## The head of a tunnel -/

/-- `str::split_whitespace` -/
def splitWhitespace (text : List Char) : List (List Char) :=
  (text.splitOnP isWhiteSpace).filter fun word => !word.isEmpty

/-- `str::parse::<u16>` -/
def parsePort (text : List Char) : Option Nat :=
  let digits := if text.head? = some '+' then text.tail else text
  match readNumber 10 none true 65536 digits with
  | some (port, []) => some port
  | _ => none

def parseConnectTarget (line : List Char) : Option (String × Nat) :=
  match splitWhitespace line with
  | method :: authority :: _ =>
    if eqIgnoreAsciiCase (String.ofList method) "CONNECT" then do
      let (host, port) ← rsplitOnce ':' authority
      let port ← parsePort port
      if host.isEmpty then none else some (String.ofList host, port)
    else none
  | _ => none

/-- A line without the return in front of its end. -/
def stripReturn (line : List Char) : List Char :=
  if line.getLast? = some '\r' then line.dropLast else line

/-- `str::lines` -/
def textLines (text : List Char) : List (List Char) :=
  let parts := text.splitOn '\n'
  parts.dropLast.map stripReturn ++ (parts.getLast?.toList.filter fun line => !line.isEmpty)

/-- `basic_user_password`, of which the user is read. -/
def basicUser (value : List Char) : Option (List UInt8) :=
  let scheme := value.takeWhile (· ≠ ' ')
  if ' ' ∈ value ∧ eqIgnoreAsciiCase (String.ofList scheme) "basic" = true then do
    let urlSafe := (trimSpace (value.drop (scheme.length + 1))).map fun c =>
      if c = '+' then '-' else if c = '/' then '_' else c
    let decoded ← base64urlDecode (String.ofList urlSafe)
    if JsonText.isUtf8 decoded && decoded.contains ':'.toUInt8 then
      some (decoded.takeWhile (· ≠ ':'.toUInt8))
    else none
  else none

def codexProxyUsername : String := "tcr-codex"

/-- `codex_marked` of `from_connect_head`. -/
def codexMarked (head : List Char) : Bool :=
  (((textLines head).drop 1).takeWhile fun line => !line.isEmpty).any fun line =>
    let name := line.takeWhile (· ≠ ':')
    line.contains ':' && eqIgnoreAsciiCase (String.ofList name) "proxy-authorization" &&
      basicUser (trimSpace (line.drop (name.length + 1))) ==
        some (asBytes codexProxyUsername.toList)

/-! ## Which tunnels are terminated -/

def hostIntercepted (host : String) (codexAccounts : Nat) (codexConnection : Bool) : Bool :=
  hostAllowed host &&
    (!eqIgnoreAsciiCase host codexHost || (decide (0 < codexAccounts) && codexConnection))

/-- `intercepts_now`, which counts the accounts only where it must. -/
def interceptsNow (codexAccounts : Nat) (host : String) (codexConnection : Bool) : Bool :=
  if !eqIgnoreAsciiCase host codexHost then hostAllowed host
  else if !codexConnection then false
  else hostIntercepted host codexAccounts true

theorem intercepts_now_eq (codexAccounts : Nat) (host : String) (codexConnection : Bool) :
    interceptsNow codexAccounts host codexConnection =
      hostIntercepted host codexAccounts codexConnection := by
  unfold interceptsNow hostIntercepted
  cases eqIgnoreAsciiCase host codexHost <;> cases codexConnection <;> simp

/-- The certificate material the listener was started with. -/
structure Certificates where
  coveredHosts : List String
  acceptor : Bool

def leafCovers (covered : List String) (host : String) : Bool :=
  covered.any fun h => eqIgnoreAsciiCase h host

/-- What becomes of a `CONNECT`. -/
inductive Connect
  | badRequest
  | piped (host : String) (port : Nat)
  | unavailable
  | terminated (host : String)
  deriving DecidableEq

/-- `handle_connect`, up to the handshake. -/
def handleConnect (certs : Certificates) (codexAccounts : Nat) (head : List Char) : Connect :=
  match parseConnectTarget ((textLines head).headD []) with
  | none => .badRequest
  | some (host, port) =>
    if !interceptsNow codexAccounts host (codexMarked head) then .piped host port
    else if !leafCovers certs.coveredHosts host then .piped host port
    else if certs.acceptor then .terminated host
    else .unavailable

/-! ## The listener and its connections -/

/-- A connection as `serve_http` has it. -/
structure Conn where
  clientIsLoopback : Bool
  intercepted : Option String
  deriving DecidableEq

structure Listener where
  door : Door
  codexAccounts : Nat
  conns : List Conn

inductive ListenAct
  /-- A reload: another control account, other accounts. -/
  | reload (door : Door) (codexAccounts : Nat)
  /-- A connection that does not open with a `CONNECT`. -/
  | accept (clientIsLoopback : Bool)
  | connect (clientIsLoopback : Bool) (head : List Char) (handshake : Bool)
  /-- A request on a connection, with what the profile answers and the accounts the rotation tries:
  each one's token, and its id where it is a Codex account. -/
  | request (conn : Nat) (written : ClientRequest) (profile : String → Option ClientIdentity)
      (tries : List (String × Option String))

namespace Listener

def step (certs : Certificates) (s : Listener) : ListenAct → Listener
  | .reload door codexAccounts => { s with door, codexAccounts }
  | .accept clientIsLoopback => { s with conns := s.conns ++ [⟨clientIsLoopback, none⟩] }
  | .connect clientIsLoopback head handshake =>
    match handleConnect certs s.codexAccounts head with
    | .terminated host =>
      if handshake then { s with conns := s.conns ++ [⟨clientIsLoopback, some host⟩] } else s
    | _ => s
  | .request _ _ _ _ => s

end Listener

/-- Why a message leaves for a provider. -/
inductive Errand
  /-- The bearer's own profile is asked for. -/
  | profile (bearer : String)
  | relay (mode : RelayMode)
  | pooled (token : String)
  deriving DecidableEq

/-- A message to the origin of a provider, and the request it is sent for. -/
structure Sent where
  provider : Provider
  errand : Errand
  request : Request
  headers : HeaderMap
  deriving DecidableEq

/-- The request as `serve_http` hands it on. -/
def Conn.stamp (conn : Conn) (written : ClientRequest) : Request :=
  { written with clientIsLoopback := conn.clientIsLoopback, interceptedHost := conn.intercepted }

def relayHeaders (door : Door) (mode : RelayMode) (r : Request) : HeaderMap :=
  match mode with
  | .clientCredential => buildPassthroughHeaders r.headers door.secrets
  | .raw => buildRawRelayHeaders r.headers

def pooledHeaders (r : Request) (token : String) (accountId : Option String) : HeaderMap :=
  match r.provider with
  | .anthropic => buildUpstreamHeaders r.headers token
  | .codex => buildCodexUpstreamHeaders r.headers token accountId

namespace Request

/-- The question `refuse_foreign_client` asks, when the request gets that far. -/
def asked (door : Door) (r : Request) : List Sent :=
  if (r.refusal door).isSome then []
  else
    (r.askedBearer door).toList.map fun bearer =>
      ⟨.anthropic, .profile bearer, r, ⟨[("authorization", .text ("Bearer " ++ bearer))]⟩⟩

/-- Everything that leaves for one request. -/
def sends (door : Door) (profile : String → Option ClientIdentity)
    (tries : List (String × Option String)) (r : Request) : List Sent :=
  r.asked door ++
    match handleRequest door profile r with
    | .refused _ => []
    | .relayed mode => [⟨r.provider, .relay mode, r, relayHeaders door mode r⟩]
    | .pooled => tries.map fun (token, accountId) =>
        ⟨r.provider, .pooled token, r, pooledHeaders r token accountId⟩

end Request

namespace Listener

/-- Everything that leaves at a step. -/
def sends (s : Listener) : ListenAct → List Sent
  | .request conn written profile tries =>
    match s.conns[conn]? with
    | some c => (c.stamp written).sends s.door profile tries
    | none => []
  | _ => []

end Listener

/-! ## What leaves -/

section Sends

variable {door : Door} {profile : String → Option ClientIdentity}
  {tries : List (String × Option String)} {r : Request} {e : Sent}

/-- A message is for a request that was admitted, and goes where the request agrees to go. -/
structure Sent.Sound (door : Door) (e : Sent) : Prop where
  provider : e.provider = e.request.provider
  admitted : e.request.Admitted door
  pooled : ∀ token, e.errand = .pooled token → e.request.Poolable
  asks : ∀ bearer, e.errand = .profile bearer →
    e.request.provider = .anthropic ∧ clientBearerOf e.request.headers = some bearer

/-- The credential a message carries is the one its errand is under. -/
def Errand.Carries (errand : Errand) (client : HeaderMap) (value : HeaderValue) : Prop :=
  match errand with
  | .profile bearer => value = .text ("Bearer " ++ bearer)
  | .relay .clientCredential => ("authorization", value) ∈ client.entries
  | .relay .raw => False
  | .pooled token => value = .text ("Bearer " ++ token)

/-- The credential a message may not leave without, unless no header could hold it. -/
def Errand.Owes (errand : Errand) (client : HeaderMap) (value : HeaderValue) : Prop :=
  match errand with
  | .profile bearer => value = .text ("Bearer " ++ bearer)
  | .relay .clientCredential => ("authorization", value) ∈ client.entries
  | .relay .raw => False
  | .pooled token =>
    value = .text ("Bearer " ++ token) ∧ isHeaderText ("Bearer " ++ token) = true

theorem asked_bearer_some {bearer : String} (h : r.askedBearer door = some bearer) :
    r.provider = .anthropic ∧ clientBearerOf r.headers = some bearer := by
  unfold Request.askedBearer at h
  split at h
  · rename_i hprovider
    split at h
    · cases h
    · exact ⟨hprovider, h⟩
  · cases h

/-- The one description of what leaves: a question, a relay or a try under an account. -/
theorem mem_sends (h : e ∈ r.sends door profile tries) : r.refusal door = none ∧
    ((∃ bearer, r.askedBearer door = some bearer ∧
        e = ⟨.anthropic, .profile bearer, r,
          ⟨[("authorization", .text ("Bearer " ++ bearer))]⟩⟩) ∨
      (∃ mode, e = ⟨r.provider, .relay mode, r, relayHeaders door mode r⟩) ∨
      ∃ token accountId, r.Poolable ∧
        e = ⟨r.provider, .pooled token, r, pooledHeaders r token accountId⟩) := by
  rcases List.mem_append.mp h with h | h
  · unfold Request.asked at h
    split at h
    · cases h
    · rename_i hrefusal
      obtain ⟨bearer, hbearer, rfl⟩ := List.mem_map.mp h
      rw [Option.mem_toList] at hbearer
      exact ⟨Option.not_isSome_iff_eq_none.mp hrefusal, .inl ⟨bearer, hbearer, rfl⟩⟩
  · unfold handleRequest at h
    cases hrefusal : (r.refusal door).or (r.foreignRefusal door profile) with
    | some error =>
      rw [hrefusal] at h
      cases h
    | none =>
      rw [hrefusal] at h
      refine ⟨(Option.or_eq_none_iff.mp hrefusal).1, .inr ?_⟩
      cases hrelay : r.relay with
      | some mode =>
        rw [hrelay] at h
        exact .inl ⟨mode, List.mem_singleton.mp h⟩
      | none =>
        rw [hrelay] at h
        obtain ⟨⟨token, accountId⟩, -, rfl⟩ := List.mem_map.mp h
        exact .inr ⟨token, accountId, Request.relay_none_iff.mp hrelay, rfl⟩

theorem sends_sound (h : e ∈ r.sends door profile tries) : e.Sound door ∧ e.request = r := by
  obtain ⟨hrefusal, hcase⟩ := mem_sends h
  have hadmitted := Request.admitted_of_none hrefusal
  rcases hcase with ⟨bearer, hbearer, rfl⟩ | ⟨mode, rfl⟩ | ⟨token, accountId, hpool, rfl⟩
  · obtain ⟨hprovider, hclient⟩ := asked_bearer_some hbearer
    refine ⟨⟨hprovider.symm, hadmitted, nofun, fun other h => ?_⟩, rfl⟩
    cases h
    exact ⟨hprovider, hclient⟩
  · exact ⟨⟨rfl, hadmitted, nofun, nofun⟩, rfl⟩
  · exact ⟨⟨rfl, hadmitted, fun _ _ => hpool, nofun⟩, rfl⟩

/-- No header of a message is for this proxy alone, and its bearer is the errand's and is there. -/
structure Sent.Kept (secrets : ProxySecrets) (e : Sent) : Prop where
  mayLeave : ∀ entry ∈ e.headers.entries, MayLeave secrets entry
  bearer : ∀ value, ("authorization", value) ∈ e.headers.entries →
    e.errand.Carries e.request.headers value
  paid : ∀ value, e.errand.Owes e.request.headers value →
    ("authorization", value) ∈ e.headers.entries
  pooled : ∀ token, e.errand = .pooled token → ∀ entry ∈ e.headers.entries,
    entry.1 ≠ "x-api-key" ∧ (e.provider = .codex → entry.1 ∉ codexRoutingHeaders)

theorem may_leave_named {secrets : ProxySecrets} {name : String} (value : HeaderValue)
    (hhop : isRequestHopByHop name = false) (hreq : name ≠ requestKeyHeader)
    (hkey : name ≠ "x-api-key") : MayLeave secrets (name, value) :=
  ⟨hhop, hreq, fun h => absurd h hkey⟩

theorem upstream_may_leave (secrets : ProxySecrets) {headers : HeaderMap} {token : String}
    {entry : String × HeaderValue} (h : entry ∈ (buildUpstreamHeaders headers token).entries) :
    MayLeave secrets entry ∧ entry.1 ≠ "x-api-key" ∧
      (entry.1 = "authorization" → entry.2 = .text ("Bearer " ++ token)) := by
  rcases mem_upstream_headers h with rfl | ⟨-, hauth, hkey, hhop, hreq⟩
  · exact ⟨may_leave_named _ (by decide) (by decide) (by decide),
      show "authorization" ≠ "x-api-key" by decide, fun _ => rfl⟩
  · exact ⟨may_leave_named _ hhop hreq hkey, hkey, fun h => absurd h hauth⟩

theorem pooled_may_leave (secrets : ProxySecrets) {token : String} {accountId : Option String}
    {entry : String × HeaderValue} (h : entry ∈ (pooledHeaders r token accountId).entries) :
    MayLeave secrets entry ∧ entry.1 ≠ "x-api-key" ∧
      (entry.1 = "authorization" → entry.2 = .text ("Bearer " ++ token)) ∧
        (r.provider = .codex → entry.1 ∉ codexRoutingHeaders) := by
  unfold pooledHeaders at h
  cases hp : r.provider with
  | anthropic =>
    rw [hp] at h
    obtain ⟨hleave, hkey, hauth⟩ := upstream_may_leave secrets h
    exact ⟨hleave, hkey, hauth, nofun⟩
  | codex =>
    rw [hp] at h
    rcases mem_codex_headers h with ⟨id, -, rfl⟩ | ⟨h, -, hrouting⟩
    · exact ⟨may_leave_named _ (by decide) (by decide) (by decide),
        show codexAccountHeader ≠ "x-api-key" by decide,
        fun h => absurd h (show codexAccountHeader ≠ "authorization" by decide),
        fun _ => show codexAccountHeader ∉ codexRoutingHeaders by decide⟩
    · obtain ⟨hleave, hkey, hauth⟩ := upstream_may_leave secrets h
      exact ⟨hleave, hkey, hauth, fun _ => hrouting⟩

theorem pooled_headers_bearer {token : String} (accountId : Option String)
    (h : isHeaderText ("Bearer " ++ token) = true) :
    ("authorization", .text ("Bearer " ++ token)) ∈ (pooledHeaders r token accountId).entries := by
  unfold pooledHeaders
  cases r.provider with
  | anthropic => exact upstream_headers_bearer r.headers h
  | codex => exact codex_headers_bearer r.headers accountId h

theorem sends_kept (h : e ∈ r.sends door profile tries) : e.Kept door.secrets := by
  obtain ⟨-, ⟨bearer, -, rfl⟩ | ⟨mode, rfl⟩ | ⟨token, accountId, -, rfl⟩⟩ := mem_sends h
  · refine ⟨fun entry h => ?_, fun value h => ?_, fun value h => ?_, nofun⟩
    · obtain rfl := List.mem_singleton.mp h
      exact may_leave_named _ (by decide) (by decide) (by decide)
    · exact (Prod.mk.inj (List.mem_singleton.mp h)).2
    · exact List.mem_singleton.mpr (congrArg _ h)
  · cases mode with
    | clientCredential =>
      exact ⟨fun entry h => (mem_passthrough_headers h).2,
        fun value h => (mem_passthrough_headers h).1,
        fun value h => passthrough_headers_bearer door.secrets h, nofun⟩
    | raw =>
      have hnames : ∀ name ∈ ["content-type", "accept", "user-agent"],
          isRequestHopByHop name = false ∧ name ≠ requestKeyHeader ∧ name ≠ "x-api-key" := by
        decide
      refine ⟨fun entry h => ?_, fun value h => ?_, nofun, nofun⟩
      · obtain ⟨hhop, hreq, hkey⟩ := hnames _ (mem_raw_headers h)
        exact may_leave_named _ hhop hreq hkey
      · exact absurd (mem_raw_headers h)
          (show "authorization" ∉ ["content-type", "accept", "user-agent"] by decide)
  · refine ⟨fun entry h => (pooled_may_leave door.secrets h).1, fun value h => ?_,
      fun value h => ?_, fun other _ entry h => ?_⟩
    · exact (pooled_may_leave door.secrets h).2.2.1 rfl
    · obtain ⟨rfl, htext⟩ := h
      exact pooled_headers_bearer accountId htext
    · exact ⟨(pooled_may_leave door.secrets h).2.1, (pooled_may_leave door.secrets h).2.2.2⟩

end Sends

/-! ## Runs -/

section Runs

variable {certs : Certificates} {codexAccounts : Nat} {head : List Char} {host : String}

/-- What a tunnel is terminated on: a host that is pooled for and covered, and for the Codex host a
marked client and an account. -/
theorem handle_connect_terminated
    (h : handleConnect certs codexAccounts head = .terminated host) :
    (∃ port, parseConnectTarget ((textLines head).headD []) = some (host, port)) ∧
    leafCovers certs.coveredHosts host = true ∧ hostAllowed host = true ∧
      (eqIgnoreAsciiCase host codexHost = true →
        0 < codexAccounts ∧ codexMarked head = true) := by
  unfold handleConnect at h
  cases hparse : parseConnectTarget ((textLines head).headD []) with
  | none =>
    rw [hparse] at h
    cases h
  | some target =>
    obtain ⟨named, port⟩ := target
    rw [hparse] at h
    simp only [intercepts_now_eq] at h
    split at h
    · cases h
    · rename_i hpolicy
      split at h
      · cases h
      · rename_i hcovers
        split at h
        · cases h
          simp only [Bool.not_eq_true', Bool.not_eq_false] at hpolicy hcovers
          simp only [hostIntercepted, Bool.and_eq_true, Bool.or_eq_true, Bool.not_eq_true',
            decide_eq_true_eq] at hpolicy
          refine ⟨⟨port, rfl⟩, hcovers, hpolicy.1, fun hcodex =>
            hpolicy.2.resolve_left fun hother => ?_⟩
          rw [hcodex] at hother
          cases hother
        · cases h

/-- A tunnel was terminated in the run whose `CONNECT` named the host, where the listener might. -/
def TerminatedIn (certs : Certificates) (s : Listener) (acts : List ListenAct)
    (conn : Conn) (host : String) : Prop :=
  ∃ before head, before ++ [.connect conn.clientIsLoopback head true] <+: acts ∧
    (∃ port, parseConnectTarget ((textLines head).headD []) = some (host, port)) ∧
    leafCovers certs.coveredHosts host = true ∧ hostAllowed host = true ∧
    (eqIgnoreAsciiCase host codexHost = true →
      0 < (exec (Listener.step certs) s before).codexAccounts ∧ codexMarked head = true)

theorem TerminatedIn.snoc {s : Listener} {acts : List ListenAct} {conn : Conn}
    (h : TerminatedIn certs s acts conn host) (act : ListenAct) :
    TerminatedIn certs s (acts ++ [act]) conn host := by
  obtain ⟨before, head, hbefore, hgrounds⟩ := h
  exact ⟨before, head, hbefore.trans (List.prefix_append acts [act]), hgrounds⟩

/-- The connections after a step are those before it and perhaps one more. -/
theorem mem_conns_step {s : Listener} {act : ListenAct} {conn : Conn}
    (h : conn ∈ (s.step certs act).conns) : conn ∈ s.conns ∨ conn.intercepted = none ∨
      ∃ head host, act = .connect conn.clientIsLoopback head true ∧
        handleConnect certs s.codexAccounts head = .terminated host ∧
          conn.intercepted = some host := by
  cases act with
  | reload door codexAccounts => exact .inl h
  | accept clientIsLoopback =>
    rcases List.mem_append.mp h with h | h
    · exact .inl h
    · obtain rfl := List.mem_singleton.mp h
      exact .inr (.inl rfl)
  | connect clientIsLoopback head handshake =>
    unfold Listener.step at h
    simp only at h
    split at h
    · rename_i host hhost
      split at h
      · rename_i hshake
        rcases List.mem_append.mp h with h | h
        · exact .inl h
        · obtain rfl := List.mem_singleton.mp h
          exact .inr (.inr ⟨head, host, by rw [hshake], hhost, rfl⟩)
      · exact .inl h
    · exact .inl h
  | request conn written profile tries => exact .inl h

/-- Every tunnel that is read from was terminated, however the run came to it. -/
theorem conns_terminated (certs : Certificates) (door : Door) (codexAccounts : Nat)
    (acts : List ListenAct) :
    ∀ conn ∈ (exec (Listener.step certs) ⟨door, codexAccounts, []⟩ acts).conns,
      ∀ host, conn.intercepted = some host →
        TerminatedIn certs ⟨door, codexAccounts, []⟩ acts conn host := by
  induction acts using List.reverseRecOn with
  | nil =>
    intro conn h
    cases h
  | append_singleton acts act ih =>
    intro conn h host hhost
    rw [exec_snoc] at h
    rcases mem_conns_step h with h | h | ⟨head, other, rfl, hterminated, hother⟩
    · exact (ih conn h host hhost).snoc act
    · rw [h] at hhost
      cases hhost
    · rw [hother, Option.some.injEq] at hhost
      subst hhost
      exact ⟨acts, head, List.prefix_rfl, handle_connect_terminated hterminated⟩

/-- What leaves at a step leaves for a request of an open connection. -/
theorem mem_listener_sends {s : Listener} {act : ListenAct} {e : Sent} (h : e ∈ s.sends act) :
    ∃ conn ∈ s.conns, ∃ written profile tries,
      e ∈ (conn.stamp written).sends s.door profile tries := by
  cases act with
  | request conn written profile tries =>
    unfold Listener.sends at h
    simp only at h
    split at h
    · rename_i c hconn
      exact ⟨c, List.mem_of_getElem? hconn, written, profile, tries, h⟩
    · cases h
  | reload door codexAccounts => cases h
  | accept clientIsLoopback => cases h
  | connect clientIsLoopback head handshake => cases h

/-- In every run, whatever leaves goes to the provider that the tunnel, the host and, where an
account pays, the path of its request are of; and it comes from a tunnel only where one was
terminated whose `CONNECT` named that host, which is pooled for and covered, and to the Codex host
only for a marked client while the pool held a Codex account. -/
theorem sent_agrees (certs : Certificates) (door : Door) (codexAccounts : Nat)
    (acts : List ListenAct) (act : ListenAct) (e : Sent)
    (h : e ∈ (exec (Listener.step certs) ⟨door, codexAccounts, []⟩ acts).sends act) :
    e.Sound (exec (Listener.step certs) ⟨door, codexAccounts, []⟩ acts).door ∧
      ∀ host, e.request.interceptedHost = some host →
        ∃ conn, TerminatedIn certs ⟨door, codexAccounts, []⟩ acts conn host := by
  obtain ⟨conn, hconn, written, profile, tries, hmem⟩ := mem_listener_sends h
  obtain ⟨hsound, hrequest⟩ := sends_sound hmem
  refine ⟨hsound, fun host hhost => ⟨conn, ?_⟩⟩
  rw [hrequest] at hhost
  exact conns_terminated certs door codexAccounts acts conn hconn host hhost

theorem connect_terminated {certs : Certificates} {s : Listener} {head : List Char}
    {host : String} (clientIsLoopback : Bool)
    (h : handleConnect certs s.codexAccounts head = .terminated host) :
    s.step certs (.connect clientIsLoopback head true) =
      { s with conns := s.conns ++ [⟨clientIsLoopback, some host⟩] } := by
  rw [Listener.step, h]
  rfl

theorem connect_door (certs : Certificates) (s : Listener) (clientIsLoopback : Bool)
    (head : List Char) (handshake : Bool) :
    (s.step certs (.connect clientIsLoopback head handshake)).door = s.door := by
  unfold Listener.step
  simp only
  split
  · split <;> rfl
  · rfl

def keyedDoor : Door := ⟨⟨none, some "k"⟩, .off, none⟩

/-- A tunnel to the Codex host, by a client that says it is Codex. -/
def codexTunnel : ListenAct :=
  .connect true ("CONNECT chatgpt.com:443 HTTP/1.1\r\n" ++
    "Proxy-Authorization: Basic dGNyLWNvZGV4Og==\r\n\r\n").toList true

/-- A model call in that tunnel, under the client's own bearer and the request key. -/
def codexCall : ClientRequest :=
  ⟨"POST", none, "/backend-api/codex/responses",
    ⟨[("host", .text "chatgpt.com"), ("authorization", .text "Bearer own"),
      ("x-tcr-key", .text "k")]⟩⟩

/-- What leaves for it, on one try. -/
def codexSent : Sent :=
  ⟨.codex, .pooled "pool", ⟨codexCall, true, some "chatgpt.com"⟩,
    ⟨[("authorization", .text "Bearer pool"), ("chatgpt-account-id", .text "id")]⟩⟩

theorem codex_sent : codexSent ∈ (exec (Listener.step ⟨["chatgpt.com"], true⟩) ⟨keyedDoor, 1, []⟩
    [codexTunnel]).sends (.request 0 codexCall (fun _ => none) [("pool", some "id")]) := by
  have hconnect : handleConnect ⟨["chatgpt.com"], true⟩ 1 ("CONNECT chatgpt.com:443 HTTP/1.1\r\n" ++
      "Proxy-Authorization: Basic dGNyLWNvZGV4Og==\r\n\r\n").toList =
        .terminated "chatgpt.com" := by
    rw [String.toList_append, String.toList_ofList, String.toList_ofList]
    decide +kernel
  have hconn : exec (Listener.step ⟨["chatgpt.com"], true⟩) ⟨keyedDoor, 1, []⟩ [codexTunnel] =
      ⟨keyedDoor, 1, [⟨true, some "chatgpt.com"⟩]⟩ := by
    unfold codexTunnel
    rw [exec_cons, exec_nil, connect_terminated (s := ⟨keyedDoor, 1, []⟩) true hconnect]
    rfl
  rw [hconn]
  decide +kernel

theorem sent_agrees_once : codexSent.Sound keyedDoor ∧ ∃ conn, TerminatedIn
    ⟨["chatgpt.com"], true⟩ ⟨keyedDoor, 1, []⟩ [codexTunnel] conn "chatgpt.com" := by
  obtain ⟨hsound, htunnel⟩ := sent_agrees ⟨["chatgpt.com"], true⟩ keyedDoor 1 [codexTunnel]
    (.request 0 codexCall (fun _ => none) [("pool", some "id")]) codexSent codex_sent
  rw [exec_cons, exec_nil, codexTunnel, connect_door] at hsound
  exact ⟨hsound, htunnel "chatgpt.com" rfl⟩

/-- In every run, nothing that leaves carries a key of this proxy, and its bearer is the account's
where an account pays and the client's own where the client does. -/
theorem keys_stay_home (certs : Certificates) (door : Door) (codexAccounts : Nat)
    (acts : List ListenAct) (act : ListenAct) (e : Sent)
    (h : e ∈ (exec (Listener.step certs) ⟨door, codexAccounts, []⟩ acts).sends act) :
    e.Kept (exec (Listener.step certs) ⟨door, codexAccounts, []⟩ acts).door.secrets := by
  obtain ⟨conn, -, written, profile, tries, hmem⟩ := mem_listener_sends h
  exact sends_kept hmem

theorem keys_stay_home_once : codexSent.Kept keyedDoor.secrets := by
  have hkept := keys_stay_home ⟨["chatgpt.com"], true⟩ keyedDoor 1 [codexTunnel]
    (.request 0 codexCall (fun _ => none) [("pool", some "id")]) codexSent codex_sent
  rw [exec_cons, exec_nil, codexTunnel, connect_door] at hkept
  exact hkept

end Runs

end TeamClaude.FrontDoor
