import Mathlib.Data.List.Infix

/-!
# Providers and request classes

The two upstreams an account can belong to, the rule that reads a request's provider off its path,
and the three-way split of a path that account selection routes by.
-/

namespace TeamClaude

/-- The upstream an account belongs to. -/
inductive Provider
  | anthropic
  | codex
  deriving DecidableEq

def startsWith (s pre : String) : Bool :=
  pre.toList.isPrefixOf s.toList

namespace Provider

def codexPathPrefix : String := "/backend-api"

def codexResponsesPath : String := "/backend-api/codex/responses"

def ofPath (path : String) : Provider :=
  if path = codexPathPrefix ∨ startsWith path "/backend-api/" then .codex else .anthropic

/-- Exact matches only: the paths each provider calls inference. -/
def isInferencePath : Provider → String → Bool
  | .anthropic, path => path = "/v1/messages" ∨ path = "/v1/messages/count_tokens"
  | .codex, path =>
    path ∈ [codexResponsesPath, "/backend-api/codex/images/generations",
      "/backend-api/codex/images/edits", "/backend-api/codex/memories/trace_summarize",
      "/backend-api/codex/alpha/search"]

def hasFableBucket : Provider → Bool
  | .anthropic => true
  | .codex => false

/-- May requests of this provider cross the peer mesh? -/
def onPeerMesh : Provider → Bool
  | .anthropic => true
  | .codex => false

end Provider

/-- `str::to_ascii_lowercase`, as the characters of the result. -/
def toAsciiLowercase (s : String) : List Char :=
  s.toList.map Char.toLower

def isFableModel (model : String) : Bool :=
  decide ("fable".toList <:+: toAsciiLowercase model)

/-- The three-way split of an unpinned request. -/
inductive RequestClass
  /-- Pool only, never the control account unless a group or the fleet opted in. -/
  | inference
  /-- High-volume noise that follows the requesting connection. -/
  | noise
  /-- Everything else: the identity plane, which prefers the control account. -/
  | controlPreferred
  deriving DecidableEq

def classifyRequest (path : String) : RequestClass :=
  if (Provider.ofPath path).isInferencePath path then .inference
  else if startsWith path "/api/event_logging" || startsWith path "/mcp-registry" then .noise
  else .controlPreferred

end TeamClaude
