import TeamClaude.Provider
import TeamClaude.Proxy.ToolUse

/-!
# The buffered response reader

What one buffered 2xx body says: the turn's token counts, the tool calls it made and the
account-bound tokens it minted. The usage readers are shared with the streamed arm.
-/

namespace TeamClaude

open Lib.Json (Value)

/-- The token breakdown of a response. -/
structure ParsedUsage where
  inputTotal : UInt64 := 0
  output : UInt64 := 0
  cacheRead : UInt64 := 0
  cacheCreation : UInt64 := 0
  /-- `none` when the response reported no split, never for a reported zero. -/
  cacheCreation1h : Option UInt64 := none
  reasoning : UInt64 := 0
  deriving DecidableEq

/-- A usage count; an absent one is zero. -/
def usageField (usage : Value) (key : String) : UInt64 :=
  (usage.u64 key).getD 0

/-- The quota counter: base input, cache writes and cache reads. -/
def sumInputTokens (usage : Value) : UInt64 :=
  usageField usage "input_tokens" + usageField usage "cache_creation_input_tokens" +
    usageField usage "cache_read_input_tokens"

/-- Cache reads, cache writes, and the part of the writes under the one-hour window. -/
def cacheBreakdown (usage : Value) : UInt64 × UInt64 × Option UInt64 :=
  let cacheCreation := usageField usage "cache_creation_input_tokens"
  let cacheCreation1h := ((usage.get "cache_creation").filter Value.isObject).map fun c =>
    min (usageField c "ephemeral_1h_input_tokens") cacheCreation
  (usageField usage "cache_read_input_tokens", cacheCreation, cacheCreation1h)

/-- The keys the input side of a usage object is read from. -/
def inputKeys : List String :=
  ["input_tokens", "cache_creation_input_tokens", "cache_read_input_tokens", "cache_creation"]

/-- Two usage objects agree on the input side. -/
def SameInput (usage usage' : Value) : Prop :=
  ∀ key ∈ inputKeys, usage.get key = usage'.get key

theorem SameInput.field {usage usage' : Value} (h : SameInput usage usage') {key : String}
    (hk : key ∈ inputKeys) : usageField usage key = usageField usage' key := by
  rw [usageField, usageField, Value.u64, Value.u64, h key hk]

theorem SameInput.sum {usage usage' : Value} (h : SameInput usage usage') :
    sumInputTokens usage = sumInputTokens usage' := by
  rw [sumInputTokens, sumInputTokens, h.field (by decide), h.field (by decide),
    h.field (by decide)]

theorem SameInput.cache {usage usage' : Value} (h : SameInput usage usage') :
    cacheBreakdown usage = cacheBreakdown usage' := by
  simp only [cacheBreakdown, h "cache_creation" (by decide),
    h.field (show "cache_creation_input_tokens" ∈ inputKeys by decide),
    h.field (show "cache_read_input_tokens" ∈ inputKeys by decide)]

/-- A Codex `usage` object in the ledger's shape. -/
def codexParsedUsage (usage : Value) : ParsedUsage :=
  let details := usage.get "input_tokens_details"
  { inputTotal := usageField usage "input_tokens"
    output := usageField usage "output_tokens"
    cacheRead := details.elim 0 fun d => usageField d "cached_tokens"
    cacheCreation := details.elim 0 fun d => usageField d "cache_write_tokens"
    cacheCreation1h := some 0
    reasoning := (usage.get "output_tokens_details").elim 0 fun d =>
      usageField d "reasoning_tokens" }

structure JsonParse where
  usage : ParsedUsage := {}
  model : Option String := none

/-- The token breakdown of a parsed messages body. -/
def usageFromValue (value : Value) (provider : Provider) : JsonParse :=
  match value.get "usage" with
  | none => {}
  | some usage =>
    match provider with
    | .codex => { usage := codexParsedUsage usage, model := value.str "model" }
    | .anthropic =>
      let (cacheRead, cacheCreation, cacheCreation1h) := cacheBreakdown usage
      { usage := {
          inputTotal := sumInputTokens usage
          output := usageField usage "output_tokens"
          cacheRead, cacheCreation, cacheCreation1h
          reasoning := 0 } }

inductive BoundTokenKind
  | serverToolUse
  | thinkingSignature
  | redactedThinking
  | messageId
  deriving DecidableEq

abbrev MintedToken := BoundTokenKind × String

def serverToolUseBlockType : String := "server_tool_use"

def thinkingBlockType : String := "thinking"

def redactedThinkingBlockType : String := "redacted_thinking"

def pendingToolCap : Nat := 64

def boundTokenScanCap : Nat := 16

variable {L : Type} (rd : Readers L)

/-- The `tool_use` events of a body, in order. -/
def responseToolUsesFromValue (value : Value) : List ToolUseEvent :=
  match (value.get "content").bind Value.asArray with
  | none => []
  | some blocks =>
    ((blocks.filter fun b => b.str "type" = some "tool_use").take pendingToolCap).filterMap fun b =>
      (b.str "id").map fun id => toolUseEventFromBlock rd id (b.str "name") (b.get "input")

def mintedByBlock (block : Value) : Option MintedToken :=
  match block.str "type" with
  | some ty =>
    if ty = serverToolUseBlockType then (block.str "id").map fun t => (.serverToolUse, t)
    else if ty = thinkingBlockType then
      (block.str "signature").map fun t => (.thinkingSignature, t)
    else if ty = redactedThinkingBlockType then
      (block.str "data").map fun t => (.redactedThinking, t)
    else none
  | none => none

/-- The loop over the blocks, left once the list is full. -/
def scanBlocks (tokens : List MintedToken) : List Value → List MintedToken
  | [] => tokens
  | block :: blocks =>
    let tokens := tokens ++ (mintedByBlock block).toList
    if boundTokenScanCap ≤ tokens.length then tokens else scanBlocks tokens blocks

/-- The account-bound tokens of a body, its own id first. -/
def responseBoundTokensFromValue (value : Value) : List MintedToken :=
  let tokens := ((value.str "id").map fun id => (BoundTokenKind.messageId, id)).toList
  match (value.get "content").bind Value.asArray with
  | none => tokens
  | some blocks => scanBlocks tokens blocks

/-- Every reading from one buffered body. -/
structure NonStreamedResponse where
  usage : ParsedUsage := {}
  model : Option String := none
  toolUses : List ToolUseEvent := []
  boundTokens : List MintedToken := []

/-- A body that is not JSON yields no readings. -/
def parseNonStreamedResponse (body : String) (provider : Provider) : NonStreamedResponse :=
  match rd.fromStr body with
  | none => {}
  | some value =>
    let parsed := usageFromValue value provider
    let (toolUses, boundTokens) := match provider with
      | .anthropic => (responseToolUsesFromValue rd value, responseBoundTokensFromValue value)
      | .codex => ([], [])
    { usage := parsed.usage, model := parsed.model, toolUses, boundTokens }

section MintedByBlock

variable {block : Value}

theorem minted_by_server_tool (hty : block.str "type" = some serverToolUseBlockType) :
    mintedByBlock block = (block.str "id").map fun t => (.serverToolUse, t) := by
  simp [mintedByBlock, hty]

theorem minted_by_thinking (hty : block.str "type" = some thinkingBlockType) :
    mintedByBlock block = (block.str "signature").map fun t => (.thinkingSignature, t) := by
  simp [mintedByBlock, hty, serverToolUseBlockType, thinkingBlockType]

theorem minted_by_redacted (hty : block.str "type" = some redactedThinkingBlockType) :
    mintedByBlock block = (block.str "data").map fun t => (.redactedThinking, t) := by
  simp [mintedByBlock, hty, serverToolUseBlockType, thinkingBlockType, redactedThinkingBlockType]

theorem minted_by_text (hty : block.str "type" = some "text") : mintedByBlock block = none := by
  simp [mintedByBlock, hty, serverToolUseBlockType, thinkingBlockType, redactedThinkingBlockType]

theorem minted_by_tool (hty : block.str "type" = some "tool_use") : mintedByBlock block = none := by
  simp [mintedByBlock, hty, serverToolUseBlockType, thinkingBlockType, redactedThinkingBlockType]

end MintedByBlock

/-- A scan that never fills the list mints every block's token. -/
theorem scan_blocks_eq {blocks : List Value} {tokens : List MintedToken}
    (h : tokens.length + (blocks.filterMap mintedByBlock).length ≤ boundTokenScanCap) :
    scanBlocks tokens blocks = tokens ++ blocks.filterMap mintedByBlock := by
  induction blocks generalizing tokens with
  | nil => simp [scanBlocks]
  | cons block blocks ih =>
    have hlen : (tokens ++ (mintedByBlock block).toList).length +
        (blocks.filterMap mintedByBlock).length ≤ boundTokenScanCap := by
      cases hb : mintedByBlock block <;> simp [hb] at h ⊢ <;> omega
    have hcons : (block :: blocks).filterMap mintedByBlock =
        (mintedByBlock block).toList ++ blocks.filterMap mintedByBlock := by
      cases hb : mintedByBlock block <;> simp [hb]
    rw [hcons, ← List.append_assoc, ← ih hlen, scanBlocks]
    split
    · rename_i hfull
      have hnil : blocks.filterMap mintedByBlock = [] := List.length_eq_zero_iff.mp (by omega)
      rw [ih hlen, hnil, List.append_nil]
    · rfl

end TeamClaude
