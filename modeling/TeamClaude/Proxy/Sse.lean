import Mathlib.Data.List.AList
import TeamClaude.Lib.Distinct
import TeamClaude.Proxy.Buffered

/-!
# The streamed response reader

`parseSseUsage` as a fold over the events of a stream: one state, one step for each vocabulary, and
a verdict on how the stream ended. Blocks under construction are kept by their stream index.
-/

namespace TeamClaude

open Lib.Json (Value)

/-- One `tool_use` block being assembled. -/
structure OpenToolBlock where
  id : String
  name : Option String
  inputJson : String := ""
  /-- The input was too long and was dropped. -/
  overCap : Bool := false
  deriving DecidableEq

def signatureCap : Nat := 16 * 1024

def toolInputJsonCap : Nat := 64 * 1024

def truncatedStreamErrorKind : String := "truncated"

def blockIndex (event : Value) : Option UInt64 :=
  event.u64 "index"

/-- Add a token, deduplicated and capped. -/
def pushBoundToken (tokens : List MintedToken) (kind : BoundTokenKind) (token : String) :
    List MintedToken :=
  if boundTokenScanCap ≤ tokens.length ∨ ∃ seen ∈ tokens, seen.2 = token then tokens
  else tokens ++ [(kind, token)]

theorem push_bound_token_eq (tokens : List MintedToken) (kind : BoundTokenKind) (token : String) :
    pushBoundToken tokens kind token =
      Lib.Distinct.push Prod.snd boundTokenScanCap tokens (kind, token) := rfl

/-- What is known so far about the stream being read. -/
structure SseState (L : Type) where
  parsed : ParsedUsage := {}
  model : Option String := none
  streamError : Option String := none
  codexStreamLimit : Option L := none
  sawAnyEvent : Bool := false
  sawMessageStart : Bool := false
  sawMessageStop : Bool := false
  sawCodexEnd : Bool := false
  openToolBlocks : AList fun _ : UInt64 => OpenToolBlock := ∅
  toolUses : List ToolUseEvent := []
  codexToolCalls : List CodexToolCall := []
  boundTokens : List MintedToken := []
  openSignatures : AList fun _ : UInt64 => String := ∅

variable {L : Type} (rd : Readers L)

section Codex

/-- A terminal event's usage, and the model that served the turn. -/
def codexTerminalUsage (event : Value) : Option JsonParse :=
  if event.str "type" = some "response.completed" ∨
      event.str "type" = some "response.incomplete" then
    (event.get "response").bind fun response =>
      ((response.get "usage").filter fun u => !u.isNull).map fun usage =>
        { usage := codexParsedUsage usage, model := response.str "model" }
  else none

def codexErrorKind (error : Option Value) : String :=
  (error.bind fun e => e.str "code").getD "unknown"

/-- A failure is recorded once: the first one names the cause. -/
def codexFailure (s : SseState L) (error : Option Value) : SseState L :=
  if s.streamError.isNone then
    { s with
      codexStreamLimit := error.bind rd.limitFromError
      streamError := some (codexErrorKind error) }
  else s

def codexEvent (s : SseState L) (value : Value) : SseState L :=
  let s := match codexTerminalUsage value with
    | some terminal => { s with parsed := terminal.usage, model := terminal.model }
    | none => s
  let s := match value.str "type" with
    | some "response.completed" | some "response.incomplete" => { s with sawCodexEnd := true }
    | some "response.failed" =>
      codexFailure rd { s with sawCodexEnd := true }
        ((value.get "response").bind fun r => r.get "error")
    | some "error" => codexFailure rd s (value.get "error")
    | _ => s
  if value.str "type" = some "response.output_item.done" ∧
      s.codexToolCalls.length < pendingToolCap then
    match (value.get "item").bind (codexToolCallFromItem rd) with
    | some call => { s with codexToolCalls := s.codexToolCalls ++ [call] }
    | none => s
  else s

end Codex

section Anthropic

def mint (s : SseState L) (kind : BoundTokenKind) (token : String) : SseState L :=
  { s with boundTokens := pushBoundToken s.boundTokens kind token }

def onMessageStart (s : SseState L) (value : Value) : SseState L :=
  let message := value.get "message"
  let s := { s with sawMessageStart := true }
  let s := match message.bind fun m => m.str "id" with
    | some id => mint s .messageId id
    | none => s
  match message.bind fun m => m.get "usage" with
  | some usage =>
    let (cacheRead, cacheCreation, cacheCreation1h) := cacheBreakdown usage
    { s with
      parsed := { s.parsed with
        inputTotal := sumInputTokens usage
        cacheRead, cacheCreation, cacheCreation1h
        output := (usage.u64 "output_tokens").getD s.parsed.output } }
  | none => s

def onMessageDelta (s : SseState L) (value : Value) : SseState L :=
  match (value.get "usage").bind fun u => u.u64 "output_tokens" with
  | some out => { s with parsed := { s.parsed with output := out } }
  | none => s

/-- Tokens whole at the start are minted; a reasoning block's signature buffer is opened. -/
def openSignature (s : SseState L) (value : Value) : SseState L :=
  let block := value.get "content_block"
  match block.bind fun b => b.str "type" with
  | some ty =>
    if ty = serverToolUseBlockType then
      match block.bind fun b => b.str "id" with
      | some id => mint s .serverToolUse id
      | none => s
    else if ty = thinkingBlockType then
      match blockIndex value with
      | some index =>
        let head := (block.bind fun b => b.str "signature").getD ""
        { s with openSignatures := s.openSignatures.insert index head }
      | none => s
    else if ty = redactedThinkingBlockType then
      match block.bind fun b => b.str "data" with
      | some data => mint s .redactedThinking data
      | none => s
    else s
  | none => s

def openToolBlock (s : SseState L) (value : Value) : SseState L :=
  let block := value.get "content_block"
  if (block.bind fun b => b.str "type") = some "tool_use" then
    match blockIndex value, block.bind fun b => b.str "id" with
    | some index, some id =>
      if s.openToolBlocks.entries.length < pendingToolCap then
        let opened : OpenToolBlock := { id, name := block.bind fun b => b.str "name" }
        { s with openToolBlocks := s.openToolBlocks.insert index opened }
      else s
    | _, _ => s
  else s

def onBlockStart (s : SseState L) (value : Value) : SseState L :=
  openToolBlock (openSignature s value) value

/-- The `field` text of an event's `delta`, when the delta is of type `kind`. -/
def deltaText (value : Value) (kind field : String) : Option String :=
  ((value.get "delta").filter fun d => d.str "type" = some kind).bind fun d => d.str field

def signatureFragment (value : Value) : Option String :=
  deltaText value "signature_delta" "signature"

def inputFragment (value : Value) : Option String :=
  deltaText value "input_json_delta" "partial_json"

/-- A signature past its cap is dropped whole. -/
def extendSignature (signature fragment : String) : String :=
  if signature.utf8ByteSize + fragment.utf8ByteSize ≤ signatureCap then signature ++ fragment
  else ""

/-- An input past its cap is dropped, and stays dropped. -/
def OpenToolBlock.extend (block : OpenToolBlock) (partialJson : String) : OpenToolBlock :=
  if toolInputJsonCap < block.inputJson.utf8ByteSize + partialJson.utf8ByteSize then
    { block with overCap := true, inputJson := "" }
  else if !block.overCap then { block with inputJson := block.inputJson ++ partialJson }
  else block

def appendSignature (s : SseState L) (value : Value) : SseState L :=
  match blockIndex value, signatureFragment value with
  | some index, some fragment =>
    match s.openSignatures.lookup index with
    | some signature =>
      { s with openSignatures := s.openSignatures.insert index (extendSignature signature fragment) }
    | none => s
  | _, _ => s

def appendInput (s : SseState L) (value : Value) : SseState L :=
  match blockIndex value, inputFragment value with
  | some index, some partialJson =>
    match s.openToolBlocks.lookup index with
    | some block =>
      { s with openToolBlocks := s.openToolBlocks.insert index (block.extend partialJson) }
    | none => s
  | _, _ => s

def onBlockDelta (s : SseState L) (value : Value) : SseState L :=
  appendInput (appendSignature s value) value

/-- A reasoning block's signature is complete at its stop. -/
def closeSignature (s : SseState L) (index : UInt64) : SseState L :=
  match s.openSignatures.lookup index with
  | some signature =>
    let s := { s with openSignatures := s.openSignatures.erase index }
    if signature ≠ "" then mint s .thinkingSignature signature else s
  | none => s

/-- A tool block's input is read at its stop. -/
def closeToolBlock (s : SseState L) (index : UInt64) : SseState L :=
  match s.openToolBlocks.lookup index with
  | some block =>
    let input := if block.overCap then none else rd.fromStr block.inputJson
    { s with
      openToolBlocks := s.openToolBlocks.erase index
      toolUses := s.toolUses ++ [toolUseEventFromBlock rd block.id block.name input] }
  | none => s

def onBlockStop (s : SseState L) (value : Value) : SseState L :=
  match blockIndex value with
  | some index => closeToolBlock rd (closeSignature s index) index
  | none => s

def onError (s : SseState L) (value : Value) : SseState L :=
  if s.streamError.isNone then
    { s with
      streamError := some (((value.get "error").bind fun e => e.str "type").getD "unknown") }
  else s

def anthropicEvent (s : SseState L) (value : Value) : SseState L :=
  match value.str "type" with
  | some "message_start" => onMessageStart s value
  | some "message_delta" => onMessageDelta s value
  | some "message_stop" => { s with sawMessageStop := true }
  | some "content_block_start" => onBlockStart s value
  | some "content_block_delta" => onBlockDelta s value
  | some "content_block_stop" => onBlockStop rd s value
  | some "error" => onError s value
  | _ => s

end Anthropic

/-- What the event decoder hands over: an event's data, or the fault that ends the read. -/
inductive SseItem
  | event (data : String)
  | fault

def readEvent (provider : Provider) (s : SseState L) (data : String) : SseState L :=
  if data = "" then s
  else
    let s := { s with sawAnyEvent := true }
    match rd.fromStr data with
    | none => s
    | some value =>
      match provider with
      | .codex => codexEvent rd s value
      | .anthropic => anthropicEvent rd s value

/-- The read loop: a fault breaks it and the totals are kept. -/
def readItems (provider : Provider) (s : SseState L) : List SseItem → SseState L
  | [] => s
  | .fault :: _ => s
  | .event data :: items => readItems provider (readEvent rd provider s data) items

/-- What one pass learned about a streamed turn. -/
structure SseParse (L : Type) where
  usage : ParsedUsage
  model : Option String
  streamError : Option String
  codexStreamLimit : Option L
  toolUses : List ToolUseEvent
  boundTokens : List MintedToken
  codexToolCalls : List CodexToolCall

/-- A stream that stops short of its terminator is truncated, unless an error already said why or
its events show it never was a turn. -/
def endsTruncated (provider : Provider) (path : String) (s : SseState L) : Bool :=
  let sawTurnEnd := s.sawMessageStop || s.sawCodexEnd
  let confirmedTurn := match provider with
    | .anthropic => s.sawMessageStart
    | .codex => true
  let expectsTurnEnd := match provider with
    | .anthropic => true
    | .codex => path = Provider.codexResponsesPath
  expectsTurnEnd && !sawTurnEnd && s.streamError.isNone && (confirmedTurn || !s.sawAnyEvent)

def parseSseUsage (items : List SseItem) (provider : Provider) (path : String) : SseParse L :=
  let s := readItems rd provider {} items
  { usage := s.parsed
    model := s.model
    streamError :=
      if endsTruncated provider path s then some truncatedStreamErrorKind else s.streamError
    codexStreamLimit := s.codexStreamLimit
    toolUses := s.toolUses
    boundTokens := s.boundTokens
    codexToolCalls := s.codexToolCalls }

end TeamClaude
