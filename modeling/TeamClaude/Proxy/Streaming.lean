import TeamClaude.Proxy.Sse

/-!
# Streaming a messages response

`MessagesResponse` is a parsed messages body and `MessageStream` one way of sending it as events:
`message_start`, the blocks in order, each as its start, its deltas and its stop, then
`message_delta` and `message_stop`. The lemmas follow the stream reader over one block and over a
whole stream.
-/

namespace TeamClaude

open Lib.Json (Value)

/-- A messages body: its usage object and its content blocks. -/
structure MessagesResponse where
  body : Value
  usage : Value
  blocks : List Value
  usage_eq : body.get "usage" = some usage
  content_eq : body.get "content" = some (.array blocks)
  typed : ∀ b ∈ blocks, ∃ ty ∈ ["text", "tool_use", serverToolUseBlockType, thinkingBlockType,
    redactedThinkingBlockType], b.str "type" = some ty
  object_input : ∀ b ∈ blocks, b.str "type" = some "tool_use" →
    ∃ fields, b.get "input" = some (.object fields)

/-- Texts put together in order, after `head`. -/
def assembled (head : String) (fragments : List String) : String :=
  fragments.foldl (· ++ ·) head

variable {L : Type} (rd : Readers L)

/-- What a block's start carries of the block. -/
def headKeys : List String :=
  ["type", "id", "name", "data"]

/-- One way of streaming a content block. The start carries the block's type, id, name and data;
its signature and the JSON text of its input may be cut anywhere. -/
structure BlockStream (block : Value) where
  index : UInt64
  head : Value
  start : Value
  deltas : List Value
  stop : Value
  start_type : start.str "type" = some "content_block_start"
  start_index : blockIndex start = some index
  start_block : start.get "content_block" = some head
  head_fields : ∀ key ∈ headKeys, head.get key = block.get key
  delta_type : ∀ d ∈ deltas, d.str "type" = some "content_block_delta"
  delta_index : ∀ d ∈ deltas, blockIndex d = some index
  stop_type : stop.str "type" = some "content_block_stop"
  stop_index : blockIndex stop = some index
  signature : block.str "type" = some thinkingBlockType →
    assembled ((head.str "signature").getD "") (deltas.filterMap signatureFragment) =
      (block.str "signature").getD ""
  input : block.str "type" = some "tool_use" →
    rd.fromStr (assembled "" (deltas.filterMap inputFragment)) = block.get "input"

namespace BlockStream

variable {rd} {block : Value}

def events (bs : BlockStream rd block) : List Value :=
  bs.start :: (bs.deltas ++ [bs.stop])

/-- The text of the block's input is within the buffer's cap. -/
def InputFits (bs : BlockStream rd block) : Prop :=
  block.str "type" = some "tool_use" →
    (assembled "" (bs.deltas.filterMap inputFragment)).utf8ByteSize ≤ toolInputJsonCap

end BlockStream

structure MessageStream (m : MessagesResponse) where
  start : Value
  message : Value
  startUsage : Value
  blocks : List ((block : Value) × BlockStream rd block)
  delta : Value
  deltaUsage : Value
  stop : Value
  start_type : start.str "type" = some "message_start"
  start_message : start.get "message" = some message
  message_id : message.get "id" = m.body.get "id"
  message_usage : message.get "usage" = some startUsage
  same_input : SameInput startUsage m.usage
  blocks_eq : blocks.map Sigma.fst = m.blocks
  delta_type : delta.str "type" = some "message_delta"
  delta_usage : delta.get "usage" = some deltaUsage
  final_output : deltaUsage.u64 "output_tokens" = some (usageField m.usage "output_tokens")
  stop_type : stop.str "type" = some "message_stop"

namespace MessageStream

variable {rd} {m : MessagesResponse}

/-- Every event but the last. -/
def body (ms : MessageStream rd m) : List Value :=
  ms.start :: (ms.blocks.flatMap fun b => b.2.events) ++ [ms.delta]

def events (ms : MessageStream rd m) : List Value :=
  ms.body ++ [ms.stop]

end MessageStream

/-- Nothing a response or its stream carries is longer than the parsers keep. -/
structure WithinCaps {m : MessagesResponse} (ms : MessageStream rd m) : Prop where
  tools : (m.blocks.filter fun b => b.str "type" = some "tool_use").length ≤ pendingToolCap
  tokens : (m.body.str "id").toList.length + (m.blocks.filterMap mintedByBlock).length ≤
    boundTokenScanCap
  signatures : ∀ b ∈ m.blocks, b.str "type" = some thinkingBlockType →
    ((b.str "signature").getD "").utf8ByteSize ≤ signatureCap
  inputs : ∀ b ∈ ms.blocks, b.2.InputFits

/-- `data` is the text of the event `value`. -/
def Encodes (data : String) (value : Value) : Prop :=
  data ≠ "" ∧ rd.fromStr data = some value

/-- One parsed event of a Messages stream. -/
def seeEvent (s : SseState L) (value : Value) : SseState L :=
  anthropicEvent rd { s with sawAnyEvent := true } value

variable {rd}

theorem read_items_eq {datas : List String} {values : List Value} (s : SseState L)
    (h : List.Forall₂ (Encodes rd) datas values) :
    readItems rd .anthropic s (datas.map .event) = values.foldl (seeEvent rd) s := by
  induction h generalizing s with
  | nil => rfl
  | cons hd _ ih =>
    obtain ⟨hne, hparse⟩ := hd
    rw [List.map_cons, readItems, ih, List.foldl_cons]
    simp only [readEvent, hne, hparse, if_false, seeEvent]

theorem see_event_eq {s : SseState L} (h : s.sawAnyEvent = true) (value : Value) :
    seeEvent rd s value = anthropicEvent rd s value := by
  obtain ⟨⟩ := s
  cases h
  rfl

section Buffers

theorem utf8_le_assembled (head : String) (fragments : List String) :
    head.utf8ByteSize ≤ (assembled head fragments).utf8ByteSize := by
  induction fragments generalizing head with
  | nil => exact le_rfl
  | cons f fs ih =>
    have h := ih (head ++ f)
    rw [String.utf8ByteSize_append] at h
    exact (Nat.le_add_right _ _).trans h

/-- A signature within the cap is extended by every fragment. -/
theorem extend_signature_fits {signature fragment : String} {fragments : List String}
    (h : (assembled signature (fragment :: fragments)).utf8ByteSize ≤ signatureCap) :
    extendSignature signature fragment = signature ++ fragment := by
  have hle := (utf8_le_assembled (signature ++ fragment) fragments).trans h
  rw [String.utf8ByteSize_append] at hle
  rw [extendSignature, if_pos hle]

theorem extend_block_fits {block : OpenToolBlock} {fragment : String} {fragments : List String}
    (hcap : block.overCap = false)
    (h : (assembled block.inputJson (fragment :: fragments)).utf8ByteSize ≤ toolInputJsonCap) :
    block.extend fragment = { block with inputJson := block.inputJson ++ fragment } := by
  have hle := (utf8_le_assembled (block.inputJson ++ fragment) fragments).trans h
  rw [String.utf8ByteSize_append] at hle
  rw [OpenToolBlock.extend, if_neg (by omega), hcap]
  rfl

theorem lookup_singleton {β : Type} (i : UInt64) (b : β) :
    (AList.singleton i b : AList fun _ : UInt64 => β).lookup i = some b := by
  simp [AList.lookup]

theorem erase_singleton {β : Type} (i : UInt64) (b : β) :
    (AList.singleton i b : AList fun _ : UInt64 => β).erase i = ∅ := by
  apply AList.ext
  show List.kerase i ([⟨i, b⟩] : List (Sigma fun _ : UInt64 => β)) = []
  exact List.kerase_cons_eq rfl

end Buffers

/-- No block is open. -/
structure SseState.Settled (s : SseState L) : Prop where
  seen : s.sawAnyEvent = true
  tools : s.openToolBlocks = ∅
  signatures : s.openSignatures = ∅

/-- The reasoning block `i` is open, its signature read up to `signature`. -/
def SseState.reading (s : SseState L) (i : UInt64) (signature : String) : SseState L :=
  { s with openSignatures := .singleton i signature }

/-- The tool block `i` is open. -/
def SseState.calling (s : SseState L) (i : UInt64) (block : OpenToolBlock) : SseState L :=
  { s with openToolBlocks := .singleton i block }

section Deltas

variable {s : SseState L} {d : Value} {i : UInt64}

theorem append_signature_idle (h : s.openSignatures = ∅) : appendSignature s d = s := by
  unfold appendSignature
  rw [h]
  cases blockIndex d <;> cases signatureFragment d <;> rfl

theorem append_input_idle (h : s.openToolBlocks = ∅) : appendInput s d = s := by
  unfold appendInput
  rw [h]
  cases blockIndex d <;> cases inputFragment d <;> rfl

theorem see_delta (hs : s.sawAnyEvent = true) (hty : d.str "type" = some "content_block_delta") :
    seeEvent rd s d = appendInput (appendSignature s d) d := by
  rw [see_event_eq hs]
  simp only [anthropicEvent, hty, onBlockDelta]

theorem see_stop (hs : s.sawAnyEvent = true) (hty : d.str "type" = some "content_block_stop")
    (hi : blockIndex d = some i) :
    seeEvent rd s d = closeToolBlock rd (closeSignature s i) i := by
  rw [see_event_eq hs]
  simp only [anthropicEvent, hty, onBlockStop, hi]

/-- Between blocks a delta changes nothing. -/
theorem deltas_idle {ds : List Value} (hs : s.Settled)
    (hty : ∀ d ∈ ds, d.str "type" = some "content_block_delta") :
    ds.foldl (seeEvent rd) s = s := by
  induction ds with
  | nil => rfl
  | cons d ds ih =>
    obtain ⟨hd, hds⟩ := List.forall_mem_cons.mp hty
    rw [List.foldl_cons, see_delta hs.seen hd, append_signature_idle hs.signatures,
      append_input_idle hs.tools, ih hds]

/-- The deltas of an open reasoning block put its signature together. -/
theorem deltas_reading {ds : List Value} {signature : String} (hs : s.Settled)
    (hty : ∀ d ∈ ds, d.str "type" = some "content_block_delta")
    (hi : ∀ d ∈ ds, blockIndex d = some i)
    (hfit : (assembled signature (ds.filterMap signatureFragment)).utf8ByteSize ≤ signatureCap) :
    ds.foldl (seeEvent rd) (s.reading i signature) =
      s.reading i (assembled signature (ds.filterMap signatureFragment)) := by
  induction ds generalizing signature with
  | nil => rfl
  | cons d ds ih =>
    obtain ⟨hd, hds⟩ := List.forall_mem_cons.mp hty
    obtain ⟨hid, hids⟩ := List.forall_mem_cons.mp hi
    have hseen : (s.reading i signature).sawAnyEvent = true := hs.seen
    rw [List.foldl_cons, see_delta hseen hd, append_input_idle]
    · cases hf : signatureFragment d with
      | none =>
        have hstay : appendSignature (s.reading i signature) d = s.reading i signature := by
          simp only [appendSignature, hid, hf]
        rw [List.filterMap_cons_none hf] at hfit ⊢
        rw [hstay, ih hds hids hfit]
      | some fragment =>
        rw [List.filterMap_cons_some hf] at hfit ⊢
        have hgrow : appendSignature (s.reading i signature) d =
            s.reading i (signature ++ fragment) := by
          simp only [appendSignature, hid, hf, SseState.reading, lookup_singleton,
            extend_signature_fits hfit, AList.insert_singleton_eq]
        rw [hgrow, ih hds hids hfit]
        rfl
    · unfold appendSignature
      split
      · split <;> exact hs.tools
      · exact hs.tools

theorem deltas_calling {ds : List Value} {block : OpenToolBlock} (hs : s.Settled)
    (hcap : block.overCap = false)
    (hty : ∀ d ∈ ds, d.str "type" = some "content_block_delta")
    (hi : ∀ d ∈ ds, blockIndex d = some i)
    (hfit : (assembled block.inputJson (ds.filterMap inputFragment)).utf8ByteSize ≤
      toolInputJsonCap) :
    ds.foldl (seeEvent rd) (s.calling i block) =
      s.calling i { block with
        inputJson := assembled block.inputJson (ds.filterMap inputFragment) } := by
  induction ds generalizing block with
  | nil => rfl
  | cons d ds ih =>
    obtain ⟨hd, hds⟩ := List.forall_mem_cons.mp hty
    obtain ⟨hid, hids⟩ := List.forall_mem_cons.mp hi
    have hseen : (s.calling i block).sawAnyEvent = true := hs.seen
    have hquiet : appendSignature (s.calling i block) d = s.calling i block :=
      append_signature_idle hs.signatures
    rw [List.foldl_cons, see_delta hseen hd, hquiet]
    cases hf : inputFragment d with
    | none =>
      have hstay : appendInput (s.calling i block) d = s.calling i block := by
        simp only [appendInput, hid, hf]
      rw [List.filterMap_cons_none hf] at hfit ⊢
      rw [hstay, ih hcap hds hids hfit]
    | some fragment =>
      rw [List.filterMap_cons_some hf] at hfit ⊢
      have hgrow : appendInput (s.calling i block) d =
          s.calling i { block with inputJson := block.inputJson ++ fragment } := by
        simp only [appendInput, hid, hf, SseState.calling, lookup_singleton,
          extend_block_fits hcap hfit, AList.insert_singleton_eq]
      rw [hgrow, @ih { block with inputJson := block.inputJson ++ fragment } hcap hds hids hfit]
      rfl

end Deltas

/-- The token a streamed block mints: an empty signature is not one. -/
def streamedByBlock (block : Value) : Option MintedToken :=
  (mintedByBlock block).filter fun token => token ≠ (.thinkingSignature, "")

/-- The event of a `tool_use` block. -/
def toolUseOfBlock (rd : Readers L) (block : Value) : Option ToolUseEvent :=
  if block.str "type" = some "tool_use" then
    (block.str "id").map fun id =>
      toolUseEventFromBlock rd id (block.str "name") (block.get "input")
  else none

def SseState.afterBlock (rd : Readers L) (s : SseState L) (block : Value) : SseState L :=
  { s with
    boundTokens := Lib.Distinct.pushAll Prod.snd boundTokenScanCap s.boundTokens
      (streamedByBlock block).toList
    toolUses := s.toolUses ++ (toolUseOfBlock rd block).toList }

section Blocks

variable {s : SseState L} {block : Value}

theorem SseState.Settled.after_block (hs : s.Settled) : (s.afterBlock rd block).Settled :=
  ⟨hs.seen, hs.tools, hs.signatures⟩

/-- A block that is no tool call adds the token it mints. -/
theorem after_block_minting {kind : BoundTokenKind} {text : String}
    (hty : block.str "type" ≠ some "tool_use") (h : mintedByBlock block = some (kind, text))
    (hne : (kind, text) ≠ (.thinkingSignature, "")) :
    s.afterBlock rd block = mint s kind text := by
  have hstreamed : streamedByBlock block = some (kind, text) := by
    rw [streamedByBlock, h]
    exact Option.filter_some_pos (decide_eq_true hne)
  simp only [SseState.afterBlock, toolUseOfBlock, hty, hstreamed, if_false, Option.toList_none,
    List.append_nil, Option.toList_some, mint, push_bound_token_eq, Lib.Distinct.pushAll,
    List.foldl_cons, List.foldl_nil]

theorem after_block_quiet (hty : block.str "type" ≠ some "tool_use")
    (h : mintedByBlock block = none ∨ mintedByBlock block = some (.thinkingSignature, "")) :
    s.afterBlock rd block = s := by
  have hstreamed : streamedByBlock block = none := by
    rcases h with h | h <;> rw [streamedByBlock, h] <;> rfl
  simp only [SseState.afterBlock, toolUseOfBlock, hty, hstreamed, if_false, Option.toList_none,
    List.append_nil, Lib.Distinct.pushAll, List.foldl_nil]

variable (bs : BlockStream rd block)

theorem BlockStream.head_str {key : String} (hk : key ∈ headKeys) :
    bs.head.str key = block.str key :=
  Value.str_congr (bs.head_fields key hk)

theorem see_start (hs : s.sawAnyEvent = true) :
    seeEvent rd s bs.start = openToolBlock (openSignature s bs.start) bs.start := by
  rw [see_event_eq hs]
  simp only [anthropicEvent, bs.start_type, onBlockStart]

theorem open_tool_block_other (hty : block.str "type" ≠ some "tool_use") :
    openToolBlock s bs.start = s := by
  have hhead : bs.head.str "type" ≠ some "tool_use" := by rwa [bs.head_str (by decide)]
  simp only [openToolBlock, bs.start_block, Option.bind_some, hhead, if_false]

theorem close_tool_block_none (i : UInt64) (h : s.openToolBlocks = ∅) :
    closeToolBlock rd s i = s := by
  unfold closeToolBlock
  rw [h]
  rfl

theorem close_signature_none (i : UInt64) (h : s.openSignatures = ∅) :
    closeSignature s i = s := by
  unfold closeSignature
  rw [h]
  rfl

/-- A block whose start opens nothing adds what its start added. -/
theorem read_block_idle (hstart : seeEvent rd s bs.start = s.afterBlock rd block)
    (hs : s.Settled) : bs.events.foldl (seeEvent rd) s = s.afterBlock rd block := by
  have hs' : (s.afterBlock rd block).Settled := hs.after_block
  rw [BlockStream.events, List.foldl_cons, List.foldl_append, hstart,
    deltas_idle hs' bs.delta_type, List.foldl_cons, List.foldl_nil,
    see_stop hs'.seen bs.stop_type bs.stop_index, close_signature_none _ hs'.signatures,
    close_tool_block_none _ hs'.tools]

theorem read_text (hs : s.Settled) (hty : block.str "type" = some "text") :
    bs.events.foldl (seeEvent rd) s = s.afterBlock rd block := by
  have htool : block.str "type" ≠ some "tool_use" := by simp [hty]
  have hhead := (bs.head_str (by decide)).trans hty
  refine read_block_idle bs ?_ hs
  rw [see_start bs hs.seen, open_tool_block_other bs htool,
    after_block_quiet htool (.inl (minted_by_text hty))]
  simp [openSignature, bs.start_block, hhead, serverToolUseBlockType, thinkingBlockType,
    redactedThinkingBlockType]

theorem read_server_tool (hs : s.Settled)
    (hty : block.str "type" = some serverToolUseBlockType) :
    bs.events.foldl (seeEvent rd) s = s.afterBlock rd block := by
  have htool : block.str "type" ≠ some "tool_use" := by simp [hty, serverToolUseBlockType]
  have hhead := (bs.head_str (by decide)).trans hty
  have hid : bs.head.str "id" = block.str "id" := bs.head_str (by decide)
  have hminted := minted_by_server_tool hty
  refine read_block_idle bs ?_ hs
  rw [see_start bs hs.seen, open_tool_block_other bs htool]
  cases hb : block.str "id" with
  | none =>
    rw [after_block_quiet htool (.inl (by rw [hminted, hb]; rfl))]
    simp [openSignature, bs.start_block, hhead, hid, hb]
  | some id =>
    rw [after_block_minting htool (by rw [hminted, hb]; rfl) (by simp)]
    simp [openSignature, bs.start_block, hhead, hid, hb]

theorem read_redacted (hs : s.Settled)
    (hty : block.str "type" = some redactedThinkingBlockType) :
    bs.events.foldl (seeEvent rd) s = s.afterBlock rd block := by
  have htool : block.str "type" ≠ some "tool_use" := by simp [hty, redactedThinkingBlockType]
  have hhead := (bs.head_str (by decide)).trans hty
  have hdata : bs.head.str "data" = block.str "data" := bs.head_str (by decide)
  have hminted := minted_by_redacted hty
  refine read_block_idle bs ?_ hs
  rw [see_start bs hs.seen, open_tool_block_other bs htool]
  cases hb : block.str "data" with
  | none =>
    rw [after_block_quiet htool (.inl (by rw [hminted, hb]; rfl))]
    simp [openSignature, bs.start_block, hhead, hdata, hb, serverToolUseBlockType,
      thinkingBlockType, redactedThinkingBlockType]
  | some data =>
    rw [after_block_minting htool (by rw [hminted, hb]; rfl) (by simp)]
    simp [openSignature, bs.start_block, hhead, hdata, hb, serverToolUseBlockType,
      thinkingBlockType, redactedThinkingBlockType]

/-- A reasoning block's stop mints the signature read, unless it is empty. -/
theorem close_signature_reading (hs : s.Settled) (i : UInt64) (signature : String) :
    closeSignature (s.reading i signature) i =
      if signature ≠ "" then mint s .thinkingSignature signature else s := by
  have hback : { s.reading i signature with openSignatures := ∅ } = s := by
    obtain ⟨⟩ := s
    cases hs.signatures
    rfl
  simp only [closeSignature, SseState.reading, lookup_singleton, erase_singleton]
  simp only [SseState.reading] at hback
  rw [hback]

theorem read_thinking (hs : s.Settled) (hty : block.str "type" = some thinkingBlockType)
    (hfit : ((block.str "signature").getD "").utf8ByteSize ≤ signatureCap) :
    bs.events.foldl (seeEvent rd) s = s.afterBlock rd block := by
  have htool : block.str "type" ≠ some "tool_use" := by simp [hty, thinkingBlockType]
  have hhead := (bs.head_str (by decide)).trans hty
  have hsig := bs.signature hty
  have hminted := minted_by_thinking hty
  have hstart : seeEvent rd s bs.start =
      s.reading bs.index ((bs.head.str "signature").getD "") := by
    rw [see_start bs hs.seen, open_tool_block_other bs htool]
    simp [openSignature, bs.start_block, bs.start_index, hhead, hs.signatures,
      serverToolUseBlockType, thinkingBlockType, SseState.reading]
  have hopen : (s.reading bs.index ((block.str "signature").getD "")).sawAnyEvent = true :=
    hs.seen
  rw [BlockStream.events, List.foldl_cons, List.foldl_append, hstart,
    deltas_reading hs bs.delta_type bs.delta_index (by rw [hsig]; exact hfit), hsig,
    List.foldl_cons, List.foldl_nil, see_stop hopen bs.stop_type bs.stop_index,
    close_signature_reading hs]
  cases hb : block.str "signature" with
  | none =>
    rw [after_block_quiet htool (.inl (by rw [hminted, hb]; rfl))]
    exact close_tool_block_none _ hs.tools
  | some signature =>
    by_cases hempty : signature = ""
    · rw [after_block_quiet htool (.inr (by rw [hminted, hb, hempty]; rfl))]
      simp only [Option.getD_some, hempty, ne_eq, not_true_eq_false, if_false]
      exact close_tool_block_none _ hs.tools
    · rw [after_block_minting htool (by rw [hminted, hb]; rfl) (by simpa using hempty)]
      simp only [Option.getD_some, ne_eq, hempty, not_false_eq_true, if_true]
      exact close_tool_block_none _ hs.tools

/-- A tool block's stop emits its event, with the input read. -/
theorem close_tool_block_calling (hs : s.Settled) (i : UInt64) (opened : OpenToolBlock)
    (hcap : opened.overCap = false) :
    closeToolBlock rd (s.calling i opened) i =
      { s with
        toolUses := s.toolUses ++
          [toolUseEventFromBlock rd opened.id opened.name (rd.fromStr opened.inputJson)] } := by
  have htools := hs.tools
  obtain ⟨⟩ := s
  cases htools
  simp only [closeToolBlock, SseState.calling, lookup_singleton, erase_singleton, hcap]
  rfl

theorem read_tool_use (hs : s.Settled) (hty : block.str "type" = some "tool_use")
    (hfit : bs.InputFits) : bs.events.foldl (seeEvent rd) s = s.afterBlock rd block := by
  have hhead := (bs.head_str (by decide)).trans hty
  have hid : bs.head.str "id" = block.str "id" := bs.head_str (by decide)
  have hname : bs.head.str "name" = block.str "name" := bs.head_str (by decide)
  have hsig : openSignature s bs.start = s := by
    simp [openSignature, bs.start_block, hhead, serverToolUseBlockType, thinkingBlockType,
      redactedThinkingBlockType]
  have hafter : s.afterBlock rd block =
      { s with toolUses := s.toolUses ++ (toolUseOfBlock rd block).toList } := by
    simp only [SseState.afterBlock, streamedByBlock, minted_by_tool hty, Option.filter_none,
      Option.toList_none, Lib.Distinct.pushAll, List.foldl_nil]
  cases hb : block.str "id" with
  | none =>
    refine read_block_idle bs ?_ hs
    rw [see_start bs hs.seen, hsig, hafter]
    simp [openToolBlock, bs.start_block, bs.start_index, hhead, hid, hb, toolUseOfBlock]
  | some id =>
    have hstart : seeEvent rd s bs.start =
        s.calling bs.index { id, name := block.str "name" } := by
      rw [see_start bs hs.seen, hsig]
      simp [openToolBlock, bs.start_block, bs.start_index, hhead, hid, hb, hname, hs.tools,
        pendingToolCap, SseState.calling]
    have hopen : ∀ opened, (s.calling bs.index opened).sawAnyEvent = true := fun _ => hs.seen
    have hread : ∀ opened, (s.calling bs.index opened).openSignatures = ∅ :=
      fun _ => hs.signatures
    rw [BlockStream.events, List.foldl_cons, List.foldl_append, hstart,
      deltas_calling hs rfl bs.delta_type bs.delta_index (hfit hty),
      List.foldl_cons, List.foldl_nil, see_stop (hopen _) bs.stop_type bs.stop_index,
      close_signature_none _ (hread _), close_tool_block_calling hs _ _ rfl, hafter]
    simp [toolUseOfBlock, hty, hb, bs.input hty]

end Blocks

end TeamClaude
