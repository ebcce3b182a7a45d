import TeamClaude.Proxy.Streaming

/-!
# The two response readers

What the buffered reader says of a messages body against what the stream reader says of the body
sent as events. They agree on usage, on tool calls and on how the turn ended; on the tokens minted
they agree exactly when no signature is empty and no text is a token of two kinds.
-/

namespace TeamClaude

open Lib.Json (Value)

variable {L : Type} {rd : Readers L} {m : MessagesResponse}

section Run

theorem read_block {s : SseState L} (ms : MessageStream rd m) (hcaps : WithinCaps rd ms)
    (hs : s.Settled) {b : (block : Value) × BlockStream rd block} (hb : b ∈ ms.blocks) :
    b.2.events.foldl (seeEvent rd) s = s.afterBlock rd b.1 := by
  have hmem : b.1 ∈ m.blocks := by
    rw [← ms.blocks_eq]
    exact List.mem_map_of_mem hb
  obtain ⟨ty, hty, hblock⟩ := m.typed b.1 hmem
  simp only [List.mem_cons, List.not_mem_nil, or_false] at hty
  rcases hty with rfl | rfl | rfl | rfl | rfl
  · exact read_text b.2 hs hblock
  · exact read_tool_use b.2 hs hblock (hcaps.inputs b hb)
  · exact read_server_tool b.2 hs hblock
  · exact read_thinking b.2 hs hblock (hcaps.signatures b.1 hmem hblock)
  · exact read_redacted b.2 hs hblock

def SseState.afterBlocks (rd : Readers L) (s : SseState L) (blocks : List Value) : SseState L :=
  { s with
    boundTokens := Lib.Distinct.pushAll Prod.snd boundTokenScanCap s.boundTokens
      (blocks.filterMap streamedByBlock)
    toolUses := s.toolUses ++ blocks.filterMap (toolUseOfBlock rd) }

theorem after_blocks_cons (s : SseState L) (block : Value) (blocks : List Value) :
    s.afterBlocks rd (block :: blocks) = (s.afterBlock rd block).afterBlocks rd blocks := by
  have hcons : ∀ {β : Type} (f : Value → Option β),
      (block :: blocks).filterMap f = (f block).toList ++ blocks.filterMap f := by
    intro β f
    cases h : f block <;> simp [h]
  simp only [SseState.afterBlocks, SseState.afterBlock, hcons, List.append_assoc,
    Lib.Distinct.pushAll, List.foldl_append]

theorem read_blocks {s : SseState L} (hs : s.Settled)
    {bs : List ((block : Value) × BlockStream rd block)}
    (hread : ∀ b ∈ bs, ∀ {s : SseState L}, s.Settled →
      b.2.events.foldl (seeEvent rd) s = s.afterBlock rd b.1) :
    (bs.flatMap fun b => b.2.events).foldl (seeEvent rd) s =
      s.afterBlocks rd (bs.map Sigma.fst) := by
  induction bs generalizing s with
  | nil =>
    simp [SseState.afterBlocks, Lib.Distinct.pushAll]
  | cons b bs ih =>
    obtain ⟨hb, hbs⟩ := List.forall_mem_cons.mp hread
    rw [List.flatMap_cons, List.foldl_append, hb hs, ih hs.after_block hbs, List.map_cons,
      after_blocks_cons]

/-- The usage a body reports. -/
def MessagesResponse.parsedUsage (m : MessagesResponse) : ParsedUsage :=
  let (cacheRead, cacheCreation, cacheCreation1h) := cacheBreakdown m.usage
  { inputTotal := sumInputTokens m.usage
    output := usageField m.usage "output_tokens"
    cacheRead, cacheCreation, cacheCreation1h }

/-- The state after `message_start`. -/
def MessageStream.opened (ms : MessageStream rd m) : SseState L where
  sawAnyEvent := true
  sawMessageStart := true
  parsed := { m.parsedUsage with output := usageField ms.startUsage "output_tokens" }
  boundTokens := ((m.body.str "id").map fun id => (BoundTokenKind.messageId, id)).toList

theorem read_start (ms : MessageStream rd m) : seeEvent rd {} ms.start = ms.opened := by
  have hid : ms.message.str "id" = m.body.str "id" := Value.str_congr ms.message_id
  cases hb : m.body.str "id" <;>
    simp [seeEvent, anthropicEvent, ms.start_type, onMessageStart, ms.start_message,
      ms.message_usage, hid, hb, ms.same_input.sum, ms.same_input.cache, MessageStream.opened,
      MessagesResponse.parsedUsage, usageField, mint, pushBoundToken, boundTokenScanCap]

theorem opened_settled (ms : MessageStream rd m) : ms.opened.Settled :=
  ⟨rfl, rfl, rfl⟩

/-- The state before `message_stop`. -/
theorem read_body (ms : MessageStream rd m) (hcaps : WithinCaps rd ms) :
    ms.body.foldl (seeEvent rd) {} =
      { ms.opened.afterBlocks rd m.blocks with parsed := m.parsedUsage } := by
  have hblocks := read_blocks (opened_settled ms)
    fun b hb _ hs => read_block ms hcaps hs hb
  rw [MessageStream.body, List.cons_append, List.foldl_cons, List.foldl_append, read_start,
    hblocks, ms.blocks_eq]
  simp [seeEvent, anthropicEvent, ms.delta_type, onMessageDelta, ms.delta_usage,
    ms.final_output, SseState.afterBlocks, MessageStream.opened, MessagesResponse.parsedUsage]

/-- The state a whole stream ends in. -/
theorem read_stream (ms : MessageStream rd m) (hcaps : WithinCaps rd ms) :
    ms.events.foldl (seeEvent rd) {} =
      { ms.opened.afterBlocks rd m.blocks with
        parsed := m.parsedUsage
        sawMessageStop := true } := by
  rw [MessageStream.events, List.foldl_append, read_body ms hcaps]
  simp [seeEvent, anthropicEvent, ms.stop_type, SseState.afterBlocks, MessageStream.opened]

end Run

section Verdict

/-- What the verdict on a stream's end is read from. -/
def SseState.outcome (s : SseState L) : Option String × Bool × Bool × Bool :=
  (s.streamError, s.sawMessageStart, s.sawMessageStop, s.sawCodexEnd)

variable (s : SseState L) (value : Value) (i : UInt64)

theorem on_message_delta_outcome : (onMessageDelta s value).outcome = s.outcome := by
  unfold onMessageDelta
  split <;> rfl

theorem open_signature_outcome : (openSignature s value).outcome = s.outcome := by
  unfold openSignature
  dsimp only
  repeat' first | rfl | split

theorem open_tool_block_outcome : (openToolBlock s value).outcome = s.outcome := by
  unfold openToolBlock
  dsimp only
  repeat' first | rfl | split

theorem append_signature_outcome : (appendSignature s value).outcome = s.outcome := by
  unfold appendSignature
  repeat' first | rfl | split

theorem append_input_outcome : (appendInput s value).outcome = s.outcome := by
  unfold appendInput
  repeat' first | rfl | split

theorem close_signature_outcome : (closeSignature s i).outcome = s.outcome := by
  unfold closeSignature
  repeat' first | rfl | split

theorem close_tool_block_outcome : (closeToolBlock rd s i).outcome = s.outcome := by
  unfold closeToolBlock
  split <;> rfl

/-- An event between `message_start` and `message_stop`. -/
def IsInner (value : Value) : Prop :=
  ∃ ty ∈ ["message_delta", "content_block_start", "content_block_delta", "content_block_stop"],
    value.str "type" = some ty

theorem see_event_outcome (hty : IsInner value) :
    (seeEvent rd s value).outcome = s.outcome := by
  obtain ⟨ty, hmem, hty⟩ := hty
  have hseen : { s with sawAnyEvent := true }.outcome = s.outcome := rfl
  simp only [List.mem_cons, List.not_mem_nil, or_false] at hmem
  rcases hmem with rfl | rfl | rfl | rfl
  · simp only [seeEvent, anthropicEvent, hty, on_message_delta_outcome, hseen]
  · simp only [seeEvent, anthropicEvent, hty, onBlockStart, open_tool_block_outcome,
      open_signature_outcome, hseen]
  · simp only [seeEvent, anthropicEvent, hty, onBlockDelta, append_input_outcome,
      append_signature_outcome, hseen]
  · simp only [seeEvent, anthropicEvent, hty, onBlockStop]
    split
    · rw [close_tool_block_outcome, close_signature_outcome, hseen]
    · exact hseen

/-- The events between the first and the last leave the verdict alone. -/
theorem see_events_outcome {s : SseState L} {values : List Value}
    (hty : ∀ v ∈ values, IsInner v) :
    (values.foldl (seeEvent rd) s).outcome = s.outcome := by
  induction values generalizing s with
  | nil => rfl
  | cons v vs ih =>
    obtain ⟨hv, hvs⟩ := List.forall_mem_cons.mp hty
    rw [List.foldl_cons, ih hvs, see_event_outcome s v hv]

theorem block_event_inner {block : Value} (bs : BlockStream rd block) :
    ∀ v ∈ bs.events, IsInner v := by
  intro v hv
  simp only [BlockStream.events, List.mem_cons, List.mem_append, List.not_mem_nil, or_false] at hv
  rcases hv with rfl | hv | rfl
  · exact ⟨_, by simp, bs.start_type⟩
  · exact ⟨_, by simp, bs.delta_type v hv⟩
  · exact ⟨_, by simp, bs.stop_type⟩

/-- A stream cut before its last event: nothing was seen, or an open message was. -/
theorem read_cut (ms : MessageStream rd m) {values : List Value} (h : values <+: ms.events)
    (hne : values ≠ ms.events) :
    values = [] ∨
      (values.foldl (seeEvent rd) {}).outcome = (none, true, false, false) := by
  have hbody : values <+: ms.body := by
    rcases List.prefix_concat_iff.mp h with h | h
    · exact absurd h hne
    · exact h
  cases values with
  | nil => exact .inl rfl
  | cons v vs =>
    rw [MessageStream.body, List.cons_append, List.cons_prefix_cons] at hbody
    obtain ⟨rfl, hvs⟩ := hbody
    right
    rw [List.foldl_cons, read_start, see_events_outcome]
    · rfl
    · intro v hv
      rcases List.mem_append.mp (hvs.subset hv) with hv | hv
      · obtain ⟨b, -, hv⟩ := List.mem_flatMap.mp hv
        exact block_event_inner b.2 v hv
      · rw [List.mem_singleton.mp hv]
        exact ⟨_, by simp, ms.delta_type⟩

end Verdict

section Tokens

/-- `text` stands in the response where a token of this kind stands. -/
def MessagesResponse.Names (m : MessagesResponse) : BoundTokenKind → String → Prop
  | .messageId, text => m.body.str "id" = some text
  | .serverToolUse, text => ∃ b ∈ m.blocks,
      b.str "type" = some serverToolUseBlockType ∧ b.str "id" = some text
  | .thinkingSignature, text => ∃ b ∈ m.blocks,
      b.str "type" = some thinkingBlockType ∧ b.str "signature" = some text
  | .redactedThinking, text => ∃ b ∈ m.blocks,
      b.str "type" = some redactedThinkingBlockType ∧ b.str "data" = some text

/-- No signature is empty, and no text is a token of two kinds. -/
structure MessagesResponse.TokensApart (m : MessagesResponse) : Prop where
  signed : ¬ m.Names .thinkingSignature ""
  apart : ∀ {kind kind' text}, m.Names kind text → m.Names kind' text → kind = kind'

def MessagesResponse.minted (m : MessagesResponse) : List MintedToken :=
  ((m.body.str "id").map fun id => (BoundTokenKind.messageId, id)).toList ++
    m.blocks.filterMap mintedByBlock

theorem minted_by_block_iff {block : Value} {kind : BoundTokenKind} {text : String} :
    mintedByBlock block = some (kind, text) ↔
      (kind = .serverToolUse ∧ block.str "type" = some serverToolUseBlockType ∧
        block.str "id" = some text) ∨
      (kind = .thinkingSignature ∧ block.str "type" = some thinkingBlockType ∧
        block.str "signature" = some text) ∨
      (kind = .redactedThinking ∧ block.str "type" = some redactedThinkingBlockType ∧
        block.str "data" = some text) := by
  have htypes : serverToolUseBlockType ≠ thinkingBlockType ∧
      serverToolUseBlockType ≠ redactedThinkingBlockType ∧
      thinkingBlockType ≠ redactedThinkingBlockType := by decide
  cases hty : block.str "type" with
  | none => simp [mintedByBlock, hty]
  | some ty =>
    simp only [mintedByBlock, hty, Option.some.injEq]
    obtain ⟨hst, hsr, htr⟩ := htypes
    have hpair : ∀ (found : Option String) (k : BoundTokenKind),
        found.map (fun t => (k, t)) = some (kind, text) ↔ kind = k ∧ found = some text := by
      intro found k
      cases found <;> simp [eq_comm]
    split
    · rename_i h
      rw [hpair, h]
      simp [hst, hsr]
    split
    · rename_i h
      rw [hpair, h]
      simp [hst.symm, htr]
    split
    · rename_i h
      rw [hpair, h]
      simp [hsr.symm, htr.symm]
    · rename_i hs ht hr
      simp [hs, ht, hr]

theorem mem_minted_iff {kind : BoundTokenKind} {text : String} :
    (kind, text) ∈ m.minted ↔ m.Names kind text := by
  simp only [MessagesResponse.minted, List.mem_append, Option.mem_toList, Option.map_eq_some_iff,
    List.mem_filterMap, minted_by_block_iff]
  cases kind <;> simp [MessagesResponse.Names]

theorem buffered_tokens (hroom : m.minted.length ≤ boundTokenScanCap) :
    responseBoundTokensFromValue m.body = m.minted := by
  rw [MessagesResponse.minted, List.length_append] at hroom
  rw [responseBoundTokensFromValue, m.content_eq]
  exact scan_blocks_eq hroom

/-- The tokens the stream reader keeps: pushed in order, empty signatures left out. -/
theorem streamed_tokens (ms : MessageStream rd m) :
    (ms.opened.afterBlocks rd m.blocks).boundTokens =
      Lib.Distinct.pushAll Prod.snd boundTokenScanCap []
        (m.minted.filter fun token => token ≠ (.thinkingSignature, "")) := by
  have hblocks : m.blocks.filterMap streamedByBlock =
      (m.blocks.filterMap mintedByBlock).filter fun token => token ≠ (.thinkingSignature, "") := by
    rw [List.filter_filterMap]
    rfl
  rw [SseState.afterBlocks, hblocks, MessagesResponse.minted, List.filter_append]
  cases hid : m.body.str "id" <;>
    simp [MessageStream.opened, hid, Lib.Distinct.pushAll, Lib.Distinct.push, boundTokenScanCap]

/-- The stream reader keeps every token exactly when the tokens are apart. -/
theorem same_tokens_iff (hroom : m.minted.length ≤ boundTokenScanCap) :
    (∀ token, token ∈ Lib.Distinct.pushAll Prod.snd boundTokenScanCap []
      (m.minted.filter fun token => token ≠ (.thinkingSignature, "")) ↔ token ∈ m.minted) ↔
      m.TokensApart := by
  constructor
  · intro h
    have hsigned : ((BoundTokenKind.thinkingSignature, "") : MintedToken) ∉ m.minted := by
      intro hin
      have hkept := (Lib.Distinct.mem_pushAll ((h _).mpr hin)).resolve_left (by simp)
      simp at hkept
    have hall : m.minted.filter (fun token => token ≠ (.thinkingSignature, "")) = m.minted :=
      List.filter_eq_self.mpr fun token ht => decide_eq_true fun heq => hsigned (heq ▸ ht)
    rw [hall] at h
    have hinj := (Lib.Distinct.mem_pushAll_iff_injOn hroom).mp fun token => (h token).mpr
    refine ⟨fun hn => hsigned (mem_minted_iff.mpr hn), fun hk hk' => ?_⟩
    exact congrArg Prod.fst (hinj _ (mem_minted_iff.mpr hk) _ (mem_minted_iff.mpr hk') rfl)
  · intro h token
    have hall : m.minted.filter (fun token => token ≠ (.thinkingSignature, "")) = m.minted :=
      List.filter_eq_self.mpr fun token ht =>
        decide_eq_true fun heq => h.signed (mem_minted_iff.mp (heq ▸ ht))
    have hinj : ∀ a ∈ m.minted, ∀ b ∈ m.minted, a.2 = b.2 → a = b := by
      rintro ⟨kind, text⟩ ha ⟨kind', text'⟩ hb (rfl : text = text')
      rw [h.apart (mem_minted_iff.mp ha) (mem_minted_iff.mp hb)]
    rw [hall]
    constructor
    · intro hin
      exact (Lib.Distinct.mem_pushAll hin).resolve_left (by simp)
    · exact (Lib.Distinct.mem_pushAll_iff_injOn hroom).mpr hinj token

end Tokens

section Agreement

/-- `events` read as a stream against `text` read as a whole body: the same counts, tool calls and
tokens, no error for the whole stream and one for every cut of it. -/
structure ReadsAlike (rd : Readers L) (text : String) (events : List String) (path : String) :
    Prop where
  usage : (parseSseUsage rd (events.map .event) .anthropic path).usage =
    (parseNonStreamedResponse rd text .anthropic).usage
  tool_uses : (parseSseUsage rd (events.map .event) .anthropic path).toolUses =
    (parseNonStreamedResponse rd text .anthropic).toolUses
  bound_tokens : ∀ token,
    token ∈ (parseSseUsage rd (events.map .event) .anthropic path).boundTokens ↔
      token ∈ (parseNonStreamedResponse rd text .anthropic).boundTokens
  complete : (parseSseUsage rd (events.map .event) .anthropic path).streamError = none
  truncated : ∀ pre, pre <+: events → pre ≠ events →
    (parseSseUsage rd (pre.map .event) .anthropic path).streamError.isSome = true

variable {text : String} {events : List String} (path : String)

theorem buffered_tool_uses
    (h : (m.blocks.filter fun b => b.str "type" = some "tool_use").length ≤ pendingToolCap) :
    responseToolUsesFromValue rd m.body = m.blocks.filterMap (toolUseOfBlock rd) := by
  simp only [responseToolUsesFromValue, m.content_eq, Option.bind_some, Value.asArray]
  rw [List.take_of_length_le h, List.filterMap_filter]
  refine List.filterMap_congr fun b _ => ?_
  simp only [toolUseOfBlock, decide_eq_true_eq]

theorem buffered_usage : (usageFromValue m.body .anthropic).usage = m.parsedUsage := by
  simp only [usageFromValue, m.usage_eq]
  rfl

theorem read_buffered (hbody : rd.fromStr text = some m.body)
    (htools : (m.blocks.filter fun b => b.str "type" = some "tool_use").length ≤ pendingToolCap)
    (hroom : m.minted.length ≤ boundTokenScanCap) :
    parseNonStreamedResponse rd text .anthropic =
      { usage := m.parsedUsage
        toolUses := m.blocks.filterMap (toolUseOfBlock rd)
        boundTokens := m.minted } := by
  have hmodel : (usageFromValue m.body .anthropic).model = none := by
    simp only [usageFromValue, m.usage_eq]
  simp only [parseNonStreamedResponse, hbody, buffered_usage, buffered_tool_uses htools,
    buffered_tokens hroom, hmodel]

theorem read_streamed (ms : MessageStream rd m) (hcaps : WithinCaps rd ms)
    (hevents : List.Forall₂ (Encodes rd) events ms.events) :
    parseSseUsage rd (events.map .event) .anthropic path =
      { usage := m.parsedUsage
        model := none
        streamError := none
        codexStreamLimit := none
        toolUses := m.blocks.filterMap (toolUseOfBlock rd)
        boundTokens := Lib.Distinct.pushAll Prod.snd boundTokenScanCap []
          (m.minted.filter fun token => token ≠ (.thinkingSignature, ""))
        codexToolCalls := [] } := by
  have htokens := streamed_tokens ms
  simp only [SseState.afterBlocks] at htokens
  simp only [parseSseUsage, read_items_eq {} hevents, read_stream ms hcaps, SseState.afterBlocks,
    htokens, endsTruncated]
  simp [MessageStream.opened]

theorem cut_is_reported (ms : MessageStream rd m)
    (hevents : List.Forall₂ (Encodes rd) events ms.events) {pre : List String}
    (hpre : pre <+: events) (hne : pre ≠ events) :
    (parseSseUsage rd (pre.map .event) .anthropic path).streamError.isSome = true := by
  have hlen := hevents.length_eq
  have htake : pre = events.take pre.length := List.prefix_iff_eq_take.mp hpre
  have hread : readItems rd .anthropic {} (pre.map .event) =
      (ms.events.take pre.length).foldl (seeEvent rd) {} := by
    have htaken := List.forall₂_take pre.length hevents
    rw [← htake] at htaken
    exact read_items_eq {} htaken
  have hcut : ms.events.take pre.length ≠ ms.events := by
    intro h
    have hfull : ms.events.length ≤ pre.length := List.take_eq_self_iff _ |>.mp h
    exact hne (hpre.eq_of_length_le (hlen.trans_le hfull))
  rcases read_cut ms (List.take_prefix _ _) hcut with h | h
  · simp [parseSseUsage, hread, h, endsTruncated]
  · simp only [SseState.outcome, Prod.mk.injEq] at h
    simp [parseSseUsage, hread, h, endsTruncated]

theorem WithinCaps.room {ms : MessageStream rd m} (hcaps : WithinCaps rd ms) :
    m.minted.length ≤ boundTokenScanCap := by
  have h := hcaps.tokens
  cases hid : m.body.str "id" <;> simpa [MessagesResponse.minted, hid, Nat.add_comm] using h

variable (ms : MessageStream rd m) (hcaps : WithinCaps rd ms)
  (hbody : rd.fromStr text = some m.body) (hevents : List.Forall₂ (Encodes rd) events ms.events)

include hcaps hbody hevents

theorem ReadsAlike.tokens_apart (h : ReadsAlike rd text events path) : m.TokensApart := by
  have htokens := h.bound_tokens
  rw [read_buffered hbody hcaps.tools hcaps.room, read_streamed path ms hcaps hevents] at htokens
  exact (same_tokens_iff hcaps.room).mp htokens

theorem reads_alike_of_apart (h : m.TokensApart) : ReadsAlike rd text events path := by
  have hbuffered := read_buffered hbody hcaps.tools hcaps.room
  have hstreamed := read_streamed path ms hcaps hevents
  constructor
  · rw [hbuffered, hstreamed]
  · rw [hbuffered, hstreamed]
  · rw [hbuffered, hstreamed]
    exact (same_tokens_iff hcaps.room).mpr h
  · rw [hstreamed]
  · exact fun pre hpre hne => cut_is_reported path ms hevents hpre hne

/-- A streamed answer reads like the buffered one exactly when its tokens are apart. -/
theorem reads_alike_iff : ReadsAlike rd text events path ↔ m.TokensApart :=
  ⟨fun h => h.tokens_apart path ms hcaps hbody hevents,
    reads_alike_of_apart path ms hcaps hbody hevents⟩

end Agreement

section Sample

def num (n : UInt64) : Value := .number (.posInt n)

def thinkingBlock (signature : String) : Value :=
  .object [("type", .string "thinking"), ("signature", .string signature)]

theorem thinking_block_type (signature : String) :
    (thinkingBlock signature).str "type" = some thinkingBlockType := rfl

/-- A turn that only thinks, with this signature. -/
def thinkingTurn (signature : String) : MessagesResponse where
  body := .object [("id", .string "msg_1"), ("usage", .object [("output_tokens", num 7)]),
    ("content", .array [thinkingBlock signature])]
  usage := .object [("output_tokens", num 7)]
  blocks := [thinkingBlock signature]
  usage_eq := rfl
  content_eq := rfl
  typed := by
    intro b hb
    rw [List.mem_singleton.mp hb]
    exact ⟨_, by simp, thinking_block_type signature⟩
  object_input := by
    intro b hb
    rw [List.mem_singleton.mp hb, thinking_block_type]
    simp [thinkingBlockType]

def blockEvent (type : String) (rest : List (String × Value)) : Value :=
  .object ([("type", .string type), ("index", num 0)] ++ rest)

/-- The turn's body, as the text sent and the tree it parses to. -/
def bodyRow (signature : String) : String × Value :=
  ("\x7b\"id\":\"msg_1\",\"usage\":\x7b\"output_tokens\":7\x7d,\"content\":" ++
    "[\x7b\"type\":\"thinking\",\"signature\":\"" ++ signature ++ "\"\x7d]\x7d",
    (thinkingTurn signature).body)

def startRow : String × Value :=
  ("\x7b\"type\":\"message_start\",\"message\":\x7b\"id\":\"msg_1\",\"usage\":\x7b\x7d\x7d\x7d",
    .object [("type", .string "message_start"),
      ("message", .object [("id", .string "msg_1"), ("usage", .object [])])])

def blockStartRow : String × Value :=
  ("\x7b\"type\":\"content_block_start\",\"index\":0," ++
    "\"content_block\":\x7b\"type\":\"thinking\",\"signature\":\"\"\x7d\x7d",
    blockEvent "content_block_start" [("content_block", thinkingBlock "")])

def signatureRow (fragment : String) : String × Value :=
  ("\x7b\"type\":\"content_block_delta\",\"index\":0," ++
    "\"delta\":\x7b\"type\":\"signature_delta\",\"signature\":\"" ++ fragment ++ "\"\x7d\x7d",
    blockEvent "content_block_delta" [("delta", .object [("type", .string "signature_delta"),
      ("signature", .string fragment)])])

def blockStopRow : String × Value :=
  ("\x7b\"type\":\"content_block_stop\",\"index\":0\x7d", blockEvent "content_block_stop" [])

def deltaRow : String × Value :=
  ("\x7b\"type\":\"message_delta\",\"usage\":\x7b\"output_tokens\":7\x7d\x7d",
    .object [("type", .string "message_delta"), ("usage", .object [("output_tokens", num 7)])])

def stopRow : String × Value :=
  ("\x7b\"type\":\"message_stop\"\x7d", .object [("type", .string "message_stop")])

/-- The turn's events, its signature cut into these fragments. -/
def turnRows (fragments : List String) : List (String × Value) :=
  [startRow, blockStartRow] ++ fragments.map signatureRow ++ [blockStopRow, deltaRow, stopRow]

/-- The texts the sample decoder knows. -/
def knownRows : List (String × Value) :=
  [bodyRow "", bodyRow "c2ln"] ++ turnRows ["c2", "ln"]

def turnReaders : Readers Unit where
  fromStr text := (Value.object knownRows).get text
  normalizeBashCommand command := (command, .other)
  limitFromError _ := none

def turnStream (fragments : List String) :
    MessageStream turnReaders (thinkingTurn (assembled "" fragments)) where
  start := startRow.2
  message := .object [("id", .string "msg_1"), ("usage", .object [])]
  startUsage := .object []
  blocks := [⟨thinkingBlock (assembled "" fragments), {
    index := 0
    head := thinkingBlock ""
    start := blockStartRow.2
    deltas := (fragments.map signatureRow).map Prod.snd
    stop := blockStopRow.2
    start_type := rfl
    start_index := rfl
    start_block := rfl
    head_fields := by
      intro key hk
      simp only [headKeys, List.mem_cons, List.not_mem_nil, or_false] at hk
      rcases hk with rfl | rfl | rfl | rfl <;> rfl
    delta_type := by
      simp only [List.map_map, List.forall_mem_map]
      exact fun _ _ => rfl
    delta_index := by
      simp only [List.map_map, List.forall_mem_map]
      exact fun _ _ => rfl
    stop_type := rfl
    stop_index := rfl
    signature := by
      have hfragment : signatureFragment ∘ Prod.snd ∘ signatureRow = some := rfl
      intro _
      rw [List.map_map, List.filterMap_map, hfragment, List.filterMap_some]
      rfl
    input := by
      rw [thinking_block_type]
      simp [thinkingBlockType] }⟩]
  delta := deltaRow.2
  deltaUsage := .object [("output_tokens", num 7)]
  stop := stopRow.2
  start_type := rfl
  start_message := rfl
  message_id := rfl
  message_usage := rfl
  same_input := by
    intro key hk
    simp only [inputKeys, List.mem_cons, List.not_mem_nil, or_false] at hk
    rcases hk with rfl | rfl | rfl | rfl <;> rfl
  blocks_eq := rfl
  delta_type := rfl
  delta_usage := rfl
  final_output := rfl
  stop_type := rfl

theorem turn_within_caps {fragments : List String}
    (h : (assembled "" fragments).utf8ByteSize ≤ signatureCap) :
    WithinCaps turnReaders (turnStream fragments) where
  tools := Nat.zero_le _
  tokens := by
    show 1 + 1 ≤ boundTokenScanCap
    decide
  signatures := by
    intro b hb _
    rw [List.mem_singleton.mp hb]
    exact h
  inputs := by
    intro b hb
    rw [List.mem_singleton.mp hb]
    intro htype
    rw [thinking_block_type] at htype
    simp [thinkingBlockType] at htype

theorem turn_encoded {fragments : List String}
    (h : ∀ row ∈ turnRows fragments, Encodes turnReaders row.1 row.2) :
    List.Forall₂ (Encodes turnReaders) ((turnRows fragments).map Prod.fst)
      (turnStream fragments).events := by
  have hevents : (turnStream fragments).events = (turnRows fragments).map Prod.snd := by
    simp [MessageStream.events, MessageStream.body, BlockStream.events, turnStream, turnRows]
  rw [hevents, List.forall₂_map_left_iff, List.forall₂_map_right_iff, List.forall₂_same]
  exact h

theorem known_row_encoded {row : String × Value} (h : row ∈ knownRows) :
    Encodes turnReaders row.1 row.2 := by
  have hdistinct : ("" :: knownRows.map Prod.fst).Nodup := by decide +kernel
  rw [List.nodup_cons] at hdistinct
  refine ⟨?_, Value.get_object_of_mem hdistinct.2 h⟩
  intro hempty
  exact hdistinct.1 (hempty ▸ List.mem_map_of_mem h)

theorem thinking_turn_names {signature text : String} {kind : BoundTokenKind} :
    (thinkingTurn signature).Names kind text ↔
      kind = .messageId ∧ text = "msg_1" ∨ kind = .thinkingSignature ∧ text = signature := by
  have hid : (thinkingTurn signature).body.str "id" = some "msg_1" := rfl
  have hsignature : (thinkingBlock signature).str "signature" = some signature := rfl
  have hblocks : (thinkingTurn signature).blocks = [thinkingBlock signature] := rfl
  cases kind <;>
    simp [MessagesResponse.Names, hid, hblocks, thinking_block_type, hsignature,
      thinkingBlockType, serverToolUseBlockType, redactedThinkingBlockType, eq_comm]

/-- A signature cut in two is read alike. -/
theorem cut_signature_read_alike :
    ReadsAlike turnReaders (bodyRow "c2ln").1 ((turnRows ["c2", "ln"]).map Prod.fst)
      "/v1/messages" := by
  have hbody : (bodyRow "c2ln") ∈ knownRows := by simp [knownRows]
  have hrows : ∀ row ∈ turnRows ["c2", "ln"], row ∈ knownRows :=
    fun row h => List.mem_append_right _ h
  have hnames : ∀ {kind text}, (thinkingTurn "c2ln").Names kind text →
      kind = .messageId ∧ text = "msg_1" ∨ kind = .thinkingSignature ∧ text = "c2ln" :=
    thinking_turn_names.mp
  refine (reads_alike_iff "/v1/messages" (turnStream ["c2", "ln"]) (turn_within_caps (by decide))
    (known_row_encoded hbody).2
    (turn_encoded fun row h => known_row_encoded (hrows row h))).mpr ⟨fun h => ?_, fun h h' => ?_⟩
  · simpa using hnames h
  · symm
    rcases hnames h with ⟨rfl, rfl⟩ | ⟨rfl, rfl⟩ <;> simpa using hnames h'

/-- An empty signature is a token of the buffered body and not of the stream. -/
theorem empty_signature_read_apart :
    ∃ ms : MessageStream turnReaders (thinkingTurn ""), WithinCaps turnReaders ms ∧
      turnReaders.fromStr (bodyRow "").1 = some (thinkingTurn "").body ∧
      List.Forall₂ (Encodes turnReaders) ((turnRows []).map Prod.fst) ms.events ∧
      ¬ ReadsAlike turnReaders (bodyRow "").1 ((turnRows []).map Prod.fst) "/v1/messages" := by
  have hbody : (bodyRow "") ∈ knownRows := by simp [knownRows]
  have hrows : ∀ row ∈ turnRows [], row ∈ knownRows := by
    intro row h
    simp only [turnRows, knownRows, List.map_nil, List.append_nil, List.mem_append,
      List.mem_cons, List.not_mem_nil, or_false] at h ⊢
    tauto
  have hcaps : WithinCaps turnReaders (turnStream []) := turn_within_caps (by decide)
  have hevents := turn_encoded fun row h => known_row_encoded (hrows row h)
  refine ⟨turnStream [], hcaps, (known_row_encoded hbody).2, hevents, fun h => ?_⟩
  have hapart := h.tokens_apart "/v1/messages" (turnStream []) hcaps (known_row_encoded hbody).2
    hevents
  exact hapart.signed (thinking_turn_names.mpr (.inr ⟨rfl, rfl⟩))

end Sample

end TeamClaude
