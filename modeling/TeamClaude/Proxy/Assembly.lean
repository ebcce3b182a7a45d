import TeamClaude.Lib.Exec
import TeamClaude.Proxy.Streaming

/-!
# What a stream puts together

The blocks of a stream as its events tell them, with every fragment kept, beside the capped buffers
the reader keeps of them. A signature or an input is compared with the buffer it was read into.
-/

namespace TeamClaude

open Lib.Json (Value)

theorem foldl_extend_fits {head : String} {fragments : List String}
    (h : (assembled head fragments).utf8ByteSize ≤ signatureCap) :
    fragments.foldl extendSignature head = assembled head fragments := by
  induction fragments generalizing head with
  | nil => rfl
  | cons f fs ih =>
    rw [List.foldl_cons, extend_signature_fits h]
    exact ih h

/-- A reasoning block: its start signature and the fragments that came for its index. -/
structure ThinkingBlock where
  start : String
  fragments : List String := []

namespace ThinkingBlock

def add (b : ThinkingBlock) (fragment : String) : ThinkingBlock :=
  { b with fragments := b.fragments ++ [fragment] }

def whole (b : ThinkingBlock) : String :=
  assembled b.start b.fragments

/-- What the reader's capped buffer holds of it. -/
def buffered (b : ThinkingBlock) : String :=
  b.fragments.foldl extendSignature b.start

/-- A fragment took the signature past the cap. -/
def Outgrown (b : ThinkingBlock) : Prop :=
  b.fragments ≠ [] ∧ signatureCap < b.whole.utf8ByteSize

@[simp] theorem buffered_add (b : ThinkingBlock) (fragment : String) :
    (b.add fragment).buffered = extendSignature b.buffered fragment :=
  List.foldl_concat ..

/-- A signature within its cap is held whole. -/
theorem buffered_fits {b : ThinkingBlock} (h : ¬ b.Outgrown) : b.buffered = b.whole := by
  obtain ⟨start, fragments⟩ := b
  cases fragments with
  | nil => rfl
  | cons f fs =>
    have hfit : (assembled start (f :: fs)).utf8ByteSize ≤ signatureCap :=
      not_lt.mp fun hlt => h ⟨List.cons_ne_nil f fs, hlt⟩
    exact foldl_extend_fits hfit

end ThinkingBlock

/-- A tool block: its name and the fragments of its input. -/
structure ToolBlock where
  id : String
  name : Option String
  fragments : List String := []

namespace ToolBlock

def add (b : ToolBlock) (fragment : String) : ToolBlock :=
  { b with fragments := b.fragments ++ [fragment] }

def input (b : ToolBlock) : String :=
  assembled "" b.fragments

def buffered (b : ToolBlock) : OpenToolBlock :=
  b.fragments.foldl OpenToolBlock.extend { id := b.id, name := b.name }

@[simp] theorem buffered_add (b : ToolBlock) (fragment : String) :
    (b.add fragment).buffered = b.buffered.extend fragment :=
  List.foldl_concat ..

end ToolBlock

theorem extend_named (block : OpenToolBlock) (partialJson : String) :
    (block.extend partialJson).id = block.id ∧ (block.extend partialJson).name = block.name := by
  unfold OpenToolBlock.extend
  split
  · exact ⟨rfl, rfl⟩
  · split <;> exact ⟨rfl, rfl⟩

/-- An input is dropped for good, or its next fragment is added to all before it. -/
theorem extend_input (block : OpenToolBlock) (partialJson : String) :
    (block.extend partialJson).overCap = true ∨ block.overCap = false ∧
      (block.extend partialJson).inputJson = block.inputJson ++ partialJson := by
  unfold OpenToolBlock.extend
  split
  · exact Or.inl rfl
  · cases hover : block.overCap with
    | true => exact Or.inl (by simpa using hover)
    | false => exact Or.inr ⟨rfl, by simp⟩

theorem extend_over {block : OpenToolBlock} (h : block.overCap = true) (partialJson : String) :
    (block.extend partialJson).overCap = true := by
  rcases extend_input block partialJson with hover | ⟨hnot, -⟩
  · exact hover
  · rw [h] at hnot
    cases hnot

namespace ToolBlock

theorem buffered_named (b : ToolBlock) : b.buffered.id = b.id ∧ b.buffered.name = b.name := by
  obtain ⟨id, name, fragments⟩ := b
  induction fragments using List.reverseRecOn with
  | nil => exact ⟨rfl, rfl⟩
  | append_singleton fs f ih =>
    have hlast := extend_named (ToolBlock.mk id name fs).buffered f
    rw [← buffered_add] at hlast
    exact ⟨hlast.1.trans ih.1, hlast.2.trans ih.2⟩

/-- A tool's buffer holds its whole input, unless the input was dropped. -/
theorem buffered_input (b : ToolBlock) :
    b.buffered.overCap = true ∨ b.buffered.inputJson = b.input := by
  obtain ⟨id, name, fragments⟩ := b
  induction fragments using List.reverseRecOn with
  | nil => exact Or.inr rfl
  | append_singleton fs f ih =>
    have hadd : (ToolBlock.mk id name (fs ++ [f])).buffered =
        (ToolBlock.mk id name fs).buffered.extend f :=
      buffered_add ⟨id, name, fs⟩ f
    have hinput : (ToolBlock.mk id name (fs ++ [f])).input = (ToolBlock.mk id name fs).input ++ f :=
      List.foldl_concat ..
    rw [hadd, hinput]
    rcases ih with hover | hwhole
    · exact Or.inl (extend_over hover f)
    · rcases extend_input (ToolBlock.mk id name fs).buffered f with hover | ⟨-, hjson⟩
      · exact Or.inl hover
      · exact Or.inr (hjson.trans (by rw [hwhole]))

end ToolBlock

inductive BlockEvent
  | openThinking (index : UInt64) (signature : String)
  | openTool (index : UInt64) (id : String) (name : Option String)
  | signature (index : UInt64) (fragment : String)
  | input (index : UInt64) (fragment : String)
  | close (index : UInt64)

/-- A started block, when it is one that is put together. -/
def openedBlock (index : UInt64) (block : Value) : Option BlockEvent :=
  if block.str "type" = some thinkingBlockType then
    some (.openThinking index ((block.str "signature").getD ""))
  else if block.str "type" = some "tool_use" then
    (block.str "id").map fun id => .openTool index id (block.str "name")
  else none

def deltaEvent (index : UInt64) (value : Value) : Option BlockEvent :=
  match signatureFragment value, inputFragment value with
  | some fragment, _ => some (.signature index fragment)
  | none, some fragment => some (.input index fragment)
  | none, none => none

def blockEventOf (value : Value) : Option BlockEvent :=
  match blockIndex value with
  | none => none
  | some index =>
    match value.str "type" with
    | some "content_block_start" => (value.get "content_block").bind (openedBlock index)
    | some "content_block_delta" => deltaEvent index value
    | some "content_block_stop" => some (.close index)
    | _ => none

/-- The blocks of a stream so far: the open ones by index, and the closed ones in order. A tool block
that starts while as many are open as are taken up is passed over. -/
structure BlockHistory where
  thinking : UInt64 → Option ThinkingBlock := fun _ => none
  tools : AList (fun _ : UInt64 => ToolBlock) := ∅
  closedThinking : List ThinkingBlock := []
  closedTools : List ToolBlock := []

namespace BlockHistory

def see (h : BlockHistory) : BlockEvent → BlockHistory
  | .openThinking index signature =>
    { h with thinking := Function.update h.thinking index (some { start := signature }) }
  | .openTool index id name =>
    if h.tools.keys.length < pendingToolCap then
      { h with tools := h.tools.insert index { id, name } }
    else h
  | .signature index fragment =>
    { h with
      thinking := Function.update h.thinking index
        ((h.thinking index).map fun b => b.add fragment) }
  | .input index fragment =>
    match h.tools.lookup index with
    | some b => { h with tools := h.tools.insert index (b.add fragment) }
    | none => h
  | .close index =>
    { thinking := Function.update h.thinking index none
      tools := h.tools.erase index
      closedThinking := h.closedThinking ++ (h.thinking index).toList
      closedTools := h.closedTools ++ (h.tools.lookup index).toList }

end BlockHistory

variable {L : Type} (rd : Readers L) (provider : Provider)

def ToolBlock.event (b : ToolBlock) : ToolUseEvent :=
  toolUseEventFromBlock rd b.id b.name
    (if b.buffered.overCap then none else rd.fromStr b.buffered.inputJson)

/-- The texts of the events before the first fault. -/
def heard : List SseItem → List String
  | [] => []
  | .fault :: _ => []
  | .event data :: items => data :: heard items

/-- What a text of the stream tells of a block; a Codex stream has none. -/
def heardEvent (data : String) : Option BlockEvent :=
  match provider with
  | .codex => none
  | .anthropic => if data = "" then none else (rd.fromStr data).bind blockEventOf

def hear (h : BlockHistory) (data : String) : BlockHistory :=
  match heardEvent rd provider data with
  | some e => h.see e
  | none => h

def history (datas : List String) : BlockHistory :=
  Lib.exec (hear rd provider) {} datas

def readTexts (datas : List String) : SseState L :=
  Lib.exec (readEvent rd provider) {} datas

theorem read_items_heard (s : SseState L) (items : List SseItem) :
    readItems rd provider s items = Lib.exec (readEvent rd provider) s (heard items) := by
  induction items generalizing s with
  | nil => rfl
  | cons item items ih =>
    cases item with
    | fault => rfl
    | event data => exact ih _

/-- The reader's buffers are what it holds of the stream's blocks. -/
structure Tracks (s : SseState L) (h : BlockHistory) : Prop where
  signatures : ∀ i, s.openSignatures.lookup i = (h.thinking i).map ThinkingBlock.buffered
  keys : s.openToolBlocks.keys = h.tools.keys
  tools : ∀ i, s.openToolBlocks.lookup i = (h.tools.lookup i).map ToolBlock.buffered
  uses : s.toolUses = h.closedTools.map (ToolBlock.event rd)

structure SameBlocks (s s' : SseState L) : Prop where
  signatures : s'.openSignatures = s.openSignatures
  tools : s'.openToolBlocks = s.openToolBlocks
  uses : s'.toolUses = s.toolUses

section Blocks

variable {rd} {s s' : SseState L} {h : BlockHistory}

theorem SameBlocks.refl (s : SseState L) : SameBlocks s s :=
  ⟨rfl, rfl, rfl⟩

theorem Tracks.same (ht : Tracks rd s h) (hs : SameBlocks s s') : Tracks rd s' h where
  signatures i := by rw [hs.signatures, ht.signatures]
  keys := by rw [hs.tools, ht.keys]
  tools i := by rw [hs.tools, ht.tools]
  uses := by rw [hs.uses, ht.uses]

theorem tracks_initial : Tracks rd ({} : SseState L) {} :=
  ⟨fun _ => rfl, rfl, fun _ => rfl, rfl⟩

theorem Tracks.open_thinking (ht : Tracks rd s h) (index : UInt64) (signature : String) :
    Tracks rd { s with openSignatures := s.openSignatures.insert index signature }
      (h.see (.openThinking index signature)) := by
  refine ⟨fun i => ?_, ht.keys, ht.tools, ht.uses⟩
  by_cases hi : i = index
  · subst hi
    simp [BlockHistory.see, AList.lookup_insert, ThinkingBlock.buffered]
  · simp [BlockHistory.see, AList.lookup_insert_ne hi, Function.update_of_ne hi, ht.signatures]

theorem Tracks.signature (ht : Tracks rd s h) (index : UInt64) (fragment : String) :
    Tracks rd
      (match s.openSignatures.lookup index with
        | some signature =>
          { s with
            openSignatures := s.openSignatures.insert index (extendSignature signature fragment) }
        | none => s)
      (h.see (.signature index fragment)) := by
  have hlookup := ht.signatures index
  cases hb : h.thinking index with
  | none =>
    rw [hb] at hlookup
    have hsee : (h.see (.signature index fragment)).thinking = h.thinking := by
      show Function.update h.thinking index ((h.thinking index).map _) = _
      rw [hb]
      exact Function.update_eq_self_iff.mpr hb.symm
    simp only [hlookup, Option.map_none]
    refine ⟨fun i => ?_, ht.keys, ht.tools, ht.uses⟩
    rw [hsee]
    exact ht.signatures i
  | some b =>
    rw [hb] at hlookup
    simp only [hlookup, Option.map_some]
    refine ⟨fun i => ?_, ht.keys, ht.tools, ht.uses⟩
    by_cases hi : i = index
    · subst hi
      simp [BlockHistory.see, AList.lookup_insert, hb]
    · simp [BlockHistory.see, AList.lookup_insert_ne hi, Function.update_of_ne hi, ht.signatures]

/-- A taken-up block is in both tables. -/
theorem Tracks.put_tool (ht : Tracks rd s h) (index : UInt64) (b : ToolBlock) :
    Tracks rd { s with openToolBlocks := s.openToolBlocks.insert index b.buffered }
      { h with tools := h.tools.insert index b } := by
  refine ⟨ht.signatures, ?_, fun i => ?_, ht.uses⟩
  · show (s.openToolBlocks.insert index b.buffered).keys = (h.tools.insert index b).keys
    rw [AList.keys_insert, AList.keys_insert, ht.keys]
  · by_cases hi : i = index
    · subst hi
      simp [AList.lookup_insert]
    · simp [AList.lookup_insert_ne hi, ht.tools]

theorem Tracks.open_tool (ht : Tracks rd s h) (index : UInt64) (id : String)
    (name : Option String) :
    Tracks rd
      (if s.openToolBlocks.entries.length < pendingToolCap then
        { s with openToolBlocks := s.openToolBlocks.insert index { id, name } }
      else s)
      (h.see (.openTool index id name)) := by
  have hlength : s.openToolBlocks.entries.length = h.tools.keys.length := by
    rw [← ht.keys]
    exact (List.length_map _).symm
  simp only [BlockHistory.see, hlength]
  split
  · exact ht.put_tool index { id, name }
  · exact ht

theorem Tracks.input (ht : Tracks rd s h) (index : UInt64) (fragment : String) :
    Tracks rd
      (match s.openToolBlocks.lookup index with
        | some block =>
          { s with openToolBlocks := s.openToolBlocks.insert index (block.extend fragment) }
        | none => s)
      (h.see (.input index fragment)) := by
  have hlookup := ht.tools index
  cases hb : h.tools.lookup index with
  | none =>
    rw [hb] at hlookup
    simp only [BlockHistory.see, hlookup, hb, Option.map_none]
    exact ht
  | some b =>
    rw [hb] at hlookup
    simp only [BlockHistory.see, hlookup, hb, Option.map_some, ← ToolBlock.buffered_add]
    exact ht.put_tool index (b.add fragment)

theorem close_signature_lookup (s : SseState L) (index i : UInt64) :
    (closeSignature s index).openSignatures.lookup i =
      if i = index then none else s.openSignatures.lookup i := by
  have herase : (s.openSignatures.erase index).lookup i =
      if i = index then none else s.openSignatures.lookup i := by
    by_cases hi : i = index
    · subst hi
      simp [AList.lookup_erase]
    · simp [AList.lookup_erase_ne hi, hi]
  unfold closeSignature
  cases hb : s.openSignatures.lookup index with
  | none =>
    by_cases hi : i = index
    · subst hi
      simp [hb]
    · simp [hi]
  | some signature =>
    dsimp only
    split <;> exact herase

theorem close_signature_tools (s : SseState L) (index : UInt64) :
    (closeSignature s index).openToolBlocks = s.openToolBlocks ∧
      (closeSignature s index).toolUses = s.toolUses := by
  unfold closeSignature
  split
  · dsimp only
    split <;> exact ⟨rfl, rfl⟩
  · exact ⟨rfl, rfl⟩

theorem Tracks.close (ht : Tracks rd s h) (index : UInt64) :
    Tracks rd (closeToolBlock rd (closeSignature s index) index) (h.see (.close index)) := by
  have hsig : ∀ i, (closeSignature s index).openSignatures.lookup i =
      (Function.update h.thinking index none i).map ThinkingBlock.buffered := by
    intro i
    rw [close_signature_lookup, Function.update_apply, ht.signatures]
    split <;> rfl
  obtain ⟨htools, huses⟩ := close_signature_tools s index
  have hlookup := ht.tools index
  unfold closeToolBlock
  rw [htools]
  cases hb : h.tools.lookup index with
  | none =>
    rw [hb] at hlookup
    have habsent : index ∉ h.tools.keys := AList.lookup_eq_none.mp hb
    simp only [hlookup, Option.map_none]
    refine ⟨hsig, ?_, fun i => ?_, ?_⟩
    · rw [htools, ht.keys]
      show h.tools.keys = (h.tools.erase index).keys
      rw [AList.keys_erase, List.erase_of_not_mem habsent]
    · rw [htools, ht.tools]
      by_cases hi : i = index
      · subst hi
        simp [BlockHistory.see, AList.lookup_erase, hb]
      · simp [BlockHistory.see, AList.lookup_erase_ne hi]
    · rw [huses, ht.uses]
      simp [BlockHistory.see, hb]
  | some b =>
    rw [hb] at hlookup
    simp only [hlookup, Option.map_some]
    refine ⟨hsig, ?_, fun i => ?_, ?_⟩
    · show (s.openToolBlocks.erase index).keys = (h.tools.erase index).keys
      rw [AList.keys_erase, AList.keys_erase, ht.keys]
    · by_cases hi : i = index
      · subst hi
        simp [BlockHistory.see, AList.lookup_erase]
      · simp [BlockHistory.see, AList.lookup_erase_ne hi, ht.tools]
    · simp [BlockHistory.see, hb, huses, ht.uses, ToolBlock.event, b.buffered_named]

/-! ## One event -/

theorem message_start_blocks (s : SseState L) (value : Value) :
    SameBlocks s (onMessageStart s value) := by
  unfold onMessageStart
  dsimp only
  split <;> split <;> exact ⟨rfl, rfl, rfl⟩

theorem message_delta_blocks (s : SseState L) (value : Value) :
    SameBlocks s (onMessageDelta s value) := by
  unfold onMessageDelta
  split <;> exact ⟨rfl, rfl, rfl⟩

theorem error_blocks (s : SseState L) (value : Value) : SameBlocks s (onError s value) := by
  unfold onError
  split <;> exact ⟨rfl, rfl, rfl⟩

theorem codex_event_blocks (s : SseState L) (value : Value) :
    SameBlocks s (codexEvent rd s value) := by
  unfold codexEvent codexFailure
  dsimp only
  repeat' split
  all_goals exact ⟨rfl, rfl, rfl⟩

/-- What an event tells is what the history is of, after it. -/
def BlockHistory.after (h : BlockHistory) (value : Value) : BlockHistory :=
  match blockEventOf value with
  | some e => h.see e
  | none => h

theorem open_signature_other {value : Value}
    (hty : ((value.get "content_block").bind fun b => b.str "type") ≠ some thinkingBlockType) :
    SameBlocks s (openSignature s value) := by
  unfold openSignature
  dsimp only
  split
  · rename_i ty hsome
    split
    · split <;> exact ⟨rfl, rfl, rfl⟩
    · split
      · rename_i hthinking
        rw [hsome, hthinking] at hty
        exact absurd rfl hty
      · split
        · split <;> exact ⟨rfl, rfl, rfl⟩
        · exact .refl s
  · exact .refl s

theorem open_signature_thinking {value : Value}
    (hty : ((value.get "content_block").bind fun b => b.str "type") = some thinkingBlockType) :
    openSignature s value =
      match blockIndex value with
      | some index =>
        let head := ((value.get "content_block").bind fun b => b.str "signature").getD ""
        { s with openSignatures := s.openSignatures.insert index head }
      | none => s := by
  simp only [openSignature, hty, serverToolUseBlockType, thinkingBlockType]
  cases blockIndex value <;> rfl

theorem open_tool_other {value : Value}
    (hty : ((value.get "content_block").bind fun b => b.str "type") ≠ some "tool_use") :
    openToolBlock s value = s := by
  simp only [openToolBlock, if_neg hty]

theorem Tracks.block_start (ht : Tracks rd s h) {value : Value}
    (hty : value.str "type" = some "content_block_start") :
    Tracks rd (onBlockStart s value) (h.after value) := by
  unfold onBlockStart BlockHistory.after blockEventOf
  simp only [hty]
  by_cases hthinking : ((value.get "content_block").bind fun b => b.str "type") =
      some thinkingBlockType
  · rw [open_tool_other (by rw [hthinking]; decide), open_signature_thinking hthinking]
    cases blockIndex value with
    | none => exact ht
    | some index =>
      obtain ⟨block, hblock, hb⟩ := Option.bind_eq_some_iff.mp hthinking
      simp only [hblock, Option.bind_some, openedBlock, hb, if_pos]
      exact ht.open_thinking index _
  · have hs := open_signature_other (s := s) hthinking
    have ht' := ht.same hs
    by_cases htool : ((value.get "content_block").bind fun b => b.str "type") = some "tool_use"
    · obtain ⟨block, hblock, hb⟩ := Option.bind_eq_some_iff.mp htool
      have hne : some "tool_use" ≠ some thinkingBlockType := by decide
      simp only [openToolBlock, htool, if_true]
      cases blockIndex value with
      | none => exact ht'
      | some index =>
        simp only [hblock, Option.bind_some, openedBlock, hb, if_neg hne, if_true]
        cases block.str "id" with
        | none => exact ht'
        | some id => exact ht'.open_tool index id _
    · rw [open_tool_other htool]
      cases blockIndex value with
      | none => exact ht'
      | some index =>
        cases hblock : value.get "content_block" with
        | none => exact ht'
        | some block =>
          rw [hblock, Option.bind_some] at hthinking htool
          simp only [Option.bind_some, openedBlock, if_neg hthinking, if_neg htool]
          exact ht'

/-- A delta is of one type. -/
theorem input_fragment_of_signature {value : Value} {fragment : String}
    (hf : signatureFragment value = some fragment) : inputFragment value = none := by
  unfold signatureFragment deltaText at hf
  unfold inputFragment deltaText
  obtain ⟨delta, hdelta, -⟩ := Option.bind_eq_some_iff.mp hf
  obtain ⟨hget, hkind⟩ := Option.filter_eq_some_iff.mp hdelta
  rw [decide_eq_true_iff] at hkind
  rw [hget, Option.filter_some, if_neg]
  · rfl
  · rw [hkind]
    decide

theorem Tracks.block_delta (ht : Tracks rd s h) {value : Value}
    (hty : value.str "type" = some "content_block_delta") :
    Tracks rd (onBlockDelta s value) (h.after value) := by
  unfold onBlockDelta appendInput appendSignature BlockHistory.after blockEventOf
  simp only [hty]
  cases blockIndex value with
  | none => exact ht
  | some index =>
    cases hf : signatureFragment value with
    | some fragment =>
      simp only [input_fragment_of_signature hf, deltaEvent, hf]
      exact ht.signature index fragment
    | none =>
      cases hi : inputFragment value with
      | none =>
        simp only [deltaEvent, hf, hi]
        exact ht
      | some fragment =>
        simp only [deltaEvent, hf, hi]
        exact ht.input index fragment

theorem Tracks.block_stop (ht : Tracks rd s h) {value : Value}
    (hty : value.str "type" = some "content_block_stop") :
    Tracks rd (onBlockStop rd s value) (h.after value) := by
  unfold onBlockStop BlockHistory.after blockEventOf
  simp only [hty]
  cases blockIndex value with
  | none => exact ht
  | some index => exact ht.close index

/-- An event of another type tells of no block. -/
theorem after_other {value : Value} (hstart : value.str "type" ≠ some "content_block_start")
    (hdelta : value.str "type" ≠ some "content_block_delta")
    (hstop : value.str "type" ≠ some "content_block_stop") : h.after value = h := by
  unfold BlockHistory.after blockEventOf
  cases blockIndex value with
  | none => rfl
  | some index =>
    dsimp only
    split <;> simp_all

theorem Tracks.event (ht : Tracks rd s h) (value : Value) :
    Tracks rd (anthropicEvent rd s value) (h.after value) := by
  by_cases hstart : value.str "type" = some "content_block_start"
  · simp only [anthropicEvent, hstart]
    exact ht.block_start hstart
  by_cases hdelta : value.str "type" = some "content_block_delta"
  · simp only [anthropicEvent, hdelta]
    exact ht.block_delta hdelta
  by_cases hstop : value.str "type" = some "content_block_stop"
  · simp only [anthropicEvent, hstop]
    exact ht.block_stop hstop
  rw [after_other hstart hdelta hstop]
  unfold anthropicEvent
  split
  · exact ht.same (message_start_blocks s value)
  · exact ht.same (message_delta_blocks s value)
  · exact ht.same ⟨rfl, rfl, rfl⟩
  · rename_i hty
    exact absurd hty hstart
  · rename_i hty
    exact absurd hty hdelta
  · rename_i hty
    exact absurd hty hstop
  · exact ht.same (error_blocks s value)
  · exact ht

variable {provider}

theorem Tracks.read (ht : Tracks rd s h) (data : String) :
    Tracks rd (readEvent rd provider s data) (hear rd provider h data) := by
  have hseen : Tracks rd { s with sawAnyEvent := true } h := ht.same ⟨rfl, rfl, rfl⟩
  unfold readEvent hear heardEvent
  cases provider with
  | codex =>
    dsimp only
    split
    · exact ht
    · split
      · exact hseen
      · exact hseen.same (codex_event_blocks _ _)
  | anthropic =>
    dsimp only
    split
    · exact ht
    · cases rd.fromStr data with
      | none => exact hseen
      | some value => exact hseen.event value

/-- The buffers follow the blocks through every stream. -/
theorem tracks_texts (datas : List String) :
    Tracks rd (readTexts rd provider datas) (history rd provider datas) := by
  induction datas using List.reverseRecOn with
  | nil => exact tracks_initial
  | append_singleton datas data ih =>
    unfold readTexts history at ih ⊢
    rw [Lib.exec_snoc, Lib.exec_snoc]
    exact ih.read data

end Blocks

/-! ## The tokens of a stream -/

def Recordable (tokens : List MintedToken) (text : String) : Prop :=
  tokens.length < boundTokenScanCap ∧ ∀ seen ∈ tokens, seen.2 ≠ text

theorem push_recordable {tokens : List MintedToken} {kind : BoundTokenKind} {text : String}
    (h : Recordable tokens text) : pushBoundToken tokens kind text = tokens ++ [(kind, text)] := by
  unfold pushBoundToken
  rw [if_neg]
  rintro (hfull | ⟨seen, hseen, htext⟩)
  · exact absurd h.1 (not_lt.mpr hfull)
  · exact h.2 seen hseen htext

theorem push_not_recordable {tokens : List MintedToken} {kind : BoundTokenKind} {text : String}
    (h : ¬ Recordable tokens text) : pushBoundToken tokens kind text = tokens := by
  unfold pushBoundToken
  rw [if_pos]
  by_contra hnot
  push Not at hnot
  exact h ⟨hnot.1, hnot.2⟩

theorem length_push_bound {tokens : List MintedToken} {kind : BoundTokenKind} {text : String}
    (h : tokens.length ≤ boundTokenScanCap) :
    (pushBoundToken tokens kind text).length ≤ boundTokenScanCap := by
  by_cases hr : Recordable tokens text
  · rw [push_recordable hr, List.length_append]
    exact hr.1
  · rw [push_not_recordable hr]
    exact h

/-- The tokens of a step that closes no reasoning block. -/
inductive MintsOther (s s' : SseState L) : Prop
  | same (h : s'.boundTokens = s.boundTokens)
  | minted (kind : BoundTokenKind) (text : String) (hkind : kind ≠ .thinkingSignature)
      (h : s'.boundTokens = pushBoundToken s.boundTokens kind text)

section Tokens

variable {rd} {s s' : SseState L} {h : BlockHistory} {provider}

theorem MintsOther.thinking (hm : MintsOther s s') (text : String) :
    (BoundTokenKind.thinkingSignature, text) ∈ s'.boundTokens ↔
      (BoundTokenKind.thinkingSignature, text) ∈ s.boundTokens := by
  cases hm with
  | same heq => rw [heq]
  | minted kind token hkind heq =>
    rw [heq]
    by_cases hr : Recordable s.boundTokens token
    · rw [push_recordable hr, List.mem_append, List.mem_singleton]
      refine or_iff_left fun he => hkind ?_
      exact (congrArg Prod.fst he).symm
    · rw [push_not_recordable hr]

theorem MintsOther.length (hm : MintsOther s s') (hle : s.boundTokens.length ≤ boundTokenScanCap) :
    s'.boundTokens.length ≤ boundTokenScanCap := by
  cases hm with
  | same heq => rwa [heq]
  | minted kind token hkind heq =>
    rw [heq]
    exact length_push_bound hle

theorem message_start_mints (s : SseState L) (value : Value) :
    MintsOther s (onMessageStart s value) := by
  unfold onMessageStart
  dsimp only
  split <;> split
  · exact .minted .messageId _ (by decide) rfl
  · exact .same rfl
  · exact .minted .messageId _ (by decide) rfl
  · exact .same rfl

theorem open_signature_mints (s : SseState L) (value : Value) :
    MintsOther s (openSignature s value) := by
  unfold openSignature
  dsimp only
  split
  · split
    · split
      · exact .minted .serverToolUse _ (by decide) rfl
      · exact .same rfl
    · split
      · split <;> exact .same rfl
      · split
        · split
          · exact .minted .redactedThinking _ (by decide) rfl
          · exact .same rfl
        · exact .same rfl
  · exact .same rfl

theorem open_tool_tokens (s : SseState L) (value : Value) :
    (openToolBlock s value).boundTokens = s.boundTokens := by
  unfold openToolBlock
  dsimp only
  repeat' split
  all_goals rfl

theorem block_delta_tokens (s : SseState L) (value : Value) :
    (onBlockDelta s value).boundTokens = s.boundTokens := by
  unfold onBlockDelta appendInput appendSignature
  repeat' split
  all_goals rfl

theorem block_start_mints (s : SseState L) (value : Value) : MintsOther s (onBlockStart s value) := by
  have htool := open_tool_tokens (openSignature s value) value
  cases open_signature_mints s value with
  | same heq => exact .same (htool.trans heq)
  | minted kind text hkind heq => exact .minted kind text hkind (htool.trans heq)

theorem codex_event_tokens (s : SseState L) (value : Value) :
    (codexEvent rd s value).boundTokens = s.boundTokens := by
  unfold codexEvent codexFailure
  dsimp only
  repeat' split
  all_goals rfl

theorem close_tool_tokens (s : SseState L) (index : UInt64) :
    (closeToolBlock rd s index).boundTokens = s.boundTokens := by
  unfold closeToolBlock
  split <;> rfl

/-- An event that closes no block mints no signature. -/
theorem other_event_mints {value : Value} (hstop : value.str "type" ≠ some "content_block_stop") :
    MintsOther s (anthropicEvent rd s value) := by
  unfold anthropicEvent
  split
  · exact message_start_mints s value
  · refine .same ?_
    unfold onMessageDelta
    split <;> rfl
  · exact .same rfl
  · exact block_start_mints s value
  · exact .same (block_delta_tokens s value)
  · rename_i hty
    exact absurd hty hstop
  · refine .same ?_
    unfold onError
    split <;> rfl
  · exact .same rfl

/-- A reasoning block's buffer is minted at its stop, when it is not empty. -/
theorem close_signature_tokens (s : SseState L) (index : UInt64) :
    (closeSignature s index).boundTokens =
      match s.openSignatures.lookup index with
      | some signature =>
        if signature ≠ "" then pushBoundToken s.boundTokens .thinkingSignature signature
        else s.boundTokens
      | none => s.boundTokens := by
  unfold closeSignature
  cases s.openSignatures.lookup index with
  | none => rfl
  | some signature =>
    dsimp only
    split <;> rfl

theorem block_event_of_close {value : Value} {index : UInt64} :
    blockEventOf value = some (.close index) ↔
      blockIndex value = some index ∧ value.str "type" = some "content_block_stop" := by
  unfold blockEventOf
  cases blockIndex value with
  | none => simp
  | some i =>
    dsimp only
    split
    · rename_i hty
      rw [hty]
      refine iff_of_false (fun he => ?_) (by simp)
      obtain ⟨block, -, hopened⟩ := Option.bind_eq_some_iff.mp he
      unfold openedBlock at hopened
      split at hopened
      · cases hopened
      · split at hopened
        · obtain ⟨id, -, hid⟩ := Option.map_eq_some_iff.mp hopened
          cases hid
        · cases hopened
    · rename_i hty
      rw [hty]
      refine iff_of_false (fun he => ?_) (by simp)
      unfold deltaEvent at he
      split at he <;> cases he
    · rename_i hty
      simp [hty]
    · rename_i hstop
      exact iff_of_false (by simp) fun he => hstop he.2

variable (rd provider)

/-- The event after `pre` closes the reasoning block `b`. -/
def Closes (pre : List String) (data : String) (b : ThinkingBlock) : Prop :=
  ∃ index, heardEvent rd provider data = some (.close index) ∧
    (history rd provider pre).thinking index = some b

/-- The event after `pre` records the buffer of the reasoning block `b`. -/
structure RecordsAt (pre : List String) (data : String) (b : ThinkingBlock) : Prop where
  closes : Closes rd provider pre data b
  held : b.buffered ≠ ""
  recordable : Recordable (readTexts rd provider pre).boundTokens b.buffered

variable {rd provider}

theorem close_tokens (pre : List String) {data : String} {index : UInt64}
    (hclose : heardEvent rd provider data = some (.close index)) :
    (readEvent rd provider (readTexts rd provider pre) data).boundTokens =
      match (history rd provider pre).thinking index with
      | some b =>
        if b.buffered ≠ "" then
          pushBoundToken (readTexts rd provider pre).boundTokens .thinkingSignature b.buffered
        else (readTexts rd provider pre).boundTokens
      | none => (readTexts rd provider pre).boundTokens := by
  cases provider with
  | codex => cases hclose
  | anthropic =>
    unfold heardEvent at hclose
    dsimp only at hclose
    split at hclose
    · cases hclose
    · rename_i hne
      obtain ⟨value, hvalue, hevent⟩ := Option.bind_eq_some_iff.mp hclose
      obtain ⟨hindex, hty⟩ := block_event_of_close.mp hevent
      have htracks : Tracks rd (readTexts rd .anthropic pre) (history rd .anthropic pre) :=
        tracks_texts pre
      simp only [readEvent, hne, hvalue, if_false, anthropicEvent, hty, onBlockStop, hindex]
      rw [close_tool_tokens, close_signature_tokens]
      dsimp only
      rw [htracks.signatures index]
      cases (history rd .anthropic pre).thinking index <;> rfl

/-- An event that closes no block mints no signature. -/
theorem other_mints (s : SseState L) {data : String}
    (hother : ∀ index, heardEvent rd provider data ≠ some (.close index)) :
    MintsOther s (readEvent rd provider s data) := by
  unfold heardEvent at hother
  unfold readEvent
  cases provider with
  | codex =>
    dsimp only
    split
    · exact .same rfl
    · split
      · exact .same rfl
      · exact .same (codex_event_tokens _ _)
  | anthropic =>
    dsimp only at hother ⊢
    split
    · exact .same rfl
    · rename_i hne
      rw [if_neg hne] at hother
      cases hvalue : rd.fromStr data with
      | none => exact .same rfl
      | some value =>
        rw [hvalue, Option.bind_some] at hother
        by_cases hstop : value.str "type" = some "content_block_stop"
        · have hindex : blockIndex value = none := by
            refine Option.eq_none_iff_forall_ne_some.mpr fun index hindex => ?_
            exact hother index (block_event_of_close.mpr ⟨hindex, hstop⟩)
          refine .same ?_
          simp only [anthropicEvent, hstop, onBlockStop, hindex]
        · have hmints : MintsOther { s with sawAnyEvent := true }
              (anthropicEvent rd { s with sawAnyEvent := true } value) := other_event_mints hstop
          cases hmints with
          | same heq => exact .same heq
          | minted kind text hkind heq => exact .minted kind text hkind heq

theorem read_snoc (datas : List String) (data : String) :
    readTexts rd provider (datas ++ [data]) =
      readEvent rd provider (readTexts rd provider datas) data :=
  Lib.exec_snoc ..

theorem history_snoc (datas : List String) (data : String) :
    history rd provider (datas ++ [data]) = hear rd provider (history rd provider datas) data :=
  Lib.exec_snoc ..

/-- One event records a signature exactly when it is a stop that finds one to record. -/
theorem thinking_token_snoc (datas : List String) (data : String) (text : String) :
    (BoundTokenKind.thinkingSignature, text) ∈ (readTexts rd provider (datas ++ [data])).boundTokens ↔
      (BoundTokenKind.thinkingSignature, text) ∈ (readTexts rd provider datas).boundTokens ∨
        ∃ b, RecordsAt rd provider datas data b ∧ b.buffered = text := by
  rw [read_snoc]
  by_cases hclose : ∃ index, heardEvent rd provider data = some (.close index)
  · obtain ⟨index, hindex⟩ := hclose
    rw [close_tokens datas hindex]
    have hcloses : ∀ b, Closes rd provider datas data b ↔
        (history rd provider datas).thinking index = some b := by
      intro b
      constructor
      · rintro ⟨i, hi, hb⟩
        rw [hindex] at hi
        cases hi
        exact hb
      · exact fun hb => ⟨index, hindex, hb⟩
    cases hb : (history rd provider datas).thinking index with
    | none =>
      refine (or_iff_left ?_).symm
      rintro ⟨b, hrec, -⟩
      have hopen := (hcloses b).mp hrec.closes
      rw [hb] at hopen
      cases hopen
    | some b =>
      have honly : ∀ c, RecordsAt rd provider datas data c → c = b := by
        intro c hrec
        have hopen := (hcloses c).mp hrec.closes
        rw [hb] at hopen
        exact (Option.some.inj hopen).symm
      dsimp only
      by_cases hheld : b.buffered = ""
      · rw [if_neg (not_not.mpr hheld)]
        refine (or_iff_left ?_).symm
        rintro ⟨c, hrec, -⟩
        exact hrec.held (honly c hrec ▸ hheld)
      · rw [if_pos hheld]
        by_cases hr : Recordable (readTexts rd provider datas).boundTokens b.buffered
        · rw [push_recordable hr, List.mem_append, List.mem_singleton, Prod.mk.injEq]
          refine or_congr_right ⟨fun he => ⟨b, ⟨(hcloses b).mpr hb, hheld, hr⟩, he.2.symm⟩, ?_⟩
          rintro ⟨c, hrec, rfl⟩
          rw [honly c hrec]
          exact ⟨rfl, rfl⟩
        · rw [push_not_recordable hr]
          refine (or_iff_left ?_).symm
          rintro ⟨c, hrec, -⟩
          exact hr (honly c hrec ▸ hrec.recordable)
  · push Not at hclose
    rw [(other_mints _ hclose).thinking]
    refine (or_iff_left ?_).symm
    rintro ⟨b, hrec, -⟩
    obtain ⟨index, hindex, -⟩ := hrec.closes
    exact hclose index hindex

theorem thinking_token_iff (datas : List String) (text : String) :
    (BoundTokenKind.thinkingSignature, text) ∈ (readTexts rd provider datas).boundTokens ↔
      ∃ pre data b, pre ++ [data] <+: datas ∧ RecordsAt rd provider pre data b ∧ b.buffered = text := by
  induction datas using List.reverseRecOn with
  | nil =>
    refine iff_of_false List.not_mem_nil ?_
    rintro ⟨pre, data, b, hpre, -⟩
    simp at hpre
  | append_singleton datas data ih =>
    rw [thinking_token_snoc, ih]
    constructor
    · rintro (⟨pre, d, b, hpre, hrec⟩ | ⟨b, hrec⟩)
      · exact ⟨pre, d, b, hpre.trans (List.prefix_append _ _), hrec⟩
      · exact ⟨datas, data, b, List.prefix_refl _, hrec⟩
    · rintro ⟨pre, d, b, hpre, hrec⟩
      rcases List.prefix_concat_iff.mp hpre with heq | hpre
      · obtain ⟨rfl, hd⟩ := List.append_inj' heq rfl
        cases hd
        exact Or.inr ⟨b, hrec⟩
      · exact Or.inl ⟨pre, d, b, hpre, hrec⟩

theorem tokens_bound (datas : List String) :
    (readTexts rd provider datas).boundTokens.length ≤ boundTokenScanCap := by
  induction datas using List.reverseRecOn with
  | nil => exact Nat.zero_le _
  | append_singleton datas data ih =>
    by_cases hclose : ∃ index, heardEvent rd provider data = some (.close index)
    · obtain ⟨index, hindex⟩ := hclose
      rw [read_snoc, close_tokens datas hindex]
      split
      · split
        · exact length_push_bound ih
        · exact ih
      · exact ih
    · push Not at hclose
      rw [read_snoc]
      exact (other_mints _ hclose).length ih

theorem closed_thinking_snoc (datas : List String) (data : String) (b : ThinkingBlock) :
    b ∈ (history rd provider (datas ++ [data])).closedThinking ↔
      b ∈ (history rd provider datas).closedThinking ∨ Closes rd provider datas data b := by
  rw [history_snoc]
  unfold hear Closes
  cases heardEvent rd provider data with
  | none => simp
  | some e =>
    cases e with
    | close index => simp [BlockHistory.see, eq_comm]
    | openThinking index signature => simp [BlockHistory.see]
    | openTool index id name =>
      simp only [BlockHistory.see]
      split <;> simp
    | signature index fragment => simp [BlockHistory.see]
    | input index fragment =>
      simp only [BlockHistory.see]
      split <;> simp

theorem mem_closed_thinking {datas pre : List String} {data : String} {b : ThinkingBlock}
    (hpre : pre ++ [data] <+: datas) (hb : Closes rd provider pre data b) :
    b ∈ (history rd provider datas).closedThinking := by
  induction datas using List.reverseRecOn with
  | nil => simp at hpre
  | append_singleton datas last ih =>
    rw [closed_thinking_snoc]
    rcases List.prefix_concat_iff.mp hpre with heq | hpre
    · obtain ⟨rfl, hd⟩ := List.append_inj' heq rfl
      cases hd
      exact Or.inr hb
    · exact Or.inl (ih hpre)

/-- The call a tool block becomes was read from its whole input or from none. -/
theorem event_whole_or_none (b : ToolBlock) :
    b.event rd = toolUseEventFromBlock rd b.id b.name (rd.fromStr b.input) ∨
      b.event rd = toolUseEventFromBlock rd b.id b.name none := by
  unfold ToolBlock.event
  rcases b.buffered_input with hover | hwhole
  · rw [if_pos hover]
    exact Or.inr rfl
  · split
    · exact Or.inr rfl
    · rw [hwhole]
      exact Or.inl rfl

variable (rd provider)

/-- What a parse returns is whole: every signature is that of a reasoning block the stream closed,
every call was read from the whole input of a tool block it closed or from none, and neither list is
longer than its cap. -/
structure Whole (parse : SseParse L) (h : BlockHistory) : Prop where
  signatures : ∀ text, (BoundTokenKind.thinkingSignature, text) ∈ parse.boundTokens →
    ∃ b ∈ h.closedThinking, text = b.whole
  inputs : ∀ use ∈ parse.toolUses, ∃ b ∈ h.closedTools,
    use = toolUseEventFromBlock rd b.id b.name (rd.fromStr b.input) ∨
      use = toolUseEventFromBlock rd b.id b.name none
  tokens : parse.boundTokens.length ≤ boundTokenScanCap
  uses : parse.toolUses.length ≤ pendingToolCap

/-- The stream closes no more tool blocks than are kept, and a reasoning block that outgrew its cap
leaves nothing that its stop would record, unless that is the whole signature of another. -/
structure NothingLeft (datas : List String) : Prop where
  tools : (history rd provider datas).closedTools.length ≤ pendingToolCap
  remnants : ∀ pre data b, pre ++ [data] <+: datas → Closes rd provider pre data b → b.Outgrown →
    b.buffered = "" ∨ ¬ Recordable (readTexts rd provider pre).boundTokens b.buffered ∨
      ∃ other ∈ (history rd provider datas).closedThinking, b.buffered = other.whole

variable {rd provider}

theorem signatures_whole_iff (datas : List String) :
    (∀ text, (BoundTokenKind.thinkingSignature, text) ∈ (readTexts rd provider datas).boundTokens →
        ∃ b ∈ (history rd provider datas).closedThinking, text = b.whole) ↔
      ∀ pre data b, pre ++ [data] <+: datas → Closes rd provider pre data b → b.Outgrown →
        b.buffered = "" ∨ ¬ Recordable (readTexts rd provider pre).boundTokens b.buffered ∨
          ∃ other ∈ (history rd provider datas).closedThinking, b.buffered = other.whole := by
  constructor
  · intro hwhole pre data b hpre hcloses _
    by_cases hheld : b.buffered = ""
    · exact Or.inl hheld
    by_cases hr : Recordable (readTexts rd provider pre).boundTokens b.buffered
    · exact Or.inr (Or.inr (hwhole _ ((thinking_token_iff datas _).mpr
        ⟨pre, data, b, hpre, ⟨hcloses, hheld, hr⟩, rfl⟩)))
    · exact Or.inr (Or.inl hr)
  · intro hleft text htext
    obtain ⟨pre, data, b, hpre, hrec, rfl⟩ := (thinking_token_iff datas text).mp htext
    by_cases hgrown : b.Outgrown
    · rcases hleft pre data b hpre hrec.closes hgrown with hempty | hnot | hother
      · exact absurd hempty hrec.held
      · exact absurd hrec.recordable hnot
      · exact hother
    · exact ⟨b, mem_closed_thinking hpre hrec.closes, b.buffered_fits hgrown⟩

theorem parse_tokens (rd : Readers L) (items : List SseItem) (provider : Provider) (path : String) :
    (parseSseUsage rd items provider path).boundTokens =
      (readTexts rd provider (heard items)).boundTokens := by
  have hread : readItems rd provider {} items = readTexts rd provider (heard items) :=
    read_items_heard rd provider {} items
  rw [← hread]
  rfl

theorem parse_uses (rd : Readers L) (items : List SseItem) (provider : Provider) (path : String) :
    (parseSseUsage rd items provider path).toolUses =
      (history rd provider (heard items)).closedTools.map (ToolBlock.event rd) := by
  have htracks : Tracks rd (readTexts rd provider (heard items))
      (history rd provider (heard items)) := tracks_texts _
  have hread : readItems rd provider {} items = readTexts rd provider (heard items) :=
    read_items_heard rd provider {} items
  rw [← htracks.uses, ← hread]
  rfl

/-- What `parseSseUsage` returns of a stream, cut off anywhere, is whole exactly when the stream
leaves nothing of an overgrown signature to record and closes no more tool blocks than are kept. -/
theorem parse_whole_iff (rd : Readers L) (items : List SseItem) (provider : Provider)
    (path : String) :
    Whole rd (parseSseUsage rd items provider path) (history rd provider (heard items)) ↔
      NothingLeft rd provider (heard items) := by
  have htokens := parse_tokens rd items provider path
  have huses := parse_uses rd items provider path
  constructor
  · rintro ⟨hsignatures, -, -, hcap⟩
    rw [htokens] at hsignatures
    rw [huses, List.length_map] at hcap
    exact ⟨hcap, (signatures_whole_iff _).mp hsignatures⟩
  · rintro ⟨htools, hremnants⟩
    refine ⟨?_, ?_, ?_, ?_⟩
    · rw [htokens]
      exact (signatures_whole_iff _).mpr hremnants
    · rw [huses]
      intro use huse
      obtain ⟨b, hb, rfl⟩ := List.mem_map.mp huse
      exact ⟨b, hb, event_whole_or_none b⟩
    · rw [htokens]
      exact tokens_bound _
    · rw [huses, List.length_map]
      exact htools

end Tokens

/-! ## A signature that outgrew its cap -/

/-- A text of `2 ^ n` bytes. -/
def longText : Nat → String
  | 0 => "A"
  | n + 1 => longText n ++ longText n

theorem long_text_size (n : Nat) : (longText n).utf8ByteSize = 2 ^ n := by
  induction n with
  | zero => decide
  | succ n ih =>
    rw [longText, String.utf8ByteSize_append, ih]
    omega

def reasoningStart : String × Value :=
  ("\x7b\"type\":\"content_block_start\",\"index\":0,\"content_block\":\x7b\"type\":\"thinking\"\x7d\x7d",
    .object [("type", .string "content_block_start"), ("index", .number (.posInt 0)),
      ("content_block", .object [("type", .string "thinking")])])

def reasoningStop : String × Value :=
  ("\x7b\"type\":\"content_block_stop\",\"index\":0\x7d",
    .object [("type", .string "content_block_stop"), ("index", .number (.posInt 0))])

def signatureDelta (fragment : String) : String × Value :=
  ("\x7b\"type\":\"content_block_delta\",\"index\":0,\"delta\":" ++
    "\x7b\"type\":\"signature_delta\",\"signature\":\"" ++ fragment ++ "\"\x7d\x7d",
    .object [("type", .string "content_block_delta"), ("index", .number (.posInt 0)),
      ("delta", .object [("type", .string "signature_delta"), ("signature", .string fragment)])])

/-- The events of a reasoning block with a first fragment and a last one. -/
def twoFragments (long : String) : List (String × Value) :=
  [reasoningStart, signatureDelta long, signatureDelta "Zg==", reasoningStop]

/-- Readers that parse those events. -/
def fragmentReaders (long : String) : Readers Unit where
  fromStr text := (Value.object (twoFragments long)).get text
  normalizeBashCommand command := (command, .other)
  limitFromError _ := none

section Outgrown

variable {long : String} (hlong : signatureCap < long.utf8ByteSize)

theorem size_le_between (a b c : String) : b.utf8ByteSize ≤ (a ++ b ++ c).utf8ByteSize := by
  rw [String.utf8ByteSize_append, String.utf8ByteSize_append]
  omega

include hlong in
theorem long_delta_ne {text : String} (h : text.utf8ByteSize ≤ signatureCap) :
    (signatureDelta long).1 ≠ text := by
  intro heq
  have hsize : signatureCap < (signatureDelta long).1.utf8ByteSize :=
    hlong.trans_le (size_le_between _ _ _)
  rw [heq] at hsize
  exact absurd hsize (not_lt.mpr h)

include hlong in
theorem two_fragments_nodup : ((twoFragments long).map Prod.fst).Nodup := by
  have hstart : (signatureDelta long).1 ≠ reasoningStart.1 :=
    long_delta_ne hlong (by decide +kernel)
  have hshort : (signatureDelta long).1 ≠ (signatureDelta "Zg==").1 :=
    long_delta_ne hlong (by decide +kernel)
  have hstop : (signatureDelta long).1 ≠ reasoningStop.1 :=
    long_delta_ne hlong (by decide +kernel)
  have hrest : ([reasoningStart, signatureDelta "Zg==", reasoningStop].map Prod.fst).Nodup := by
    decide +kernel
  simp only [twoFragments, List.map_cons, List.map_nil, List.nodup_cons, List.mem_cons,
    List.not_mem_nil, or_false, not_or, not_false_eq_true, List.nodup_nil, and_true] at hrest ⊢
  exact ⟨⟨hstart.symm, hrest.1.1, hrest.1.2⟩, ⟨hshort, hstop⟩, hrest.2⟩

include hlong in
theorem fragment_parse {e : String × Value} (he : e ∈ twoFragments long) :
    e.1 ≠ "" ∧ (fragmentReaders long).fromStr e.1 = some e.2 := by
  refine ⟨?_, Value.get_object_of_mem (two_fragments_nodup hlong) he⟩
  simp only [twoFragments, List.mem_cons, List.not_mem_nil, or_false] at he
  rcases he with rfl | rfl | rfl | rfl
  · decide +kernel
  · exact long_delta_ne hlong (by decide +kernel)
  · decide +kernel
  · decide +kernel

include hlong in
theorem heard_fragment {e : String × Value} (he : e ∈ twoFragments long) :
    heardEvent (fragmentReaders long) .anthropic e.1 = blockEventOf e.2 := by
  obtain ⟨hne, hparse⟩ := fragment_parse hlong he
  simp only [heardEvent, if_neg hne, hparse, Option.bind_some]

include hlong in
theorem read_fragment {e : String × Value} (he : e ∈ twoFragments long) (s : SseState Unit) :
    readEvent (fragmentReaders long) .anthropic s e.1 =
      anthropicEvent (fragmentReaders long) { s with sawAnyEvent := true } e.2 := by
  obtain ⟨hne, hparse⟩ := fragment_parse hlong he
  simp only [readEvent, if_neg hne, hparse]

include hlong in
theorem hear_fragment {e : String × Value} (he : e ∈ twoFragments long) (h : BlockHistory)
    {event : BlockEvent} (hevent : blockEventOf e.2 = some event) :
    hear (fragmentReaders long) .anthropic h e.1 = h.see event := by
  simp only [hear, heard_fragment hlong he, hevent]

theorem reasoning_start_event : blockEventOf reasoningStart.2 = some (.openThinking 0 "") := by
  have hindex : blockIndex reasoningStart.2 = some 0 := rfl
  have hty : reasoningStart.2.str "type" = some "content_block_start" := rfl
  have hblock : reasoningStart.2.get "content_block" =
      some (.object [("type", .string "thinking")]) := rfl
  simp only [blockEventOf, hindex, hty, hblock, Option.bind_some]
  rfl

theorem signature_delta_event (fragment : String) :
    blockEventOf (signatureDelta fragment).2 = some (.signature 0 fragment) := by
  have hindex : blockIndex (signatureDelta fragment).2 = some 0 := rfl
  have hty : (signatureDelta fragment).2.str "type" = some "content_block_delta" := rfl
  have hfragment : signatureFragment (signatureDelta fragment).2 = some fragment := rfl
  simp only [blockEventOf, hindex, hty, deltaEvent, hfragment]

theorem reasoning_stop_event : blockEventOf reasoningStop.2 = some (.close 0) :=
  block_event_of_close.mpr ⟨rfl, rfl⟩

def openEvents (long : String) : List (String × Value) :=
  [reasoningStart, signatureDelta long, signatureDelta "Zg=="]

include hlong in
theorem open_events_history :
    history (fragmentReaders long) .anthropic ((openEvents long).map Prod.fst) =
      ((({} : BlockHistory).see (.openThinking 0 "")).see (.signature 0 long)).see
        (.signature 0 "Zg==") := by
  simp only [history, openEvents, List.map_cons, List.map_nil, Lib.exec_cons, Lib.exec_nil]
  rw [hear_fragment hlong (by simp [twoFragments]) _ reasoning_start_event,
    hear_fragment hlong (by simp [twoFragments]) _ (signature_delta_event long),
    hear_fragment hlong (by simp [twoFragments]) _ (signature_delta_event "Zg==")]

include hlong in
theorem closes_two_fragments :
    Closes (fragmentReaders long) .anthropic ((openEvents long).map Prod.fst) reasoningStop.1
      ⟨"", [long, "Zg=="]⟩ := by
  refine ⟨0, (heard_fragment hlong (by simp [twoFragments])).trans reasoning_stop_event, ?_⟩
  rw [open_events_history hlong]
  rfl

include hlong in
theorem two_fragments_closed :
    (history (fragmentReaders long) .anthropic ((twoFragments long).map Prod.fst)).closedThinking =
      [⟨"", [long, "Zg=="]⟩] := by
  have hsplit : (twoFragments long).map Prod.fst =
      (openEvents long).map Prod.fst ++ [reasoningStop.1] := rfl
  rw [hsplit, history_snoc, hear_fragment hlong (by simp [twoFragments]) _ reasoning_stop_event,
    open_events_history hlong]
  rfl

include hlong in
theorem open_events_tokens :
    (readTexts (fragmentReaders long) .anthropic ((openEvents long).map Prod.fst)).boundTokens =
      [] := by
  have hdelta : ∀ (s : SseState Unit) (fragment : String),
      (anthropicEvent (fragmentReaders long) s (signatureDelta fragment).2).boundTokens =
        s.boundTokens := by
    intro s fragment
    have hty : (signatureDelta fragment).2.str "type" = some "content_block_delta" := rfl
    simp only [anthropicEvent, hty]
    exact block_delta_tokens s _
  simp only [readTexts, openEvents, List.map_cons, List.map_nil, Lib.exec_cons, Lib.exec_nil]
  rw [read_fragment hlong (by simp [twoFragments]), hdelta,
    read_fragment hlong (by simp [twoFragments]), hdelta,
    read_fragment hlong (by simp [twoFragments])]
  rfl

include hlong in
theorem remnant_buffered : (ThinkingBlock.mk "" [long, "Zg=="]).buffered = "Zg==" := by
  have hdrop : extendSignature "" long = "" := by
    rw [extendSignature, if_neg]
    exact not_le.mpr (hlong.trans_le (Nat.le_add_left _ _))
  show extendSignature (extendSignature "" long) "Zg==" = _
  rw [hdrop]
  decide +kernel

include hlong in
theorem remnant_token :
    (BoundTokenKind.thinkingSignature, "Zg==") ∈ (readTexts (fragmentReaders long) .anthropic
      ((twoFragments long).map Prod.fst)).boundTokens := by
  refine (thinking_token_iff _ _).mpr ⟨(openEvents long).map Prod.fst, reasoningStop.1,
    ⟨"", [long, "Zg=="]⟩, List.prefix_refl _, ⟨closes_two_fragments hlong, ?_, ?_⟩,
    remnant_buffered hlong⟩
  · rw [remnant_buffered hlong]
    decide
  · rw [open_events_tokens hlong]
    exact ⟨by decide, fun seen hseen => absurd hseen List.not_mem_nil⟩

end Outgrown

/-- A reasoning block whose first fragment is of 32 KiB. -/
def remnantStream : List SseItem :=
  (twoFragments (longText 15)).map fun e => .event e.1

/-- The last four bytes of the signature are recorded as if they were all of it. -/
theorem remnant_recorded :
    ¬ Whole (fragmentReaders (longText 15))
        (parseSseUsage (fragmentReaders (longText 15)) remnantStream .anthropic "/v1/messages")
        (history (fragmentReaders (longText 15)) .anthropic (heard remnantStream)) := by
  have hlong : signatureCap < (longText 15).utf8ByteSize := by
    rw [long_text_size]
    decide
  have hheard : heard remnantStream = (twoFragments (longText 15)).map Prod.fst := rfl
  intro hwhole
  have hsignatures := hwhole.signatures
  rw [parse_tokens, hheard] at hsignatures
  obtain ⟨b, hb, htext⟩ := hsignatures "Zg==" (remnant_token hlong)
  rw [two_fragments_closed hlong, List.mem_singleton] at hb
  subst hb
  have hsize : (longText 15).utf8ByteSize ≤ "Zg==".utf8ByteSize := by
    rw [htext]
    exact size_le_between "" (longText 15) "Zg=="
  exact absurd (hlong.trans_le hsize) (by decide +kernel)

end TeamClaude
