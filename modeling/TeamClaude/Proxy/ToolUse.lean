import TeamClaude.Lib.Json

/-!
# Tool calls

The event a tool row is built from. A Claude `tool_use` block and a finished Codex output item each
have one reader, and the block reader is the one both arms of the response parse call.
-/

namespace TeamClaude

open Lib.Json (Value)

/-- A shell command's coarse category. -/
inductive CommandClass
  | wait
  | compound
  | search
  | gitNet
  | gitLocal
  | build
  | other
  deriving DecidableEq

structure ToolUseEvent where
  id : String
  name : Option String
  commandHead : Option String
  commandClass : Option CommandClass
  deriving DecidableEq

/-- What the readers take from elsewhere: the JSON decoder, the shell-command summary and the
advice a Codex error object gives. -/
structure Readers (L : Type) where
  /-- `serde_json::from_str`: the tree of a text, if it is JSON. -/
  fromStr : String → Option Value
  normalizeBashCommand : String → String × CommandClass
  /-- `CodexStreamLimit::from_error`. -/
  limitFromError : Value → Option L

variable {L : Type} (rd : Readers L)

def commandHeadMax : Nat := 120

/-- The first `commandHeadMax` characters. -/
def capped (s : String) : String :=
  String.ofList (s.toList.take commandHeadMax)

/-- What follows the first `pat`, if there is one. -/
def afterFirst (pat : List Char) : List Char → Option (List Char)
  | [] => none
  | c :: cs => if pat.isPrefixOf (c :: cs) then some ((c :: cs).drop pat.length)
    else afterFirst pat cs

/-- What follows the last `c`; everything when there is none. -/
def afterLast (c : Char) (cs : List Char) : List Char :=
  (cs.reverse.takeWhile (· ≠ c)).reverse

/-- The host part of a URL: no scheme, no path, no credentials. -/
def urlHost (raw : String) : String :=
  let afterScheme := (afterFirst "://".toList raw.toList).getD raw.toList
  let authority := afterScheme.takeWhile fun c => c ≠ '/' ∧ c ≠ '?' ∧ c ≠ '#'
  String.ofList (afterLast '@' authority)

/-- One event from a `tool_use` block's `id`, `name` and `input`. -/
def toolUseEventFromBlock (id : String) (name : Option String) (input : Option Value) :
    ToolUseEvent :=
  let field (key : String) : Option String := input.bind fun v => v.str key
  match name with
  | some "Bash" =>
    let summary := (field "command").map rd.normalizeBashCommand
    { id, name, commandHead := summary.map Prod.fst, commandClass := summary.map Prod.snd }
  | _ =>
    let commandHead := match name with
      | some "Agent" | some "Task" => (field "description").map fun description =>
        capped (match field "subagent_type" with
          | some subagentType => subagentType ++ ": " ++ description
          | none => description)
      | some "TaskOutput" => (field "task_id").map fun taskId =>
        capped ("TaskOutput · waiting on task " ++ taskId)
      | some tool =>
        if tool ∈ ["Read", "Edit", "Write", "NotebookEdit"] then
          ((field "file_path").or (field "notebook_path")).map fun path =>
            capped (tool ++ " " ++ path)
        else if tool ∈ ["Grep", "Glob"] then
          (field "pattern").map fun pattern => capped (tool ++ " " ++ pattern)
        else if tool = "WebFetch" then
          (field "url").map fun url => capped ("WebFetch " ++ urlHost url)
        else if tool = "WebSearch" then
          (field "query").map fun query => capped ("WebSearch " ++ query)
        else some (capped tool)
      | none => none
    { id, name, commandHead, commandClass := none }

/-- One tool call a Codex response asked for, with its own deadline. -/
structure CodexToolCall where
  event : ToolUseEvent
  timeoutSeconds : Option UInt64
  deriving DecidableEq

def codexArgumentsCap : Nat := 64 * 1024

/-- The script an argv runs: the last word under a shell, the words joined otherwise. -/
def shellScript (argv : Value) : Option String :=
  argv.asArray.bind fun elems =>
    match elems.filterMap Value.asStr with
    | [] => none
    | [shell, flag, script] =>
      if flag ∈ ["-c", "-lc"] ∧
          String.ofList (afterLast '/' shell.toList) ∈ ["bash", "sh", "zsh"] then
        some script
      else some (" ".intercalate [shell, flag, script])
    | words => some (" ".intercalate words)

/-- `u64::div_ceil`. -/
def divCeil (n d : UInt64) : UInt64 :=
  n / d + if n % d = 0 then 0 else 1

/-- The call's id, name and arguments, for the items that are tool calls. -/
def codexCallParts (item : Value) : Option (String × String × Option Value) :=
  match item.str "type" with
  | some "function_call" => do
    let id ← item.str "call_id"
    let name ← item.str "name"
    let raw := (item.str "arguments").filter fun raw => raw.utf8ByteSize ≤ codexArgumentsCap
    return (id, name, raw.bind rd.fromStr)
  | some "custom_tool_call" => do
    let id ← item.str "call_id"
    let name ← item.str "name"
    return (id, name, none)
  | some "local_shell_call" => do
    let id ← (item.str "call_id").or (item.str "id")
    return (id, "local_shell_call", item.get "action")
  | _ => none

/-- The tool call one finished Codex output item asked for. -/
def codexToolCallFromItem (item : Value) : Option CodexToolCall :=
  (codexCallParts rd item).map fun (id, name, arguments) =>
    let command := match name with
      | "exec_command" => arguments.bind fun args => args.str "cmd"
      | "local_shell_call" => (arguments.bind fun args => args.get "command").bind shellScript
      | _ => none
    let summary := command.map rd.normalizeBashCommand
    let deadline := arguments.filter fun _ => name ∈ ["exec_command", "local_shell_call"]
    { event := {
        id
        name := some name
        commandHead := some (match summary with
          | some (head, _) => head
          | none => capped name)
        commandClass := summary.map Prod.snd }
      timeoutSeconds := ((deadline.bind fun args => args.u64 "timeout_ms").map
        fun ms => divCeil ms 1000).filter fun s => 0 < s }

end TeamClaude
