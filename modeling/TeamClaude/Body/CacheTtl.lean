import Mathlib.Logic.Function.Basic
import TeamClaude.Lib.JsonText.Members
import TeamClaude.Lib.JsonText.Window

/-!
# The one-hour cache rewrite

`extend_all_ttls` walks a request body down to the `cache_control` of each block and writes
`"ttl":"1h"` into every one that does not say so already, as splices of the client's own bytes.
-/

namespace TeamClaude

open Lib.JsonText

/-! ## Members by name -/

/-- A key as the index of the name it spells; none when it spells no text. -/
def memberSlot (names : List Bytes) (key : Body) : Option (Option Nat) :=
  (decode key.1).map fun text => names.findIdx? (· == text)

/-- A member under one of the names is visited, any other is skipped. -/
def visitMember {α : Type} (names : List Bytes) (visit : Nat → Entry → Option α)
    (found : Nat → Option α) (e : Entry) : Option (Nat → Option α) := do
  match ← memberSlot names e.key with
  | none => some found
  | some i =>
    let a ← visit i e
    some (Function.update found i (some a))

/-- The walk of an object's members: a name that repeats keeps what its last visit gave. -/
def visitMembers {α : Type} (names : List Bytes) (visit : Nat → Entry → Option α)
    (es : List Entry) : Option (Nat → Option α) :=
  es.foldlM (visitMember names visit) fun _ => none

/-- The named members of an object, none when the value is not one. -/
def members (off : Nat) (raw : Text .value) (names : List Bytes) : Option (Nat → Option Entry) :=
  match raw with
  | .object m => visitMembers names (fun _ e => some e) (m.entries (off + 1))
  | .emptyObject _ => some fun _ => none
  | _ => none

/-! ## A breakpoint -/

def extendedTtl : Bytes := ascii "1h"

def extendedTtlJson : Bytes := ascii "\"1h\""

def isExtendedTtl (ttl : Text .value) : Bool :=
  ttl.render == extendedTtlJson ||
    match ttl with
    | .string body => decode body.1 == some extendedTtl
    | _ => false

/-- The ASCII whitespace that `trim_end` takes off. -/
def isTrimmed (b : UInt8) : Bool :=
  isSpace b || b == 0x0B || b == 0x0C

def trimEnd (t : Bytes) : Bytes :=
  (t.reverse.dropWhile isTrimmed).reverse

/-- The splice that makes the `cache_control` at an offset ask for the hour, if it is an object
that does not. -/
def extendCacheControl (off : Nat) (cacheControl : Text .value) : List Splice :=
  match members off cacheControl [ascii "ttl"] with
  | none => []
  | some found =>
    match found 0 with
    | some ttl =>
      if isExtendedTtl ttl.value then []
      else
        [{ start := ttl.off
           stop := ttl.off + ttl.value.render.length
           text := extendedTtlJson }]
    | none =>
      let object := cacheControl.render
      let inside := trimEnd (object.drop 1).dropLast
      let pos := off + 1 + inside.length
      [{ start := pos
         stop := pos
         text := if inside.isEmpty then ascii "\"ttl\":\"1h\"" else ascii ",\"ttl\":\"1h\"" }]

/-! ## The walk -/

inductive Element
  | block
  | message

section Walk

-- `inRange` stands for the parser's test that a number fits the type it is read into
variable (inRange : Bytes → Bool)

/-- A value that is skipped is still parsed: a string must spell a text, and a number must be in
range. -/
def isParsed : Text .value → Bool
  | .scalar t => !isNumber t.1 || inRange t.1
  | .string body => body.decodes
  | _ => true

def visitItems (visit : Nat → Text .value → Option (List Splice))
    (elements : List (Nat × Text .value)) : Option (List Splice) :=
  elements.foldlM (fun ss p => (visit p.1 p.2).map (ss ++ ·)) []

/-- A list of elements; any other value is skipped. -/
def visitList (visit : Nat → Text .value → Option (List Splice)) (off : Nat) :
    Text .value → Option (List Splice)
  | .array items => visitItems visit (items.elements (off + 1))
  | .object m => if (m.entries (off + 1)).all (·.key.decodes) then some [] else none
  | v => if isParsed inRange v then some [] else none

/-- A `system` block, a tool definition or a content block. -/
def visitBlock (off : Nat) : Text .value → Option (List Splice)
  | .object m => do
    let found ← visitMembers [ascii "cache_control"] (fun _ e => some e) (m.entries (off + 1))
    match found 0 with
    | none => some []
    | some cacheControl => some (extendCacheControl cacheControl.off cacheControl.value)
  | v => if isParsed inRange v then some [] else none

/-- An entry of `messages`: its `content` may be a list of blocks. -/
def visitMessage (off : Nat) : Text .value → Option (List Splice)
  | .object m => do
    let found ← visitMembers [ascii "content"]
      (fun _ e => visitList inRange (visitBlock inRange) e.off e.value) (m.entries (off + 1))
    some ((found 0).getD [])
  | v => if isParsed inRange v then some [] else none

def visitElement : Element → Nat → Text .value → Option (List Splice)
  | .block => visitBlock inRange
  | .message => visitMessage inRange

def rootNames : List Bytes :=
  [ascii "system", ascii "tools", ascii "messages"]

def elementOf (i : Nat) : Element :=
  if i = 2 then .message else .block

def visitRoot (off : Nat) : Text .value → Option (List Splice)
  | .object m => do
    let found ← visitMembers rootNames
      (fun i e => visitList inRange (visitElement inRange (elementOf i)) e.off e.value)
      (m.entries (off + 1))
    some ((List.range 3).flatMap fun i => (found i).getD [])
  | .emptyObject _ => some []
  | _ => none

/-- Nothing when the body needs no rewrite or is not one the walk reads. -/
def extendAllTtls (body : Bytes) : Option Bytes := do
  if (findWindow (ascii "\"cache_control\"") body).isNone then none
  else if !isUtf8 body then none
  else
    let d ← readDocument body
    let splices ← visitRoot inRange d.pre.1.length d.root
    if splices.isEmpty then none else apply body (sortByStart splices)

end Walk

/-! ## Names -/

/-- A name's index, as a map knows its keys. -/
def slotOf (names : List Bytes) : Str → Option Nat
  | .text t => names.findIdx? (· == t)
  | .broken _ => none

theorem member_slot_eq (names : List Bytes) (key : Body) :
    memberSlot names key = if key.decodes then some (slotOf names key.str) else none := by
  unfold memberSlot Body.decodes Body.str
  cases decode key.1 <;> simp [slotOf]

theorem slot_eq_some {names : List Bytes} {k : Str} {i : Nat} (h : slotOf names k = some i) :
    ∃ hi : i < names.length, k = .text names[i] := by
  cases k with
  | broken raw => cases h
  | text t =>
    obtain ⟨hi, heq, -⟩ := List.findIdx?_eq_some_iff_getElem.mp h
    exact ⟨hi, congrArg Str.text (beq_iff_eq.mp heq).symm⟩

theorem slot_injective (names : List Bytes) (k k' : Str) (i : Nat) (h : slotOf names k = some i)
    (h' : slotOf names k' = some i) : k = k' := by
  obtain ⟨hi, rfl⟩ := slot_eq_some h
  obtain ⟨-, rfl⟩ := slot_eq_some h'
  rfl

/-! ## Walking members and items -/

/-- A member the walk can read: its key spells a text, and a named one is visited. -/
def memberOk (names : List Bytes) (ok : Nat → Text .value → Bool) (key : Body) (v : Text .value) :
    Bool :=
  match memberSlot names key with
  | none => false
  | some none => true
  | some (some i) => ok i v

variable {α : Type} {names : List Bytes} {ok : Nat → Text .value → Bool} {g : Nat → Entry → α}
  {visit : Nat → Entry → Option α}

theorem visit_members_from (hvisit : ∀ i e, visit i e = if ok i e.value then some (g i e) else none)
    (es : List Entry) (found : Nat → Option α) : es.foldlM (visitMember names visit) found =
    if es.all (fun e => memberOk names ok e.key e.value) then
      some fun i => ((lastOf (slotOf names) i es).map (g i)).or (found i)
    else none := by
  induction es generalizing found with
  | nil => simp [lastOf]
  | cons e es ih =>
    rw [List.foldlM_cons, List.all_cons, visitMember]
    cases hslot : memberSlot names e.key with
    | none => simp [memberOk, hslot]
    | some slot =>
      have hs : slotOf names e.key.str = slot := by
        rw [member_slot_eq] at hslot
        split at hslot
        · exact Option.some.inj hslot
        · cases hslot
      cases slot with
      | none => simpa [memberOk, hslot, lastOf, hs] using ih found
      | some i =>
        cases hok : ok i e.value with
        | false => simp [memberOk, hslot, hvisit, hok]
        | true =>
          have hstep : ∀ j, ((lastOf (slotOf names) j es).map (g j)).or
                (Function.update found i (some (g i e)) j) =
              ((lastOf (slotOf names) j (e :: es)).map (g j)).or (found j) := by
            intro j
            by_cases hij : i = j
            · subst hij
              cases hlast : lastOf (slotOf names) i es <;> simp [lastOf, hs, hlast]
            · simp [lastOf, hs, hij, Function.update_of_ne (Ne.symm hij)]
          simpa [memberOk, hslot, hvisit, hok, hstep] using
            ih (Function.update found i (some (g i e)))

/-- Every key is read, and each name keeps what its last member gave. -/
theorem visit_members_eq (hvisit : ∀ i e, visit i e = if ok i e.value then some (g i e) else none)
    (es : List Entry) : visitMembers names visit es =
    if es.all (fun e => memberOk names ok e.key e.value) then
      some fun i => (lastOf (slotOf names) i es).map (g i)
    else none := by
  refine (visit_members_from hvisit es fun _ => none).trans ?_
  simp only [Option.or_none]

theorem member_ok_true (names : List Bytes) (key : Body) (v : Text .value) :
    memberOk names (fun _ _ => true) key v = key.decodes := by
  unfold memberOk
  rw [member_slot_eq]
  cases key.decodes with
  | false => rfl
  | true => cases slotOf names key.str <;> rfl

/-- Where the members are only picked, nothing but a key can fail. -/
theorem pick_members_eq (names : List Bytes) (es : List Entry) :
    visitMembers names (fun _ e => some e) es =
      if es.all (fun e => e.key.decodes) then some fun i => lastOf (slotOf names) i es
      else none := by
  have h := @visit_members_eq Entry names (fun _ _ => true) (fun _ e => e) (fun _ e => some e)
    (fun _ _ => rfl) es
  simpa only [member_ok_true, Option.map_id_fun', id_eq] using h

theorem visit_items_eq {visit : Nat → Text .value → Option (List Splice)}
    {ok : Text .value → Bool} {g : Nat → Text .value → List Splice}
    (hvisit : ∀ off v, visit off v = if ok v then some (g off v) else none)
    (es : List (Nat × Text .value)) : visitItems visit es =
    if es.all (fun p => ok p.2) then some (es.flatMap fun p => g p.1 p.2) else none := by
  have hfrom : ∀ ss, es.foldlM (fun ss p => (visit p.1 p.2).map (ss ++ ·)) ss =
      if es.all (fun p => ok p.2) then some (ss ++ es.flatMap fun p => g p.1 p.2) else none := by
    induction es with
    | nil => simp
    | cons p es ih =>
      intro ss
      rw [List.foldlM_cons, hvisit]
      cases hok : ok p.2 with
      | false => simp [hok]
      | true =>
        rw [List.all_cons, hok, Bool.true_and]
        simpa using ih (ss ++ g p.1 p.2)
  exact hfrom []

/-! ## The values the walk reads -/

def keysOk {k : Kind} (m : Text k) : Bool :=
  m.allMembers fun key _ => key.decodes

section Ok

variable (inRange : Bytes → Bool)

def listOk (ok : Text .value → Bool) : Text .value → Bool
  | .array items => items.allItems ok
  | .object m => keysOk m
  | v => isParsed inRange v

def blockOk : Text .value → Bool
  | .object m => keysOk m
  | v => isParsed inRange v

def messageOk : Text .value → Bool
  | .object m => m.allMembers (memberOk [ascii "content"] fun _ => listOk inRange (blockOk inRange))
  | v => isParsed inRange v

def elementOk : Element → Text .value → Bool
  | .block => blockOk inRange
  | .message => messageOk inRange

/-- A body's value that the walk reads: an object, and in it every value it comes to is parsed. -/
def rootOk : Text .value → Bool
  | .object m =>
    m.allMembers (memberOk rootNames fun i => listOk inRange (elementOk inRange (elementOf i)))
  | .emptyObject _ => true
  | _ => false

end Ok

end TeamClaude
