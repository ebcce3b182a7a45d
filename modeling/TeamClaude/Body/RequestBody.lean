import TeamClaude.Body.AccountUuid
import TeamClaude.Body.ExtendAll

/-!
# One walk of a request body

A body is walked once, and the walk keeps both what the rewrite splices and where the account uuid
starts. The uuid is found in the client's bytes, so its offset is moved by the splices in front of it.
-/

namespace TeamClaude

open Lib.JsonText

/-! ## The walk -/

/-- The top-level members read. -/
def topNames : List Bytes :=
  [ascii "model", ascii "metadata", ascii "previous_message_id", ascii "thread", ascii "system",
    ascii "tools", ascii "messages"]

def metadataIndex : Nat := 1

def systemIndex : Nat := 4

def messagesIndex : Nat := 6

/-- A block with a `cache_control` key that is spelled without escapes. -/
def blockLiteral : Text .value → Bool
  | .object m => m.keys.any (·.1 == ascii "cache_control")
  | _ => false

def listLiteral (literal : Text .value → Bool) : Text .value → Bool
  | .array items => (items.elements 0).any fun p => literal p.2
  | _ => false

def messageLiteral : Text .value → Bool
  | .object m => (m.entries 0).any fun e =>
    memberSlot [ascii "content"] e.key == some (some 0) && listLiteral blockLiteral e.value
  | _ => false

def elementLiteral : Element → Text .value → Bool
  | .block => blockLiteral
  | .message => messageLiteral

/-- The key as the rewrite looks for it. -/
def literalText : Bytes :=
  ascii "\"cache_control\""

/-- What the walk keeps for the bytes to forward: how often each member was named, the members kept
as spans, and the splices of the last `system`, `tools` and `messages`. -/
structure Scan where
  counts : Nat → Nat
  spans : Nat → Option (Nat × Text .value)
  splices : Nat → List Splice
  /-- A `cache_control` key was spelled without escapes where the walk came. -/
  literalKey : Bool

structure RequestBody where
  /-- The client's bytes, or these with every breakpoint's `ttl` set. -/
  bytes : Bytes
  /-- The client's length, when the rewrite changed the body. -/
  rewrittenFrom : Option Nat
  /-- Where the account uuid starts in the bytes to forward. -/
  accountUuidAt : Option Nat

namespace Scan

def start : Scan where
  counts _ := 0
  spans _ := none
  splices _ := []
  literalKey := false

def duplicated (scan : Scan) (members : List Nat) : Bool :=
  members.any fun i => 1 < scan.counts i

section Walk

variable (inRange : Bytes → Bool)

/-- One top-level member. -/
def visit (scan : Scan) (e : Entry) : Option Scan := do
  match ← memberSlot topNames e.key with
  | none => some scan
  | some i =>
    let counts := Function.update scan.counts i (min 255 (scan.counts i + 1))
    if i < systemIndex then
      some { scan with
        counts := counts
        spans := Function.update scan.spans i (some (e.off, e.value)) }
    else
      let element := elementOf (i - systemIndex)
      let splices ← visitList inRange (visitElement inRange element) e.off e.value
      some
        { counts := counts
          -- `messages` is walked in place; the other two are kept as spans as well
          spans := if i = messagesIndex then scan.spans
            else Function.update scan.spans i (some (e.off, e.value))
          splices := Function.update scan.splices (i - systemIndex) splices
          literalKey := scan.literalKey || listLiteral (elementLiteral element) e.value }

/-- The walk of a text; none when it is not one JSON object the walk reads. -/
def run (text : Bytes) : Option Scan := do
  let d ← readDocument text
  match d.root with
  | .object m => (m.entries (d.pre.1.length + 1)).foldlM (visit inRange) start
  | .emptyObject _ => some start
  | _ => none

end Walk

/-- The splices of the rewrite, by where they start. -/
def queued (scan : Scan) (text : Bytes) (rewriteTtl : Bool) : List Splice :=
  if rewriteTtl then
    let literal := scan.literalKey || (findWindow literalText text).isSome
    if literal then sortByStart ((List.range 3).flatMap scan.splices) else []
  else []

/-- Where the account uuid starts once the splices are made: `metadata` is read for its `user_id`,
when it was named once. -/
def accountUuidAt (scan : Scan) (splices : List Splice) : Option Nat :=
  if scan.duplicated [metadataIndex] then none
  else do
    let raw ← scan.spans metadataIndex
    let userId ← (metaPeek raw.1 raw.2).join
    let within ← valueStartIn userId.2.render
    some (movedBy splices (userId.1 + within))

/-- The body to forward, and where the uuid starts in it. -/
def finish (scan : Scan) (text : Bytes) (rewriteTtl : Bool) : RequestBody :=
  let splices := scan.queued text rewriteTtl
  let rewritten := if splices.isEmpty then none else apply text splices
  let splices := if rewritten.isNone then [] else splices
  { bytes := rewritten.getD text
    rewrittenFrom := rewritten.map fun _ => text.length
    accountUuidAt := scan.accountUuidAt splices }

end Scan

namespace RequestBody

def unparsed (bytes : Bytes) : RequestBody where
  bytes := bytes
  rewrittenFrom := none
  accountUuidAt := none

/-- A body that is not UTF-8 or not an object the walk reads is forwarded untouched. -/
def parse (inRange : Bytes → Bool) (bytes : Bytes) (rewriteTtl : Bool) : RequestBody :=
  match if isUtf8 bytes then Scan.run inRange bytes else none with
  | some scan => scan.finish bytes rewriteTtl
  | none => unparsed bytes

def forAccount (body : RequestBody) (accountUuid : Bytes) : Bytes :=
  patchAt body.bytes accountUuid body.accountUuidAt

end RequestBody

/-! ## The two walks agree -/

theorem top_slot (k : Str) :
    slotOf topNames k = (slotOf (topNames.take 4) k).or ((slotOf rootNames k).map (· + 4)) := by
  cases k with
  | broken raw => rfl
  | text t => exact @List.findIdx?_append _ (topNames.take 4) rootNames (· == t)

/-- A top-level name that the rewrite walks is the fifth of all or a later one. -/
theorem root_slot_of_top (k : Str) : slotOf rootNames k =
    (slotOf topNames k).bind fun i => if i < systemIndex then none else some (i - systemIndex) := by
  rw [top_slot]
  cases hhead : slotOf (topNames.take 4) k with
  | none =>
    cases hroot : slotOf rootNames k with
    | none => rfl
    | some i => simp [systemIndex]
  | some i =>
    obtain ⟨hi, rfl⟩ := slot_eq_some hhead
    have hi4 : i < 4 := hi
    have hother : ∀ t ∈ topNames.take 4, slotOf rootNames (.text t) = none := by decide +kernel
    rw [hother _ (List.getElem_mem hi)]
    simp [systemIndex, hi4]

section Walk

variable (inRange : Bytes → Bool)

/-- The walk that only makes the splices. -/
abbrev visitRoots (i : Nat) (e : Entry) : Option (List Splice) :=
  visitList inRange (visitElement inRange (elementOf i)) e.off e.value

/-- What the walk of the whole body queues is what the rewrite's own walk does. -/
def Queues (scan : Scan) (found : Nat → Option (List Splice)) : Prop :=
  ∀ i, scan.splices i = (found i).getD []

theorem visit_queues {scan : Scan} {found : Nat → Option (List Splice)} (h : Queues scan found)
    (e : Entry) :
    Option.Rel Queues (scan.visit inRange e) (visitMember rootNames (visitRoots inRange) found e) := by
  unfold Scan.visit visitMember
  rw [member_slot_eq, member_slot_eq]
  cases e.key.decodes with
  | false => exact .none
  | true =>
    rw [root_slot_of_top]
    cases hslot : slotOf topNames e.key.str with
    | none => exact .some h
    | some i =>
      by_cases hi : i < systemIndex
      · simp only [if_true, Option.bind_eq_bind, Option.bind_some, hi]
        exact .some h
      · simp only [if_true, Option.bind_eq_bind, Option.bind_some, hi, if_false]
        dsimp only [visitRoots]
        cases visitList inRange (visitElement inRange (elementOf (i - systemIndex))) e.off e.value with
        | none => exact .none
        | some ss =>
          refine .some ?_
          intro j
          by_cases hj : j = i - systemIndex
          · subst hj
            simp
          · simpa [Function.update_of_ne hj] using h j

theorem walk_queues {scan : Scan} {found : Nat → Option (List Splice)} (h : Queues scan found)
    (es : List Entry) : Option.Rel Queues (es.foldlM (Scan.visit inRange) scan)
      (es.foldlM (visitMember rootNames (visitRoots inRange)) found) := by
  induction es generalizing scan found with
  | nil => exact .some h
  | cons e es ih =>
    rw [List.foldlM_cons, List.foldlM_cons]
    have hstep := visit_queues inRange h e
    revert hstep
    generalize scan.visit inRange e = a
    generalize visitMember rootNames (visitRoots inRange) found e = b
    rintro (hnext | -)
    · exact ih hnext
    · exact .none

/-! ## Where the uuid is -/

def metadataName : Bytes :=
  ascii "metadata"

theorem metadata_slot {key : Body} (hutf8 : isUtf8 key.1 = true) :
    slotOf topNames key.str = some metadataIndex ↔ keyText key = some metadataName := by
  unfold Body.str keyText
  cases hd : decode key.1 with
  | none => simp [slotOf]
  | some t =>
    have ht := decode_utf8 key hutf8 hd
    simp only [Option.bind_some, ht, if_true, Option.some.injEq]
    constructor
    · intro h
      obtain ⟨hi, htext⟩ := slot_eq_some h
      exact Str.text.inj htext
    · rintro rfl
      decide +kernel

variable {inRange}

/-- One step of the walk, and what it keeps of `metadata`. -/
theorem visit_metadata {scan scan' : Scan} {e : Entry} (hutf8 : isUtf8 e.key.1 = true)
    (h : scan.visit inRange e = some scan') :
    scan'.counts metadataIndex = (if keyText e.key = some metadataName then
        min 255 (scan.counts metadataIndex + 1) else scan.counts metadataIndex) ∧
      scan'.spans metadataIndex = (if keyText e.key = some metadataName then
        some (e.off, e.value) else scan.spans metadataIndex) := by
  simp only [← metadata_slot hutf8]
  unfold Scan.visit at h
  rw [member_slot_eq] at h
  cases hdecodes : e.key.decodes with
  | false => simp [hdecodes] at h
  | true =>
    cases hslot : slotOf topNames e.key.str with
    | none =>
      simp only [hdecodes, if_true, hslot, Option.bind_eq_bind, Option.bind_some] at h
      cases h
      simp
    | some i =>
      by_cases hi : i < systemIndex
      · simp only [hdecodes, if_true, hslot, Option.bind_eq_bind, Option.bind_some, hi] at h
        cases h
        by_cases hmeta : i = metadataIndex
        · simp [hmeta]
        · simp [hmeta, Function.update_of_ne (Ne.symm hmeta)]
      · simp only [hdecodes, if_true, hslot, Option.bind_eq_bind, Option.bind_some, hi,
          if_false] at h
        obtain ⟨ss, -, h⟩ := Option.bind_eq_some_iff.mp h
        cases h
        have hmeta : i ≠ metadataIndex := by
          rintro rfl
          exact hi (by decide)
        by_cases hmessages : i = messagesIndex
        · subst hmessages
          simp [hmeta, Function.update_of_ne (Ne.symm hmeta)]
        · simp [hmeta, hmessages, Function.update_of_ne (Ne.symm hmeta)]

/-- What the walk keeps of `metadata`: how often it was named, and the last of them. -/
theorem walk_metadata {scan scan' : Scan} {es : List Entry}
    (hutf8 : ∀ e ∈ es, isUtf8 e.key.1 = true)
    (h : es.foldlM (Scan.visit inRange) scan = some scan')
    (hcount : scan.counts metadataIndex ≤ 255) :
    scan'.counts metadataIndex =
        min 255 (scan.counts metadataIndex + (named metadataName es).length) ∧
      scan'.spans metadataIndex =
        ((named metadataName es).getLast?.map fun e => (e.off, e.value)).or
          (scan.spans metadataIndex) := by
  induction es generalizing scan with
  | nil =>
    cases h
    simp [named, hcount]
  | cons e es ih =>
    rw [List.foldlM_cons] at h
    obtain ⟨next, hvisit, h⟩ := Option.bind_eq_some_iff.mp h
    obtain ⟨hcounts, hspans⟩ := visit_metadata (hutf8 e List.mem_cons_self) hvisit
    have hafter : ∀ e ∈ es, isUtf8 e.key.1 = true :=
      fun e he => hutf8 e (List.mem_cons_of_mem _ he)
    have hnext : next.counts metadataIndex ≤ 255 := by
      rw [hcounts]
      split <;> omega
    obtain ⟨hcounts', hspans'⟩ := ih hafter h hnext
    rw [hcounts', hspans', hcounts, hspans]
    by_cases hmeta : keyText e.key = some metadataName
    · simp only [named, List.filter_cons, hmeta, beq_self_eq_true, if_true, List.length_cons,
        List.getLast?_cons]
      refine ⟨by omega, ?_⟩
      cases (es.filter fun e => keyText e.key == some metadataName).getLast? <;> rfl
    · simp [named, hmeta]

/-- Where the value starts in a `user_id`, from where its member starts. -/
def valueAt (move : Nat → Nat) (e : Entry) : Option Nat := do
  let userId ← (metaPeek e.off e.value).join
  let within ← valueStartIn userId.2.render
  some (move (userId.1 + within))

theorem uuid_at_walk {scan : Scan} {es : List Entry} (hutf8 : ∀ e ∈ es, isUtf8 e.key.1 = true)
    (h : es.foldlM (Scan.visit inRange) Scan.start = some scan) (ss : List Splice) :
    scan.accountUuidAt ss =
      match named metadataName es with
      | [e] => valueAt (movedBy ss) e
      | _ => none := by
  obtain ⟨hcounts, hspans⟩ := walk_metadata hutf8 h (Nat.zero_le _)
  unfold Scan.accountUuidAt Scan.duplicated
  simp only [List.any_cons, List.any_nil, Bool.or_false, hcounts, hspans, Scan.start]
  cases hes : named metadataName es with
  | nil => simp
  | cons e rest =>
    cases rest with
    | nil => simp [valueAt]
    | cons e' rest =>
      have htwice : 1 < min 255 (0 + (e :: e' :: rest).length) := by
        simp only [List.length_cons]
        omega
      rw [if_pos (decide_eq_true htwice)]

theorem locate_object {d : Document} {m : Text .members} (hroot : d.root = .object m)
    (hkeys : ∀ e ∈ m.entries (d.pre.1.length + 1), (keyText e.key).isSome = true) :
    locate d.render =
      match named metadataName (m.entries (d.pre.1.length + 1)) with
      | [e] => valueAt id e
      | _ => none := by
  have hpeek : bodyPeek d.pre.1.length d.root =
      ((m.entries (d.pre.1.length + 1)).foldlM (peekMember metadataName metaPeek) none).map
        (·.getD none) := by
    rw [hroot, bodyPeek, peekStruct, Option.map_eq_bind]
    rfl
  rw [locate, userIdOf, read_document_render]
  simp only [Option.bind_eq_bind, Option.bind_some, hpeek, peek_named hkeys]
  cases named metadataName (m.entries (d.pre.1.length + 1)) with
  | nil => rfl
  | cons e rest =>
    cases rest with
    | nil => cases hfield : metaPeek e.off e.value <;> simp [valueAt, hfield]
    | cons e' rest => rfl

/-! ## What the splices move -/

/-- The members after an edit that lets `metadata` be: the same keys, and its value where the splices
move it. -/
structure Moved (ss : List Splice) (es es' : List Entry) : Prop where
  keys : es'.map Entry.key = es.map Entry.key
  value : ∀ before e after, es = before ++ e :: after → keyText e.key = some metadataName →
    ∃ before' after' off', es' = before' ++ { e with off := off' } :: after' ∧
      before'.map Entry.key = before.map Entry.key ∧
        ∀ x ≤ e.value.render.length, movedBy ss (e.off + x) = off' + x

theorem Moved.refl (es : List Entry) : Moved [] es es where
  keys := rfl
  value before e after h _ := ⟨before, after, e.off, h, rfl, fun _ _ => rfl⟩

theorem named_keys (name : Bytes) {es es' : List Entry}
    (h : es'.map Entry.key = es.map Entry.key) :
    (named name es').map Entry.key = (named name es).map Entry.key := by
  have hmap : ∀ es : List Entry, (named name es).map Entry.key =
      (es.map Entry.key).filter fun key => keyText key == some name := by
    intro es
    rw [List.filter_map]
    rfl
  rw [hmap, hmap, h]

theorem Moved.named {ss : List Splice} {es es' : List Entry} (h : Moved ss es es') {e : Entry}
    (he : named metadataName es = [e]) :
    ∃ off', named metadataName es' = [{ e with off := off' }] ∧
      ∀ x ≤ e.value.render.length, movedBy ss (e.off + x) = off' + x := by
  obtain ⟨before, after, rfl, hbefore, hmeta, hafter⟩ := List.filter_eq_cons_iff.mp he
  have hkey : keyText e.key = some metadataName := beq_iff_eq.mp hmeta
  obtain ⟨before', after', off', rfl, hkeys, hmove⟩ := h.value before e after rfl hkey
  have hfront : TeamClaude.named metadataName before' = [] := by
    have hnone : TeamClaude.named metadataName before = [] :=
      List.filter_eq_nil_iff.mpr hbefore
    have hlen := congrArg List.length (named_keys metadataName hkeys)
    simpa [hnone] using hlen
  have hall := congrArg List.length (named_keys metadataName h.keys)
  rw [he] at hall
  refine ⟨off', ?_, hmove⟩
  have hsplit : TeamClaude.named metadataName
      (before' ++ { e with off := off' } :: after') =
        { e with off := off' } :: TeamClaude.named metadataName after' := by
    have happend : ∀ l l' : List Entry, TeamClaude.named metadataName (l ++ l') =
        TeamClaude.named metadataName l ++ TeamClaude.named metadataName l' :=
      fun l l' => List.filter_append l l'
    rw [happend, hfront, List.nil_append, TeamClaude.named, List.filter_cons, if_pos hmeta]
    rfl
  rw [hsplit] at hall ⊢
  have hback : TeamClaude.named metadataName after' = [] := by
    simpa using hall
  rw [hback]

theorem value_at_moved {ss : List Splice} {e : Entry} {off' : Nat}
    (h : ∀ x ≤ e.value.render.length, movedBy ss (e.off + x) = off' + x) :
    valueAt (movedBy ss) e = valueAt id { e with off := off' } := by
  unfold valueAt
  have hfrom := meta_relative e.off 0 e.value
  have hto := meta_relative off' 0 e.value
  rw [Nat.add_zero] at hfrom hto
  rw [hfrom, hto]
  cases hpeek : metaPeek 0 e.value with
  | none => rfl
  | some found =>
    cases found with
    | none => rfl
    | some userId =>
      cases hwithin : valueStartIn userId.2.render with
      | none => simp [hwithin]
      | some within =>
        obtain ⟨-, -, -, front, back, hrender, hpos, -⟩ := meta_local _ _ _ _ hpeek
        obtain ⟨p, hp, rfl⟩ := Option.map_eq_some_iff.mp hwithin
        obtain ⟨x, z, huser, rfl⟩ := find_window_split hp
        have hinside : userId.1 + (x.length + uuidPrefix.length) ≤ e.value.render.length := by
          rw [hrender, hpos, huser]
          simp only [List.length_append]
          omega
        have hmove := h _ hinside
        simp [hwithin, Nat.add_assoc, hmove]

theorem edit_moved {f : Nat → Text .value → Text .value}
    {g : Nat → Nat → Text .value → List Splice}
    (h : ∀ i off v, Edited off v.render (g i off v) (f i v).render) (m : Text .members) (off : Nat) :
    Moved (spliceLast (slotOf rootNames) g (m.entries off)) (m.entries off)
      ((m.editLast (slotOf rootNames) f).entries off) where
  keys := by rw [entries_keys, entries_keys, edit_last_keys]
  value := by
    intro before e after hm hkey
    have hslot : slotOf rootNames e.key.str = none := by
      obtain ⟨t, ht, hname⟩ := Option.bind_eq_some_iff.mp hkey
      have htext : e.key.str = .text metadataName := by
        unfold Body.str
        rw [ht]
        split at hname
        · exact congrArg Str.text (Option.some.inj hname)
        · cases hname
      rw [htext]
      decide +kernel
    obtain ⟨front, front', ss, ts, before', after', hfront, hsplices, hoff, hts, hentries, hkeys⟩ :=
      edit_last_entries h hm hslot off
    refine ⟨before', after', _, hentries, hkeys, ?_⟩
    intro x hx
    rw [hsplices, hoff]
    refine hfront.moved x ?_
    intro s hs
    have hafter := hts s hs
    omega

/-! ## The key spelled out -/

theorem block_literal_inside {v : Text .value} (h : blockLiteral v = true) :
    literalText <:+: v.render := by
  cases v with
  | object m =>
    obtain ⟨key, hkey, hname⟩ := List.any_eq_true.mp h
    have hrender : renderString key = literalText := by
      rw [renderString, beq_iff_eq.mp hname]
      decide
    rw [← hrender]
    exact (key_inside hkey).trans (List.suffix_cons _ _).isInfix
  | _ => cases h

theorem list_literal_inside {literal : Text .value → Bool}
    (hliteral : ∀ v, literal v = true → literalText <:+: v.render) {v : Text .value}
    (h : listLiteral literal v = true) : literalText <:+: v.render := by
  cases v with
  | array items =>
    obtain ⟨p, hp, hv⟩ := List.any_eq_true.mp h
    exact ((hliteral _ hv).trans (element_inside hp)).trans (List.suffix_cons _ _).isInfix
  | _ => cases h

theorem element_literal_inside {element : Element} {v : Text .value}
    (h : elementLiteral element v = true) : literalText <:+: v.render := by
  cases element with
  | block => exact block_literal_inside h
  | message =>
    cases v with
    | object m =>
      obtain ⟨e, he, hcontent⟩ := List.any_eq_true.mp h
      have hlist := list_literal_inside (fun _ => block_literal_inside)
        (Bool.and_eq_true_iff.mp hcontent).2
      exact (hlist.trans (entry_inside he)).trans (List.suffix_cons _ _).isInfix
    | _ => cases h

theorem visit_literal {scan scan' : Scan} {e : Entry} (h : scan.visit inRange e = some scan')
    (hliteral : scan'.literalKey = true) :
    scan.literalKey = true ∨ literalText <:+: e.value.render := by
  unfold Scan.visit at h
  obtain ⟨slot, -, h⟩ := Option.bind_eq_some_iff.mp h
  cases slot with
  | none =>
    cases h
    exact .inl hliteral
  | some i =>
    by_cases hi : i < systemIndex
    · simp only [hi, if_true] at h
      cases h
      exact .inl hliteral
    · simp only [hi, if_false] at h
      obtain ⟨ss, -, h⟩ := Option.bind_eq_some_iff.mp h
      cases h
      rcases Bool.or_eq_true_iff.mp hliteral with hliteral | hliteral
      · exact .inl hliteral
      · exact .inr (list_literal_inside (fun _ => element_literal_inside) hliteral)

theorem walk_literal {scan scan' : Scan} {es : List Entry}
    (h : es.foldlM (Scan.visit inRange) scan = some scan') (hliteral : scan'.literalKey = true) :
    scan.literalKey = true ∨ ∃ e ∈ es, literalText <:+: e.value.render := by
  induction es generalizing scan with
  | nil =>
    cases h
    exact .inl hliteral
  | cons e es ih =>
    rw [List.foldlM_cons] at h
    obtain ⟨next, hvisit, h⟩ := Option.bind_eq_some_iff.mp h
    rcases ih h with hnext | ⟨e', he', hin⟩
    · rcases visit_literal hvisit hnext with hscan | hin
      · exact .inl hscan
      · exact .inr ⟨e, List.mem_cons_self, hin⟩
    · exact .inr ⟨e', List.mem_cons_of_mem _ he', hin⟩

/-! ## A body that is read -/

theorem keys_utf8 {k : Kind} {m : Text k} (h : m.isUtf8 = true) :
    ∀ key ∈ m.keys, isUtf8 key.1 = true := by
  induction m with
  | lastMember head v post =>
    intro key hkey
    obtain rfl := List.mem_singleton.mp hkey
    exact (Bool.and_eq_true_iff.mp h).1
  | member head v post rest _ ih =>
    simp only [Text.isUtf8, Bool.and_eq_true] at h
    rintro key (_ | ⟨_, hkey⟩)
    · exact h.1.1
    · exact ih h.2 key hkey
  | _ => simp [Text.keys]

theorem mem_keys {k : Kind} {m : Text k} {off : Nat} {e : Entry} (h : e ∈ m.entries off) :
    e.key ∈ m.keys := by
  rw [← entries_keys m off]
  exact List.mem_map_of_mem h

theorem keys_read {m : Text .members} (hutf8 : m.isUtf8 = true)
    (hok : rootOk inRange (.object m) = true) :
    ∀ key ∈ m.keys, (keyText key).isSome = true := by
  intro key hkey
  rw [← entries_keys m 0] at hkey
  obtain ⟨e, he, rfl⟩ := List.mem_map.mp hkey
  have hmember : memberOk rootNames
      (fun i => listOk inRange (elementOk inRange (elementOf i))) e.key e.value = true := by
    rw [rootOk, ← entries_all _ m 0] at hok
    exact List.all_eq_true.mp hok e he
  have hdecode : e.key.decodes = true := by
    unfold memberOk at hmember
    rw [member_slot_eq] at hmember
    split at hmember
    · cases hmember
    all_goals
      rename_i hslot
      split at hslot
      · assumption
      · cases hslot
  obtain ⟨t, ht⟩ := Option.isSome_iff_exists.mp hdecode
  have hspelled := decode_utf8 e.key (keys_utf8 hutf8 e.key (mem_keys he)) ht
  rw [keyText, ht, Option.bind_some, if_pos hspelled]
  rfl

/-- The splices of a body the walk reads, in the order they stand in it. -/
theorem queued_of_reads {d : Document} {m : Text .members} (hroot : d.root = .object m)
    (hok : rootOk inRange d.root = true) :
    ∃ scan, (m.entries (d.pre.1.length + 1)).foldlM (Scan.visit inRange) Scan.start = some scan ∧
      ∀ rewriteTtl, scan.queued d.render rewriteTtl =
        if rewriteTtl ∧ (findWindow literalText d.render).isSome then
          rootEdit.splices d.pre.1.length d.root
        else [] := by
  obtain ⟨ss, hvisit, hperm⟩ := visit_root_some inRange hok d.pre.1.length
  rw [hroot] at hvisit
  obtain ⟨found, hfound, hss⟩ := Option.bind_eq_some_iff.mp hvisit
  have hstart : Queues Scan.start fun _ => none := fun _ => rfl
  have hwalk := walk_queues inRange hstart (m.entries (d.pre.1.length + 1))
  have hfold : (m.entries (d.pre.1.length + 1)).foldlM
      (visitMember rootNames (visitRoots inRange)) (fun _ => none) = some found := hfound
  rw [hfold] at hwalk
  generalize hscan : (m.entries (d.pre.1.length + 1)).foldlM (Scan.visit inRange) Scan.start = run
    at hwalk
  cases hwalk with
  | some hqueues =>
    rename_i scan
    refine ⟨scan, rfl, ?_⟩
    intro rewriteTtl
    have hliteral : scan.literalKey = true → (findWindow literalText d.render).isSome = true := by
      intro hliteral
      rcases walk_literal hscan hliteral with hstart | ⟨e, he, hin⟩
      · cases hstart
      · refine find_window_inside ?_
        have hm : e.value.render <:+: d.root.render := by
          rw [hroot]
          exact (entry_inside he).trans (List.suffix_cons _ _).isInfix
        exact (hin.trans hm).trans ⟨d.pre.1, d.post.1, rfl⟩
    have hsplices : (List.range 3).flatMap scan.splices = ss := by
      cases hss
      exact List.flatMap_congr fun i _ => hqueues i
    have hsort : sortByStart ((List.range 3).flatMap scan.splices) =
        rootEdit.splices d.pre.1.length d.root := by
      rw [hsplices]
      exact sort_of_perm hperm (document_edited d).sorted
    unfold Scan.queued
    rw [hsort]
    cases hfind : findWindow literalText d.render with
    | none =>
      have hno : scan.literalKey = false := by
        simpa [hfind] using hliteral
      simp [hno]
    | some p => simp

theorem extend_of_ok {d : Document} (hutf8 : isUtf8 d.render = true)
    (hok : rootOk inRange d.root = true) : extendAllTtls inRange d.render =
      if (findWindow literalText d.render).isSome ∧
          rootEdit.splices d.pre.1.length d.root ≠ [] then some (extendDocument d).render
      else none := by
  cases hfind : findWindow literalText d.render with
  | none =>
    rw [extend_of_no_literal inRange hfind]
    simp
  | some p =>
    have hliteral : (findWindow literalText d.render).isNone = false := by simp [hfind]
    rw [extend_of_reads inRange hutf8 hok hliteral]
    by_cases hnil : rootEdit.splices d.pre.1.length d.root = [] <;> simp [hnil]

/-- Where the walk found the uuid is where it stands in the rewritten body. -/
theorem uuid_at_moved {d : Document} {m : Text .members} (hroot : d.root = .object m)
    (hutf8 : isUtf8 d.render = true) (hok : rootOk inRange d.root = true) {scan : Scan}
    (hscan : (m.entries (d.pre.1.length + 1)).foldlM (Scan.visit inRange) Scan.start = some scan) :
    scan.accountUuidAt [] = locate d.render ∧
      scan.accountUuidAt (rootEdit.splices d.pre.1.length d.root) =
        locate (extendDocument d).render := by
  rw [document_utf8, hroot] at hutf8
  have hutf8 : m.isUtf8 = true := hutf8
  rw [hroot] at hok
  have hread := keys_read hutf8 hok
  have hkeys : ∀ e ∈ m.entries (d.pre.1.length + 1), isUtf8 e.key.1 = true :=
    fun e he => keys_utf8 hutf8 e.key (mem_keys he)
  have hsame : ∀ {ss : List Splice} {es' : List Entry},
      Moved ss (m.entries (d.pre.1.length + 1)) es' → scan.accountUuidAt ss =
        match named metadataName es' with
        | [e] => valueAt id e
        | _ => none := by
    intro ss es' hmoved
    rw [uuid_at_walk hkeys hscan]
    have hlength := congrArg List.length (named_keys metadataName hmoved.keys)
    rw [List.length_map, List.length_map] at hlength
    match hes : named metadataName (m.entries (d.pre.1.length + 1)) with
    | [] =>
      rw [hes] at hlength
      rw [List.length_eq_zero_iff.mp hlength]
    | [e] =>
      obtain ⟨off', hes', hmove⟩ := hmoved.named hes
      rw [hes']
      exact value_at_moved hmove
    | e :: e' :: rest =>
      rw [hes] at hlength
      match hes' : named metadataName es', hlength with
      | x :: y :: rest', _ => rfl
  constructor
  · rw [hsame (Moved.refl _)]
    exact (locate_object hroot fun e he => hread e.key (mem_keys he)).symm
  · have hroot' : (extendDocument d).root = .object (m.editLast (slotOf rootNames)
        fun i => (elementEdit (elementOf i)).each.text) := by
      rw [extendDocument, hroot]
      rfl
    have hmoved := edit_moved (fun i : Nat => (elementEdit (elementOf i)).each.edited) m
      (d.pre.1.length + 1)
    have hlocate := locate_object hroot' fun e he => hread e.key (by
      have hkey := mem_keys he
      rwa [edit_last_keys] at hkey)
    rw [hlocate, hroot]
    exact hsame hmoved

/-- The body that is forwarded is the rewritten one, and the uuid starts in it where it is found
anew. -/
theorem parse_of_reads {d : Document} (hutf8 : isUtf8 d.render = true)
    (hok : rootOk inRange d.root = true) (rewriteTtl : Bool) :
    (RequestBody.parse inRange d.render rewriteTtl).bytes =
        (if rewriteTtl then extendAllTtls inRange d.render else none).getD d.render ∧
      (RequestBody.parse inRange d.render rewriteTtl).accountUuidAt =
        locate (RequestBody.parse inRange d.render rewriteTtl).bytes := by
  unfold RequestBody.parse
  rw [if_pos hutf8, extend_of_ok hutf8 hok]
  cases hroot : d.root with
  | object m =>
    obtain ⟨scan, hscan, hqueued⟩ := queued_of_reads hroot hok
    obtain ⟨hplain, hmoved⟩ := uuid_at_moved hroot hutf8 hok hscan
    have hrun : Scan.run inRange d.render = some scan := by
      rw [Scan.run, read_document_render]
      simpa [hroot] using hscan
    rw [← hroot]
    simp only [hrun, Scan.finish, hqueued]
    by_cases hrewrite : rewriteTtl = true ∧ (findWindow literalText d.render).isSome = true ∧
        rootEdit.splices d.pre.1.length d.root ≠ []
    · obtain ⟨hon, hliteral, hne⟩ := hrewrite
      have happly : applyFrom ([] ++ d.render) 0 (rootEdit.splices d.pre.1.length d.root) =
          some (extendDocument d).render := (document_edited d).patches.apply_from rfl
      change apply d.render _ = _ at happly
      simp [hon, hliteral, hne, happly, hmoved]
    · have hnone : (if rewriteTtl = true ∧ (findWindow literalText d.render).isSome = true then
          rootEdit.splices d.pre.1.length d.root else []) = [] := by
        rw [ite_eq_right_iff]
        intro hon
        by_contra hne
        exact hrewrite ⟨hon.1, hon.2, hne⟩
      have hextend : (if rewriteTtl = true then
          (if (findWindow literalText d.render).isSome = true ∧
              rootEdit.splices d.pre.1.length d.root ≠ [] then
            some (extendDocument d).render else none) else none) = none := by
        rw [ite_eq_right_iff, ite_eq_right_iff]
        intro hon hoff
        exact absurd ⟨hon, hoff⟩ hrewrite
      simp only [hnone, hextend]
      exact ⟨rfl, hplain⟩
  | emptyObject ws =>
    have hrun : Scan.run inRange d.render = some Scan.start := by
      rw [Scan.run, read_document_render]
      simp [hroot]
    have hlocate : locate d.render = none := by
      rw [locate, userIdOf, read_document_render]
      simp [hroot, bodyPeek, peekStruct]
    have hqueued : Scan.start.queued d.render rewriteTtl = [] := by
      have hnone : (List.range 3).flatMap Scan.start.splices = [] := rfl
      simp [Scan.queued, hnone, sortByStart]
    have hsplices : rootEdit.splices d.pre.1.length (.emptyObject ws) = [] := rfl
    simp only [hrun, Scan.finish, hqueued, hsplices]
    refine ⟨by simp, ?_⟩
    simpa [Scan.accountUuidAt, Scan.start] using hlocate.symm
  | _ =>
    rw [hroot] at hok
    cases hok

theorem parse_of_not_reads {body : Bytes} (h : ∀ root, ¬Reads inRange body root)
    (rewriteTtl : Bool) :
    RequestBody.parse inRange body rewriteTtl = RequestBody.unparsed body := by
  unfold RequestBody.parse
  cases hutf8 : isUtf8 body with
  | false => rfl
  | true =>
    rw [if_pos rfl, Scan.run]
    cases hd : readDocument body with
    | none => rfl
    | some d =>
      have hok : rootOk inRange d.root = false := by
        rw [Bool.eq_false_iff]
        exact fun hok => h _ ⟨hutf8, d, hd, hok, rfl⟩
      cases hroot : d.root with
      | object m =>
        have hstart : Queues Scan.start fun _ => none := fun _ => rfl
        have hwalk := walk_queues inRange hstart (m.entries (d.pre.1.length + 1))
        have hmembers := visit_root_members inRange d.pre.1.length m
        rw [if_neg (by simp [← hroot, hok])] at hmembers
        have hfold : (m.entries (d.pre.1.length + 1)).foldlM
            (visitMember rootNames (visitRoots inRange)) (fun _ => none) = none := hmembers
        rw [hfold] at hwalk
        cases hrun : (m.entries (d.pre.1.length + 1)).foldlM (Scan.visit inRange) Scan.start with
        | none => simp [hroot, hrun]
        | some scan =>
          rw [hrun] at hwalk
          cases hwalk
      | emptyObject ws =>
        rw [hroot] at hok
        cases hok
      | _ => simp [hroot]

/-- What is sent for an account is the forwarded body patched for it, as if the uuid were looked for
in that body; a body the walk cannot read is sent as the client sent it. -/
theorem for_account_patches (inRange : Bytes → Bool) (body : Bytes) (rewriteTtl : Bool) :
    (RequestBody.parse inRange body rewriteTtl).bytes =
        (if rewriteTtl then extendAllTtls inRange body else none).getD body ∧
      ((∃ root, Reads inRange body root) → ∀ uuid,
        (RequestBody.parse inRange body rewriteTtl).forAccount uuid =
          patchAccountUuid (RequestBody.parse inRange body rewriteTtl).bytes uuid) ∧
      ((∀ root, ¬Reads inRange body root) → ∀ uuid,
        (RequestBody.parse inRange body rewriteTtl).forAccount uuid = body) := by
  by_cases hreads : ∃ root, Reads inRange body root
  · obtain ⟨root, hutf8, d, hd, hok, rfl⟩ := hreads
    obtain rfl := read_document_eq hd
    obtain ⟨hbytes, hat⟩ := parse_of_reads hutf8 hok rewriteTtl
    refine ⟨hbytes, ?_, ?_⟩
    · intro _ uuid
      rw [RequestBody.forAccount, hat]
      rfl
    · intro hno
      exact absurd ⟨hutf8, d, hd, hok, rfl⟩ (hno _)
  · have hno : ∀ root, ¬Reads inRange body root := fun root hroot => hreads ⟨root, hroot⟩
    rw [parse_of_not_reads hno]
    refine ⟨?_, fun hroot => absurd hroot hreads, ?_⟩
    · rw [extend_of_not_reads inRange hno]
      simp [RequestBody.unparsed]
    · intro _ uuid
      unfold RequestBody.forAccount RequestBody.unparsed patchAt
      split
      · rfl
      split <;> rfl

end Walk

end TeamClaude
