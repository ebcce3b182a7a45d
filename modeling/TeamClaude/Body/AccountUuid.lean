import TeamClaude.Lib.JsonText.Strings
import TeamClaude.Lib.JsonText.Tree
import TeamClaude.Lib.JsonText.Window
import TeamClaude.Lib.JsonText.Lex

/-!
# The account uuid in a request body

`metadata.user_id` is a string that holds a JSON text of its own, and in it the uuid of the logged-in
account. The proxy writes the uuid of the account whose token it injects over it, byte for byte.
-/

namespace TeamClaude

open Lib.JsonText

/-! ## Finding the value -/

/-- What stands in front of the uuid, as the escaped text spells it. -/
def uuidPrefix : Bytes :=
  ascii "account_uuid\\\":\\\""

/-- A key as the parser hands it over: the text it spells, when that is UTF-8. -/
def keyText (key : Body) : Option Bytes :=
  (decode key.1).bind fun text => if isUtf8 text then some text else none

section Peek

variable {α : Type} (name : Bytes) (field : Nat → Text .value → Option (Option α))

/-- One member of a struct with one optional field: the field is read once at most, any other
member is skipped. -/
def peekMember (found : Option (Option α)) (e : Entry) : Option (Option (Option α)) := do
  let key ← keyText e.key
  if key == name then
    if found.isSome then none
    else
      let value ← field e.off e.value
      some (some value)
  else some found

/-- A struct with one optional field, read from an object or from an array of its one field. -/
def peekStruct (off : Nat) : Text .value → Option (Option α)
  | .object m => do
    let found ← (m.entries (off + 1)).foldlM (peekMember name field) none
    some (found.getD none)
  | .emptyObject _ => some none
  | .array (.lastItem pre v _) => field (off + 1 + pre.1.length) v
  | _ => none

end Peek

/-- The verbatim text of a value, where it starts; none for null. -/
def rawField (off : Nat) (v : Text .value) : Option (Option (Nat × Text .value)) :=
  if v.isNull then some none
  else if isUtf8 v.render then some (some (off, v))
  else none

/-- `metadata`, and of it only its `user_id`. -/
def metaPeek (off : Nat) (v : Text .value) : Option (Option (Nat × Text .value)) :=
  if v.isNull then some none else peekStruct (ascii "user_id") rawField off v

def bodyPeek : Nat → Text .value → Option (Option (Nat × Text .value)) :=
  peekStruct (ascii "metadata") metaPeek

/-- The offset in `user_id`'s raw text at which the value to overwrite starts. -/
def valueStartIn (userIdRaw : Bytes) : Option Nat :=
  (findWindow uuidPrefix userIdRaw).map (· + uuidPrefix.length)

/-- The raw text of `metadata.user_id`, and where it starts in the body. -/
def userIdOf (body : Bytes) : Option (Nat × Text .value) := do
  let d ← readDocument body
  (bodyPeek d.pre.1.length d.root).join

def locate (body : Bytes) : Option Nat := do
  let raw ← userIdOf body
  let start ← valueStartIn raw.2.render
  some (raw.1 + start)

/-! ## Overwriting it -/

def isMetachar (b : UInt8) : Bool :=
  b == quote || b == backslash

/-- The body with the uuid written over the 36 bytes at the start, when these are a clean value that
ends in an escaped quote; else the body as it is. -/
def patchAt (body newUuid : Bytes) (start : Option Nat) : Bytes :=
  if newUuid.length ≠ 36 then body
  else if newUuid.any isMetachar then body
  else
    match start with
    | none => body
    | some start =>
      let stop := start + 36
      if stop + 2 > body.length then body
      else
        let value := (body.drop start).take 36
        if value.any isMetachar then body
        else if body[stop]? ≠ some backslash ∨ body[stop + 1]? ≠ some quote then body
        else if value = newUuid then body
        else body.take start ++ newUuid ++ body.drop stop

def patchAccountUuid (body newUuid : Bytes) : Bytes :=
  patchAt body newUuid (locate body)

/-! ## The value that is found can be exchanged -/

section Peek

variable {name : Bytes} {field : Nat → Text .value → Option (Option (Nat × Text .value))}

/-- Members of other names, whose keys the parser reads. -/
def Others (name : Bytes) (es : List Entry) : Prop :=
  ∀ e ∈ es, ∃ key, keyText e.key = some key ∧ key ≠ name

theorem others_fold {es : List Entry} (h : Others name es)
    (found : Option (Option (Nat × Text .value))) :
    es.foldlM (peekMember name field) found = some found := by
  induction es with
  | nil => rfl
  | cons e es ih =>
    obtain ⟨key, hkey, hne⟩ := h e List.mem_cons_self
    have hstep : peekMember name field found e = some found := by
      simp [peekMember, hkey, hne]
    rw [List.foldlM_cons, hstep]
    exact ih fun e' he' => h e' (List.mem_cons_of_mem e he')

/-- Once the field is found there is no other of its name. -/
theorem fold_found {es : List Entry} {x : Option (Nat × Text .value)}
    {found : Option (Option (Nat × Text .value))}
    (h : es.foldlM (peekMember name field) (some x) = some found) :
    found = some x ∧ Others name es := by
  induction es with
  | nil =>
    cases h
    exact ⟨rfl, List.forall_mem_nil _⟩
  | cons e es ih =>
    rw [List.foldlM_cons] at h
    obtain ⟨found', hstep, h⟩ := Option.bind_eq_some_iff.mp h
    obtain ⟨key, hkey, hstep⟩ := Option.bind_eq_some_iff.mp hstep
    by_cases hname : key = name
    · simp [hname] at hstep
    · simp only [beq_iff_eq, hname, if_false, Option.some.injEq] at hstep
      subst hstep
      obtain ⟨rfl, hes⟩ := ih h
      refine ⟨rfl, ?_⟩
      rintro e' (_ | ⟨_, he'⟩)
      · exact ⟨key, hkey, hname⟩
      · exact hes e' he'

theorem fold_split {es : List Entry} {x : Option (Nat × Text .value)}
    (h : es.foldlM (peekMember name field) none = some (some x)) :
    ∃ before e after, es = before ++ e :: after ∧ Others name before ∧ Others name after ∧
      keyText e.key = some name ∧ field e.off e.value = some x := by
  induction es with
  | nil => cases h
  | cons e es ih =>
    rw [List.foldlM_cons] at h
    obtain ⟨found, hstep, h⟩ := Option.bind_eq_some_iff.mp h
    obtain ⟨key, hkey, hstep⟩ := Option.bind_eq_some_iff.mp hstep
    by_cases hname : key = name
    · subst hname
      simp only [beq_self_eq_true, if_true, Option.isSome_none, Bool.false_eq_true, if_false]
        at hstep
      obtain ⟨value, hvalue, hstep⟩ := Option.bind_eq_some_iff.mp hstep
      cases hstep
      obtain ⟨heq, hafter⟩ := fold_found h
      cases heq
      exact ⟨[], e, es, rfl, List.forall_mem_nil _, hafter, hkey, hvalue⟩
    · simp only [beq_iff_eq, hname, if_false, Option.some.injEq] at hstep
      subst hstep
      obtain ⟨before, e', after, rfl, hbefore, hafter, hkey', hfield⟩ := ih h
      refine ⟨e :: before, e', after, rfl, ?_, hafter, hkey', hfield⟩
      rintro x (_ | ⟨_, hx⟩)
      · exact ⟨key, hkey, hname⟩
      · exact hbefore x hx

/-- A reader that finds a value verbatim in the text it reads, and finds there any other value of
the same length. -/
def Local (field : Nat → Text .value → Option (Option (Nat × Text .value))) : Prop :=
  ∀ off v pos u, field off v = some (some (pos, u)) →
    v.isNull = false ∧ u.isNull = false ∧ isUtf8 u.render = true ∧
      ∃ front back, v.render = front ++ u.render ++ back ∧ pos = off + front.length ∧
        ∀ u' : Text .value, u'.render.length = u.render.length → u'.isNull = false →
          isUtf8 u'.render = true → ∃ v' : Text .value,
            v'.render = front ++ u'.render ++ back ∧ v'.isNull = false ∧
              field off v' = some (some (pos, u'))

theorem raw_local : Local rawField := by
  intro off v pos u h
  unfold rawField at h
  cases hnull : v.isNull with
  | true => simp [hnull] at h
  | false =>
    simp only [hnull, Bool.false_eq_true, if_false] at h
    split at h
    · rename_i hutf8
      cases h
      refine ⟨rfl, hnull, hutf8, [], [], by simp, rfl, ?_⟩
      intro u' _ hnull' hutf8'
      exact ⟨u', by simp, hnull', by simp [rawField, hnull', hutf8']⟩
    · cases h

theorem peek_object_local (hfield : Local field) {off pos : Nat} {m : Text .members}
    {u : Text .value} (h : peekStruct name field off (.object m) = some (some (pos, u))) :
    u.isNull = false ∧ isUtf8 u.render = true ∧
      ∃ front back, (Text.object m).render = front ++ u.render ++ back ∧
        pos = off + front.length ∧
          ∀ u' : Text .value, u'.render.length = u.render.length → u'.isNull = false →
            isUtf8 u'.render = true → ∃ m' : Text .members,
              (Text.object m').render = front ++ u'.render ++ back ∧
                peekStruct name field off (.object m') = some (some (pos, u')) := by
  obtain ⟨found, hfold, h⟩ := Option.bind_eq_some_iff.mp h
  have hfound : found = some (some (pos, u)) := by
    cases found with
    | none => cases h
    | some x => exact h
  subst hfound
  obtain ⟨before, e, after, hsplit, hbefore, hafter, hkey, hvalue⟩ := fold_split hfold
  obtain ⟨-, hnull, hutf8, front, back, hrender, hpos, hreplace⟩ := hfield _ _ _ _ hvalue
  obtain ⟨front', back', hrender', hoff, hentries⟩ := entries_replace hsplit
  refine ⟨hnull, hutf8, openBrace :: front' ++ front, back ++ back', ?_, ?_, ?_⟩
  · simp [Text.render, hrender', hrender]
  · rw [hpos, hoff]
    simp only [List.length_append, List.length_cons]
    omega
  · intro u' hlen hnull' hutf8'
    obtain ⟨v', hv', -, hfield'⟩ := hreplace u' hlen hnull' hutf8'
    obtain ⟨m', hm', hentries'⟩ := hentries v' (by simp [hv', hrender, hlen])
    refine ⟨m', by simp [Text.render, hm', hv'], ?_⟩
    have hstep : peekMember name field none { e with value := v' } =
        some (some (some (pos, u'))) := by
      simp [peekMember, hkey, hfield']
    have hfold' : (m'.entries (off + 1)).foldlM (peekMember name field) none =
        some (some (some (pos, u'))) := by
      rw [hentries', List.foldlM_append, others_fold hbefore]
      simp only [Option.bind_eq_bind, Option.bind_some, List.foldlM_cons, hstep]
      exact others_fold hafter _
    simp [peekStruct, hfold']

theorem peek_local (hfield : Local field) : Local (peekStruct name field) := by
  intro off v pos u h
  cases v with
  | object m =>
    obtain ⟨hnull, hutf8, front, back, hrender, hpos, hreplace⟩ := peek_object_local hfield h
    refine ⟨rfl, hnull, hutf8, front, back, hrender, hpos, ?_⟩
    intro u' hlen hnull' hutf8'
    obtain ⟨m', hm', hpeek⟩ := hreplace u' hlen hnull' hutf8'
    exact ⟨.object m', hm', rfl, hpeek⟩
  | array items =>
    cases items with
    | lastItem pre w post =>
      obtain ⟨-, hnull, hutf8, front, back, hrender, hpos, hreplace⟩ := hfield _ _ _ _ h
      refine ⟨rfl, hnull, hutf8, openBracket :: pre.1 ++ front,
        back ++ post.1 ++ [closeBracket], ?_, ?_, ?_⟩
      · simp [Text.render, hrender]
      · rw [hpos]
        simp only [List.length_append, List.length_cons]
        omega
      · intro u' hlen hnull' hutf8'
        obtain ⟨w', hw', -, hpeek⟩ := hreplace u' hlen hnull' hutf8'
        exact ⟨.array (.lastItem pre w' post), by simp [Text.render, hw'], rfl, hpeek⟩
    | item pre w post rest => cases h
  | scalar t => cases h
  | string body => cases h
  | emptyArray ws => cases h
  | emptyObject ws => cases h

theorem meta_local : Local metaPeek := by
  intro off v pos u h
  unfold metaPeek at h
  cases hnull : v.isNull with
  | true => simp [hnull] at h
  | false =>
    simp only [hnull, Bool.false_eq_true, if_false] at h
    obtain ⟨-, hu, hutf8, front, back, hrender, hpos, hreplace⟩ := peek_local raw_local _ _ _ _ h
    refine ⟨rfl, hu, hutf8, front, back, hrender, hpos, ?_⟩
    intro u' hlen hnull' hutf8'
    obtain ⟨v', hv', hvnull, hpeek⟩ := hreplace u' hlen hnull' hutf8'
    exact ⟨v', hv', hvnull, by simpa [metaPeek, hvnull] using hpeek⟩

end Peek

/-- The raw text of `user_id` stands in the body, and any other text of a value that takes its
place is found again. -/
theorem user_id_local {body : Bytes} {pos : Nat} {u : Text .value}
    (h : userIdOf body = some (pos, u)) :
    u.isNull = false ∧ isUtf8 u.render = true ∧
      ∃ front back, body = front ++ u.render ++ back ∧ pos = front.length ∧
        ∀ u' : Text .value, u'.render.length = u.render.length → u'.isNull = false →
          isUtf8 u'.render = true →
            (readDocument (front ++ u'.render ++ back)).isSome = true ∧
              userIdOf (front ++ u'.render ++ back) = some (pos, u') := by
  obtain ⟨d, hd, h⟩ := Option.bind_eq_some_iff.mp h
  have hpeek : bodyPeek d.pre.1.length d.root = some (some (pos, u)) := by
    revert h
    cases bodyPeek d.pre.1.length d.root with
    | none => exact fun h => by cases h
    | some x => exact fun h => congrArg some h
  obtain ⟨-, hnull, hutf8, front, back, hrender, hpos, hreplace⟩ :=
    peek_local meta_local _ _ _ _ hpeek
  refine ⟨hnull, hutf8, d.pre.1 ++ front, back ++ d.post.1, ?_, ?_, ?_⟩
  · rw [← read_document_eq hd]
    simp [Document.render, hrender]
  · rw [hpos, List.length_append]
  · intro u' hlen hnull' hutf8'
    obtain ⟨v', hv', -, hpeek'⟩ := hreplace u' hlen hnull' hutf8'
    have hrender' : d.pre.1 ++ front ++ u'.render ++ (back ++ d.post.1) =
        ({ d with root := v' } : Document).render := by
      simp [Document.render, hv']
    rw [hrender', userIdOf, read_document_render]
    refine ⟨rfl, ?_⟩
    have hjoin : (bodyPeek d.pre.1.length v').join = some (pos, u') := by
      rw [bodyPeek, hpeek']
      rfl
    exact hjoin

/-! ## The one member of a name -/

def named (name : Bytes) (es : List Entry) : List Entry :=
  es.filter fun e => keyText e.key == some name

section Named

variable {α : Type} {name : Bytes} {field : Nat → Text .value → Option (Option α)}

theorem peek_again {es : List Entry} (hkeys : ∀ e ∈ es, (keyText e.key).isSome = true)
    (x : Option α) : es.foldlM (peekMember name field) (some x) =
      if (named name es).isEmpty then some (some x) else none := by
  induction es with
  | nil => rfl
  | cons e es ih =>
    obtain ⟨key, hkey⟩ := Option.isSome_iff_exists.mp (hkeys e List.mem_cons_self)
    have hrest := ih fun e he => hkeys e (List.mem_cons_of_mem _ he)
    rw [List.foldlM_cons, named, List.filter_cons]
    by_cases hname : key = name
    · simp [peekMember, hkey, hname]
    · simpa [peekMember, hkey, hname, named] using hrest

/-- The struct's field is that of the one member of its name; two of them are refused. -/
theorem peek_named {es : List Entry} (hkeys : ∀ e ∈ es, (keyText e.key).isSome = true) :
    es.foldlM (peekMember name field) none =
      match named name es with
      | [] => some none
      | [e] => (field e.off e.value).map some
      | _ => none := by
  induction es with
  | nil => rfl
  | cons e es ih =>
    obtain ⟨key, hkey⟩ := Option.isSome_iff_exists.mp (hkeys e List.mem_cons_self)
    have hafter : ∀ e ∈ es, (keyText e.key).isSome = true :=
      fun e he => hkeys e (List.mem_cons_of_mem _ he)
    rw [List.foldlM_cons, named, List.filter_cons]
    by_cases hname : key = name
    · subst hname
      have hagain (x : Option α) : es.foldlM (peekMember key field) (some x) =
          if (named key es).isEmpty then some (some x) else none := peek_again hafter x
      cases hfield : field e.off e.value with
      | none => cases es.filter (fun e => keyText e.key == some key) <;>
          simp [peekMember, hkey, hfield]
      | some x =>
        cases hes : es.filter (fun e => keyText e.key == some key) <;>
          simp [peekMember, hkey, hfield, hagain, named, hes]
    · simpa [peekMember, hkey, hname, named] using ih hafter

end Named

/-! ## A value that has moved -/

/-- A reader that finds at an offset what it finds at another, as far from it. -/
def Relative {α : Type} (field : Nat → Text .value → Option (Option (Nat × α))) : Prop :=
  ∀ n off v, field (n + off) v = (field off v).map (Option.map fun found => (n + found.1, found.2))

theorem raw_relative : Relative rawField := by
  intro n off v
  unfold rawField
  split
  · rfl
  split <;> rfl

theorem peek_relative {α : Type} {name : Bytes}
    {field : Nat → Text .value → Option (Option (Nat × α))} (h : Relative field) :
    Relative (peekStruct name field) := by
  intro n off v
  cases v with
  | object m =>
    have hfold : ∀ (es : List Entry) (found : Option (Option (Nat × α))),
        (es.map (Entry.moveBy n)).foldlM (peekMember name field)
          (found.map (Option.map fun found => (n + found.1, found.2))) =
        (es.foldlM (peekMember name field) found).map
          (Option.map (Option.map fun found => (n + found.1, found.2))) := by
      intro es
      induction es with
      | nil => exact fun found => rfl
      | cons e es ih =>
        intro found
        rw [List.map_cons, List.foldlM_cons, List.foldlM_cons]
        have hstep : peekMember name field
              (found.map (Option.map fun found => (n + found.1, found.2))) (Entry.moveBy n e) =
            (peekMember name field found e).map
              (Option.map (Option.map fun found => (n + found.1, found.2))) := by
          unfold peekMember
          simp only [Entry.moveBy]
          cases keyText e.key with
          | none => rfl
          | some key =>
            by_cases hname : key = name
            · cases found with
              | none =>
                cases hfield : field e.off e.value with
                | none => simp [hname, h n e.off e.value, hfield]
                | some x => simp [hname, h n e.off e.value, hfield]
              | some x => simp [hname]
            · simp [hname]
        rw [hstep]
        cases peekMember name field found e with
        | none => rfl
        | some found' => exact ih found'
    have hnone := hfold (m.entries (off + 1)) none
    rw [Option.map_none] at hnone
    rw [peekStruct, Nat.add_assoc, entries_move, hnone, peekStruct]
    cases (m.entries (off + 1)).foldlM (peekMember name field) none with
    | none => rfl
    | some found => cases found <;> rfl
  | array items =>
    cases items with
    | lastItem pre w post =>
      simp only [peekStruct, Nat.add_assoc]
      exact h n _ w
    | item pre w post rest => rfl
  | _ => rfl

theorem meta_relative : Relative metaPeek := by
  intro n off v
  unfold metaPeek
  split
  · rfl
  · exact peek_relative raw_relative n off v

end TeamClaude
