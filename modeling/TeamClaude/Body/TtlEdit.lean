import TeamClaude.Body.CacheTtl
import TeamClaude.Lib.JsonText.Edit

/-!
# The rewrite as an edit of the tree

Setting the `ttl` of each breakpoint of a body is an edit of the map each object is read into. The
splices that the walk queues are that edit.
-/

namespace TeamClaude

open Lib.JsonText

/-! ## What a breakpoint becomes -/

def Str.isText : Str → Bool
  | .text _ => true
  | .broken _ => false

def ttlKey : Str :=
  .text (ascii "ttl")

def hourTree : Tree :=
  .string (.text extendedTtl)

open Classical in
/-- A breakpoint that asks for the hour; an object with a key that spells no text is left alone, as
is anything that is not an object. -/
noncomputable def setTtl : Tree → Tree
  | .object m =>
    if ∀ k, (m k).isSome = true → Str.isText k = true then
      .object (Function.update m ttlKey (some hourTree))
    else .object m
  | t => t

/-- What the splices of a rewrite write. -/
def ttlTexts : List Bytes :=
  [extendedTtlJson, ascii "\"ttl\":\"1h\"", ascii ",\"ttl\":\"1h\""]

/-! ## An existing `ttl` -/

def hourText : Text .value :=
  .string ⟨extendedTtl, by decide⟩

theorem hour_text_tree : hourText.tree = hourTree := by
  have hdecode : decode extendedTtl = some extendedTtl := by decide
  simp [hourText, hourTree, Text.tree, Body.str, hdecode]

theorem is_extended_string (body : Body) :
    isExtendedTtl (.string body) = true ↔ body.str = .text extendedTtl := by
  have hrender : (Text.string body).render = extendedTtlJson → body.1 = extendedTtl := by
    intro h
    exact List.append_cancel_right (List.cons.inj h).2
  have hdecode : decode extendedTtl = some extendedTtl := by decide
  unfold isExtendedTtl Body.str
  rw [Bool.or_eq_true, beq_iff_eq, beq_iff_eq]
  constructor
  · rintro (h | h)
    · rw [hrender h, hdecode]
    · rw [h]
  · intro h
    cases hd : decode body.1 with
    | none => simp [hd] at h
    | some t =>
      rw [hd] at h
      exact .inr (congrArg some (Str.text.inj h))

theorem is_extended_iff (v : Text .value) : isExtendedTtl v = true ↔ v.tree = hourTree := by
  cases v with
  | string body => simpa [Text.tree, hourTree] using is_extended_string body
  | scalar t =>
    have hne : t.1 ≠ extendedTtlJson := by
      intro h
      have hscalar := t.2
      rw [h] at hscalar
      exact absurd hscalar (by decide)
    simp [isExtendedTtl, Text.render, Text.tree, hourTree, hne]
  | emptyArray ws => simp [isExtendedTtl, Text.render, Text.tree, hourTree, extendedTtlJson, ascii,
      openBracket]
  | array items => simp [isExtendedTtl, Text.render, Text.tree, hourTree, extendedTtlJson, ascii,
      openBracket]
  | emptyObject ws => simp [isExtendedTtl, Text.render, Text.tree, hourTree, extendedTtlJson, ascii,
      openBrace]
  | object m => simp [isExtendedTtl, Text.render, Text.tree, hourTree, extendedTtlJson, ascii,
      openBrace]

/-- A value replaced with the hour, if it is not that already. -/
def hourEdit : Edit ttlTexts where
  text v := if isExtendedTtl v then v else hourText
  splices off v :=
    if isExtendedTtl v then []
    else [{ start := off, stop := off + v.render.length, text := extendedTtlJson }]
  tree _ := hourTree
  edited := by
    intro off v
    split
    · exact .keep _ _
    · obtain ⟨b, t, hrender, -⟩ := render_starts v
      have h := Edited.single off [] v.render extendedTtlJson [] (by simp [hrender])
      have hhour : hourText.render = extendedTtlJson := by decide
      simpa [hhour] using h
  tree_text := by
    intro v
    split
    · exact (is_extended_iff v).mp ‹_›
    · exact hour_text_tree
  nil_iff := by
    intro off v
    rw [eq_comm (a := hourTree), ← is_extended_iff]
    split <;> simp_all
  settled _ := rfl
  utf8 := by
    intro v hv
    split
    · exact hv
    · decide
  written := by
    intro off v s hs
    split at hs
    · cases hs
    · rw [List.mem_singleton.mp hs]
      exact List.mem_cons_self

/-! ## A new `ttl` -/

def ttlBody : Body :=
  ⟨ascii "ttl", by decide⟩

theorem ttl_body_str : ttlBody.str = ttlKey := by
  have hdecode : decode (ascii "ttl") = some (ascii "ttl") := by decide
  simp [ttlBody, ttlKey, Body.str, hdecode]

theorem tight_not_trimmed {b : UInt8} (h : isTight b = true) : isTrimmed b = false := by
  rw [Bool.eq_false_iff]
  intro htrim
  simp only [isTrimmed, isSpace, Bool.or_eq_true, beq_iff_eq] at htrim
  rcases htrim with ((((rfl | rfl) | rfl) | rfl) | rfl) | rfl <;> revert h <;> decide

theorem space_trimmed {b : UInt8} (h : isSpace b = true) : isTrimmed b = true := by
  simp [isTrimmed, h]

theorem trim_space (ws : Space) : trimEnd ws.1 = [] := by
  have hall : ∀ b ∈ ws.1.reverse, isTrimmed b = true := by
    intro b hb
    exact space_trimmed (List.all_eq_true.mp ws.2 b (List.mem_reverse.mp hb))
  rw [trimEnd, List.dropWhile_eq_nil_iff.mpr hall]
  rfl

theorem trim_append {t : Bytes} {b : UInt8} (hb : isTight b = true) (ws : Space) :
    trimEnd (t ++ [b] ++ ws.1) = t ++ [b] := by
  have hall : ∀ b ∈ ws.1.reverse, isTrimmed b = true := by
    intro b hb
    exact space_trimmed (List.all_eq_true.mp ws.2 b (List.mem_reverse.mp hb))
  rw [trimEnd, List.reverse_append, List.dropWhile_append_of_pos hall]
  simp [tight_not_trimmed hb]

/-- A `ttl` as the only member of the object. -/
def onlyTtl (ws : Space) : Text .value :=
  .object (.lastMember
    { pre := Space.none, key := ttlBody, mid := Space.none, gap := Space.none } hourText ws)

theorem cache_control_empty (off : Nat) (ws : Space) : extendCacheControl off (.emptyObject ws) =
    [{ start := off + 1, stop := off + 1, text := ascii "\"ttl\":\"1h\"" }] := by
  have hinside : (((Text.emptyObject ws).render.drop 1).dropLast) = ws.1 := by
    simp [Text.render]
  simp only [extendCacheControl, members, hinside, trim_space]
  rfl

theorem insert_only_edited (off : Nat) (ws : Space) :
    Edited off (Text.emptyObject ws).render (extendCacheControl off (.emptyObject ws))
      (onlyTtl ws).render := by
  have hrender : (onlyTtl ws).render =
      [openBrace] ++ ascii "\"ttl\":\"1h\"" ++ (ws.1 ++ [closeBrace]) := by
    have hhead : ascii "\"ttl\":\"1h\"" =
        renderString ttlBody ++ colon :: hourText.render := by decide
    simp [onlyTtl, Text.render, Head.render, Space.none, hhead]
  rw [cache_control_empty, hrender]
  exact Edited.single off [openBrace] [] _ (ws.1 ++ [closeBrace]) (by simp)

theorem insert_last_edited (off : Nat) (m : Text .members) (off' : Nat)
    (hoff : off' = off + 1 + (trimEnd ((Text.object m).render.drop 1).dropLast).length) :
    Edited off (Text.object m).render
      [{ start := off', stop := off', text := ascii ",\"ttl\":\"1h\"" }]
      (Text.object (m.addMember ttlBody hourText)).render ∧
    (trimEnd ((Text.object m).render.drop 1).dropLast).isEmpty = false := by
  obtain ⟨front, b, post, hb, hrender, hadd⟩ := add_member_render ttlBody hourText m
  have hinside : ((Text.object m).render.drop 1).dropLast = front ++ [b] ++ post.1 := by
    simp only [Text.render, hrender, List.drop_succ_cons, List.drop_zero]
    exact List.dropLast_concat
  have htext : ascii ",\"ttl\":\"1h\"" =
      comma :: renderString ttlBody ++ colon :: hourText.render := by decide
  rw [hinside, trim_append hb] at hoff ⊢
  subst hoff
  refine ⟨?_, by simp⟩
  have h := Edited.single off (openBrace :: (front ++ [b])) [] (ascii ",\"ttl\":\"1h\"")
    (post.1 ++ [closeBrace]) (by simp)
  simpa [Text.render, hrender, hadd, htext, Nat.add_comm, Nat.add_left_comm] using h

/-! ## The edit of a breakpoint -/

abbrev ttlSlot : Str → Option Nat :=
  slotOf [ascii "ttl"]

theorem ttl_slot_iff {k : Str} {i : Nat} : ttlSlot k = some i ↔ k = ttlKey ∧ i = 0 := by
  constructor
  · intro h
    obtain ⟨hi, rfl⟩ := slot_eq_some h
    obtain rfl : i = 0 := Nat.lt_one_iff.mp hi
    exact ⟨rfl, rfl⟩
  · rintro ⟨rfl, rfl⟩
    decide

/-- The last `ttl` of an object replaced. -/
def replaceTtl : Edit ttlTexts :=
  Edit.onSlots (fun _ : Nat => hourEdit) (slot_injective [ascii "ttl"])

theorem members_object (off : Nat) (m : Text .members) (names : List Bytes) :
    members off (.object m) names = if keysOk m then
      some fun i => lastOf (slotOf names) i (m.entries (off + 1)) else none := by
  rw [members, pick_members_eq, entries_all fun key _ => key.decodes]
  rfl

def ttlText : Text .value → Text .value
  | .emptyObject ws => onlyTtl ws
  | .object m =>
    if keysOk m then
      if m.uses ttlSlot 0 then replaceTtl.text (.object m)
      else .object (m.addMember ttlBody hourText)
    else .object m
  | v => v

theorem cache_control_object (off : Nat) (m : Text .members) :
    extendCacheControl off (.object m) = if keysOk m then
      if m.uses ttlSlot 0 then replaceTtl.splices off (.object m)
      else
        [{ start := off + 1 + (trimEnd ((Text.object m).render.drop 1).dropLast).length
           stop := off + 1 + (trimEnd ((Text.object m).render.drop 1).dropLast).length
           text := ascii ",\"ttl\":\"1h\"" }]
    else [] := by
  rw [extendCacheControl, members_object]
  cases keysOk m with
  | false => rfl
  | true =>
    have hreplace : replaceTtl.splices off (.object m) =
        slotSplices ttlSlot (fun _ => hourEdit.splices) 0 (m.entries (off + 1)) :=
      splice_last_single (fun k j h => (ttl_slot_iff.mp h).2) _ _
    have huses : (lastOf ttlSlot 0 (m.entries (off + 1))).isSome = m.uses ttlSlot 0 :=
      last_uses 0 m (off + 1)
    have hinsert := (insert_last_edited off m _ rfl).2
    simp only [if_true, hreplace, slotSplices, ← huses, hinsert]
    cases hlast : lastOf ttlSlot 0 (m.entries (off + 1)) with
    | none => simp
    | some e =>
      simp only [Option.isSome_some, if_true]
      rfl

theorem ttl_edited (off : Nat) (v : Text .value) :
    Edited off v.render (extendCacheControl off v) (ttlText v).render := by
  cases v with
  | emptyObject ws => exact insert_only_edited off ws
  | object m =>
    rw [cache_control_object, ttlText]
    split
    · split
      · exact replaceTtl.edited off (.object m)
      · exact (insert_last_edited off m _ rfl).1
    · exact .keep _ _
  | _ => exact .keep _ _

theorem keys_ok_iff (m : Text .members) :
    keysOk m = true ↔ ∀ k, (m.tree k).isSome = true → Str.isText k = true := by
  have hdecodes : ∀ key : Body, key.decodes = Str.isText key.str := by
    intro key
    unfold Body.decodes Body.str
    cases decode key.1 <;> rfl
  rw [keysOk, all_members_keys, List.all_eq_true]
  constructor
  · intro h k hk
    rw [tree_is_some, List.any_eq_true] at hk
    obtain ⟨key, hkey, heq⟩ := hk
    rw [← of_decide_eq_true heq, ← hdecodes]
    exact h key hkey
  · intro h key hkey
    rw [hdecodes]
    refine h key.str ?_
    rw [tree_is_some, List.any_eq_true]
    exact ⟨key, hkey, decide_eq_true rfl⟩

theorem set_ttl_object (m : Text .members) : setTtl (.object m.tree) =
    if keysOk m then .object (Function.update m.tree ttlKey (some hourTree))
    else .object m.tree := by
  by_cases h : keysOk m = true
  · rw [if_pos h, setTtl, if_pos ((keys_ok_iff m).mp h)]
  · rw [if_neg h, setTtl, if_neg (mt (keys_ok_iff m).mpr h)]

theorem uses_ttl (m : Text .members) : m.uses ttlSlot 0 = (m.tree ttlKey).isSome :=
  uses_eq (slot_injective _) (ttl_slot_iff.mpr ⟨rfl, rfl⟩) m

theorem replace_tree {m : Text .members} (h : m.uses ttlSlot 0 = true) :
    replaceTtl.tree (.object m.tree) =
      .object (Function.update m.tree ttlKey (some hourTree)) := by
  refine congrArg Tree.object ?_
  funext k
  rw [uses_ttl] at h
  by_cases hk : k = ttlKey
  · subst hk
    obtain ⟨t, ht⟩ := Option.isSome_iff_exists.mp h
    simp only [mapSlots, ttl_slot_iff.mpr ⟨rfl, rfl⟩, ht, Function.update_self]
    rfl
  · have hnone : ttlSlot k = none :=
      Option.eq_none_iff_forall_ne_some.mpr fun i hi => hk (ttl_slot_iff.mp hi).1
    simp [mapSlots, hnone, Function.update_of_ne hk]

theorem ttl_tree (v : Text .value) : (ttlText v).tree = setTtl v.tree := by
  cases v with
  | emptyObject ws =>
    have hkeys : ∀ k, ((fun _ => none : Str → Option Tree) k).isSome = true →
        Str.isText k = true := by
      intro k hk
      cases hk
    rw [Text.tree, setTtl, if_pos hkeys]
    refine congrArg Tree.object ?_
    funext k
    by_cases hk : k = ttlKey
    · simp [Text.tree, Tree.member, ttl_body_str, hk, hour_text_tree]
    · simp [Text.tree, Tree.member, ttl_body_str, hk]
  | object m =>
    rw [ttlText, Text.tree, set_ttl_object]
    split
    · split
      · rw [replaceTtl.tree_text]
        exact replace_tree ‹_›
      · refine congrArg Tree.object ?_
        funext k
        rw [add_member_tree, ttl_body_str, hour_text_tree, Function.update_apply]
    · rfl
  | _ => rfl

theorem update_object_eq {m : Str → Option Tree} {k : Str} {t : Tree} :
    Tree.object (Function.update m k (some t)) = .object m ↔ m k = some t := by
  rw [Tree.object.injEq, Function.update_eq_self_iff]
  exact eq_comm

theorem ttl_nil_iff (off : Nat) (v : Text .value) :
    extendCacheControl off v = [] ↔ setTtl v.tree = v.tree := by
  cases v with
  | emptyObject ws =>
    have hkeys : ∀ k, ((fun _ => none : Str → Option Tree) k).isSome = true →
        Str.isText k = true := by
      intro k hk
      cases hk
    rw [Text.tree, setTtl, if_pos hkeys, update_object_eq]
    simp [cache_control_empty]
  | object m =>
    rw [cache_control_object, Text.tree, set_ttl_object]
    split
    · split
      · rw [← replace_tree ‹_›]
        exact replaceTtl.nil_iff off (.object m)
      · rename_i huses
        rw [update_object_eq]
        rw [uses_ttl] at huses
        simp [Option.not_isSome_iff_eq_none.mp huses]
    · simp
  | _ => simp [extendCacheControl, members, setTtl, Text.tree]

theorem set_ttl_settled (t : Tree) : setTtl (setTtl t) = setTtl t := by
  cases t with
  | object m =>
    by_cases h : ∀ k, (m k).isSome = true → Str.isText k = true
    · have hnew : ∀ k, (Function.update m ttlKey (some hourTree) k).isSome = true →
          Str.isText k = true := by
        intro k hk
        by_cases hkey : k = ttlKey
        · subst hkey
          rfl
        · rw [Function.update_of_ne hkey] at hk
          exact h k hk
      rw [setTtl, if_pos h, setTtl, if_pos hnew, Function.update_idem]
    · rw [setTtl, if_neg h, setTtl, if_neg h]
  | _ => rfl

theorem ttl_utf8 {v : Text .value} (hv : v.isUtf8 = true) : (ttlText v).isUtf8 = true := by
  cases v with
  | emptyObject ws =>
    show (isUtf8 ttlBody.1 && hourText.isUtf8) = true
    decide
  | object m =>
    rw [ttlText]
    split
    · split
      · exact replaceTtl.utf8 _ hv
      · exact add_member_utf8 (by decide) (by decide) hv
    · exact hv
  | _ => exact hv

theorem ttl_written (off : Nat) (v : Text .value) :
    ∀ s ∈ extendCacheControl off v, s.text ∈ ttlTexts := by
  intro s hs
  cases v with
  | emptyObject ws =>
    rw [cache_control_empty] at hs
    rw [List.mem_singleton.mp hs]
    simp [ttlTexts]
  | object m =>
    rw [cache_control_object] at hs
    split at hs
    · split at hs
      · exact replaceTtl.written off _ s hs
      · rw [List.mem_singleton.mp hs]
        simp [ttlTexts]
    · cases hs
  | _ => cases hs

/-- Setting a breakpoint's `ttl`. -/
noncomputable def ttlEdit : Edit ttlTexts where
  text := ttlText
  splices := extendCacheControl
  tree := setTtl
  edited := ttl_edited
  tree_text := ttl_tree
  nil_iff := ttl_nil_iff
  settled := set_ttl_settled
  utf8 _ := ttl_utf8
  written := ttl_written

end TeamClaude
