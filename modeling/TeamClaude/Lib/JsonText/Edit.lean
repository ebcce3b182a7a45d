import TeamClaude.Lib.JsonText.Members

/-!
# Edits

An edit of values that is an edit of their meaning and a list of splices of their bytes, and the
ways to carry it to the items of an array and to the members of an object.
-/

namespace Lib.JsonText

/-- An edit whose splices write only the given texts. -/
structure Edit (writes : List Bytes) where
  text : Text .value → Text .value
  splices : Nat → Text .value → List Splice
  tree : Tree → Tree
  edited : ∀ off v, Edited off v.render (splices off v) (text v).render
  tree_text : ∀ v, (text v).tree = tree v.tree
  /-- No splice is made exactly where the meaning stays. -/
  nil_iff : ∀ off v, splices off v = [] ↔ tree v.tree = v.tree
  settled : ∀ t, tree (tree t) = tree t
  utf8 : ∀ v, v.isUtf8 = true → (text v).isUtf8 = true
  written : ∀ off v, ∀ s ∈ splices off v, s.text ∈ writes

namespace Edit

variable {writes : List Bytes}

/-! ## The items of an array -/

section Each

variable (e : Edit writes)

def eachText : Text .value → Text .value
  | .array items => .array (items.mapItems e.text)
  | v => v

def eachSplices (off : Nat) : Text .value → List Splice
  | .array items => (items.elements (off + 1)).flatMap fun p => e.splices p.1 p.2
  | _ => []

def eachTree : Tree → Tree
  | .array items => .array (items.map e.tree)
  | t => t

theorem each_edited (off : Nat) (v : Text .value) :
    Edited off v.render (e.eachSplices off v) (e.eachText v).render := by
  cases v with
  | array items =>
    have h := (map_items_edited e.edited items (off + 1)).between [openBracket] []
    simpa [eachSplices, eachText, Text.render] using h
  | _ => exact .keep _ _

theorem each_nil_iff (off : Nat) (v : Text .value) :
    e.eachSplices off v = [] ↔ e.eachTree v.tree = v.tree := by
  cases v with
  | array items =>
    have h := map_items_nil_iff e.nil_iff items (off + 1)
    simpa [eachSplices, eachTree, Text.tree] using h
  | _ => simp [eachSplices, eachTree, Text.tree]

def each : Edit writes where
  text := e.eachText
  splices := e.eachSplices
  tree := e.eachTree
  edited := e.each_edited
  tree_text := by
    intro v
    cases v with
    | array items => simp [eachText, eachTree, Text.tree, map_items_tree e.tree_text]
    | _ => rfl
  nil_iff := e.each_nil_iff
  settled := by
    intro t
    cases t with
    | array items => simp [eachTree, Function.comp_def, e.settled]
    | _ => rfl
  utf8 := by
    intro v hv
    cases v with
    | array items => exact map_items_utf8 e.utf8 hv
    | _ => exact hv
  written := by
    intro off v s hs
    cases v with
    | array items =>
      obtain ⟨p, -, hp⟩ := List.mem_flatMap.mp hs
      exact e.written _ _ s hp
    | _ => cases hs

end Each

/-! ## The members of an object -/

section OnSlots

variable {ι : Type} [DecidableEq ι] (slot : Str → Option ι) (e : ι → Edit writes)

def slotsText : Text .value → Text .value
  | .object m => .object (m.editLast slot fun i => (e i).text)
  | v => v

def slotsSplices (off : Nat) : Text .value → List Splice
  | .object m => spliceLast slot (fun i => (e i).splices) (m.entries (off + 1))
  | _ => []

def slotsTree : Tree → Tree
  | .object m => .object (mapSlots slot (fun i => (e i).tree) m)
  | t => t

omit [DecidableEq ι] in
theorem map_slots_none (F : ι → Tree → Tree) : (mapSlots slot F fun _ => none) = fun _ => none := by
  funext k
  cases hk : slot k <;> simp [mapSlots, hk]

theorem slots_edited (off : Nat) (v : Text .value) :
    Edited off v.render (slotsSplices slot e off v) (slotsText slot e v).render := by
  cases v with
  | object m =>
    have h : Edited (off + 1) m.render
        (spliceLast slot (fun i => (e i).splices) (m.entries (off + 1)))
        (m.editLast slot fun i => (e i).text).render :=
      edit_last_edited (fun i => (e i).edited) m (off + 1)
    simpa [slotsSplices, slotsText, Text.render] using h.between [openBrace] []
  | _ => exact .keep _ _

variable {slot}

theorem slots_nil_iff (hslot : ∀ k k' i, slot k = some i → slot k' = some i → k = k') (off : Nat)
    (v : Text .value) : slotsSplices slot e off v = [] ↔ slotsTree slot e v.tree = v.tree := by
  cases v with
  | object m =>
    have h := splice_last_nil_iff hslot (fun i => (e i).nil_iff) m (off + 1)
    simpa [slotsSplices, slotsTree, Text.tree] using h
  | emptyObject ws => simp [slotsSplices, slotsTree, Text.tree, map_slots_none]
  | _ => simp [slotsSplices, slotsTree, Text.tree]

theorem mem_splice_last {g : ι → Nat → Text .value → List Splice} {es : List Entry} {s : Splice}
    (hs : s ∈ spliceLast slot g es) : ∃ i off v, s ∈ g i off v := by
  induction es with
  | nil => cases hs
  | cons x es ih =>
    rcases List.mem_append.mp hs with hs | hs
    · split at hs
      · split at hs
        · cases hs
        · exact ⟨_, _, _, hs⟩
      · cases hs
    · exact ih hs

/-- The last member of each slot edited, when a slot has one key. -/
def onSlots (hslot : ∀ k k' i, slot k = some i → slot k' = some i → k = k') : Edit writes where
  text := slotsText slot e
  splices := slotsSplices slot e
  tree := slotsTree slot e
  edited := slots_edited slot e
  tree_text := by
    intro v
    cases v with
    | object m => simp [slotsText, slotsTree, Text.tree,
        edit_last_tree hslot (F := fun i => (e i).tree) fun i => (e i).tree_text]
    | emptyObject ws => simp [slotsText, slotsTree, Text.tree, map_slots_none]
    | _ => rfl
  nil_iff := slots_nil_iff e hslot
  settled := by
    intro t
    cases t with
    | object m =>
      refine congrArg Tree.object ?_
      funext k
      cases hk : slot k with
      | none => simp [mapSlots, hk]
      | some i => simp [mapSlots, hk, Function.comp_def, (e i).settled]
    | _ => rfl
  utf8 := by
    intro v hv
    cases v with
    | object m => exact edit_last_utf8 (fun i => (e i).utf8) hv
    | _ => exact hv
  written := by
    intro off v s hs
    cases v with
    | object m =>
      obtain ⟨i, off', v', hs⟩ := mem_splice_last hs
      exact (e i).written off' v' s hs
    | _ => cases hs

end OnSlots

end Edit

end Lib.JsonText
