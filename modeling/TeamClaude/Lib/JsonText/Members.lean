import Mathlib.Data.List.Basic
import TeamClaude.Lib.JsonText.Parse
import TeamClaude.Lib.JsonText.Splice
import TeamClaude.Lib.JsonText.Tree

/-!
# Editing members

A map holds the last member of each key, so an edit of the map is an edit of those members. The
edit of the text, the splices that make it and the edit of the map are one thing said three times.
-/

namespace Lib.JsonText

variable {ι : Type} [DecidableEq ι] (slot : Str → Option ι)

/-- Some member of the object is in the slot. -/
def Text.uses {k : Kind} (i : ι) (m : Text k) : Bool :=
  m.keys.any fun key => slot key.str = some i

def lastOf (i : ι) : List Entry → Option Entry
  | [] => none
  | e :: es => (lastOf i es).or (if slot e.key.str = some i then some e else none)

/-- What the last member of each slot is replaced with, and nothing else. -/
def Text.editLast (f : ι → Text .value → Text .value) : {k : Kind} → Text k → Text k
  | _, .lastMember head v post =>
    .lastMember head (match slot head.key.str with | some i => f i v | none => v) post
  | _, .member head v post rest =>
    .member head
      (match slot head.key.str with
        | some i => if rest.uses slot i then v else f i v
        | none => v)
      post (rest.editLast f)
  | _, c => c

/-- What the value of a member with others behind it is replaced with. -/
def editedValue (f : ι → Text .value → Text .value) (key : Body) (v : Text .value)
    {k : Kind} (rest : Text k) : Text .value :=
  match slot key.str with
  | some i => if rest.uses slot i then v else f i v
  | none => v

def slotSplices (g : ι → Nat → Text .value → List Splice) (i : ι) (es : List Entry) :
    List Splice :=
  match lastOf slot i es with
  | some e => g i e.off e.value
  | none => []

/-- The splices of the last member of each slot, in the order the members stand. -/
def spliceLast (g : ι → Nat → Text .value → List Splice) : List Entry → List Splice
  | [] => []
  | e :: es =>
    (match slot e.key.str with
      | some i => if (lastOf slot i es).isSome then [] else g i e.off e.value
      | none => []) ++ spliceLast g es

/-! ## The splices make the edit -/

variable {slot}

theorem entries_keys {k : Kind} (m : Text k) (off : Nat) :
    (m.entries off).map Entry.key = m.keys := by
  induction m generalizing off with
  | member head v post rest _ ih => simp [Text.entries, Text.keys, ih]
  | _ => rfl

theorem last_is_some (i : ι) (es : List Entry) : (lastOf slot i es).isSome =
    (es.map Entry.key).any fun key => slot key.str = some i := by
  induction es with
  | nil => rfl
  | cons e es ih =>
    rw [lastOf, Option.isSome_or, ih, List.map_cons, List.any_cons, Bool.or_comm]
    congr 1
    by_cases h : slot e.key.str = some i <;> simp [h]

theorem last_uses {k : Kind} (i : ι) (m : Text k) (off : Nat) :
    (lastOf slot i (m.entries off)).isSome = m.uses slot i := by
  rw [last_is_some, entries_keys]
  rfl

theorem last_cons_other {i j : ι} {e : Entry} (hs : slot e.key.str = some j) (hij : j ≠ i)
    (es : List Entry) : lastOf slot i (e :: es) = lastOf slot i es := by
  simp [lastOf, hs, hij]

theorem last_cons_self {j : ι} {e : Entry} {es : List Entry} (hs : slot e.key.str = some j)
    (hlast : lastOf slot j es = none) : lastOf slot j (e :: es) = some e := by
  simp [lastOf, hs, hlast]

theorem last_cons_kept {j : ι} {e e' : Entry} {es : List Entry} (hs : slot e.key.str = some j)
    (hlast : lastOf slot j es = some e') (i : ι) :
    lastOf slot i (e :: es) = lastOf slot i es := by
  by_cases hij : j = i
  · subst hij
    simp [lastOf, hlast]
  · exact last_cons_other hs hij es

variable (slot) in
theorem member_edited {f : ι → Text .value → Text .value}
    {g : ι → Nat → Text .value → List Splice}
    (h : ∀ i off v, Edited off v.render (g i off v) (f i v).render) (off : Nat) (head : Head)
    (v : Text .value) (post : Space) {k : Kind} (rest : Text k) :
    Edited off (head.render ++ v.render ++ (post.1 ++ [comma]))
      (match slot head.key.str with
        | some i => if rest.uses slot i then [] else g i (off + head.render.length) v
        | none => [])
      (head.render ++ (editedValue slot f head.key v rest).render ++
        (post.1 ++ [comma])) := by
  refine Edited.between _ _ ?_
  unfold editedValue
  cases slot head.key.str with
  | none => exact .keep _ _
  | some i =>
    by_cases hrest : rest.uses slot i = true
    · simp only [hrest, if_true]
      exact .keep _ _
    · simp only [hrest]
      exact h i _ v

theorem edit_last_edited {f : ι → Text .value → Text .value}
    {g : ι → Nat → Text .value → List Splice}
    (h : ∀ i off v, Edited off v.render (g i off v) (f i v).render) {k : Kind} (m : Text k)
    (off : Nat) :
    Edited off m.render (spliceLast slot g (m.entries off)) (m.editLast slot f).render := by
  induction m generalizing off with
  | lastMember head v post =>
    have hv : Edited (off + head.render.length) v.render
        ((match slot head.key.str with
          | some i => g i (off + head.render.length) v
          | none => []) ++ [])
        (match slot head.key.str with | some i => f i v | none => v).render := by
      rw [List.append_nil]
      cases slot head.key.str with
      | none => exact .keep _ _
      | some i => exact h i _ v
    simpa [Text.render, Text.entries, Text.editLast, spliceLast, lastOf] using
      hv.between head.render (post.1 ++ [closeBrace])
  | member head v post rest _ ih =>
    have hrest := (member_edited slot h off head v post rest).append (b := rest.render)
      (by simpa using ih _)
    simpa [Text.render, Text.entries, Text.editLast, spliceLast, last_uses, editedValue,
      Nat.add_assoc] using hrest
  | _ => exact .keep _ _

theorem edit_last_keys (f : ι → Text .value → Text .value) {k : Kind} (m : Text k) :
    (m.editLast slot f).keys = m.keys := by
  induction m with
  | member head v post rest _ ih => simp [Text.editLast, Text.keys, ih]
  | _ => rfl

/-- A member in no slot stands in the edited text as it did; the splices of the members in front of
it, and no others, move it. -/
theorem edit_last_entries {f : ι → Text .value → Text .value}
    {g : ι → Nat → Text .value → List Splice}
    (h : ∀ i off v, Edited off v.render (g i off v) (f i v).render) {m : Text .members} {off : Nat}
    {before after : List Entry} {e : Entry} (hm : m.entries off = before ++ e :: after)
    (he : slot e.key.str = none) (off' : Nat) :
    ∃ front front' ss ts before' after', Edited off front ss front' ∧
      spliceLast slot g (m.entries off) = ss ++ ts ∧ e.off = off + front.length ∧
      (∀ s ∈ ts, e.off + e.value.render.length ≤ s.start) ∧
      (m.editLast slot f).entries off' =
        before' ++ { e with off := off' + front'.length } :: after' ∧
      before'.map Entry.key = before.map Entry.key := by
  induction m using Text.members_induction generalizing off off' before with
  | lastMember head v post =>
    cases before with
    | nil =>
      cases hm
      refine ⟨head.render, head.render, [], [], [], [], .keep _ _, ?_, rfl, by simp, ?_, rfl⟩
      · simp only at he
        simp [Text.entries, spliceLast, he]
      · simp only at he
        simp [Text.entries, Text.editLast, he]
    | cons x before =>
      have hlen := congrArg List.length hm
      simp [Text.entries] at hlen
  | member head v post rest ih =>
    have hcut := member_edited slot h off head v post rest
    have hlater := @edit_last_edited _ _ slot _ _ h _ rest
    cases before with
    | nil =>
      obtain ⟨rfl, rfl⟩ := List.cons.inj hm
      simp only at he
      have hsplices : spliceLast slot g ((Text.member head v post rest).entries off) =
          spliceLast slot g
            (rest.entries (off + (head.render ++ v.render ++ post.1 ++ [comma]).length)) := by
        simp [Text.entries, spliceLast, he]
      have hvalue : (Text.member head v post rest).editLast slot f =
          .member head v post (rest.editLast slot f) := by
        simp [Text.editLast, he]
      refine ⟨head.render, head.render, [], _, [], _, .keep _ _, hsplices, rfl, ?_,
        by rw [hvalue]; rfl, rfl⟩
      intro s hs
      have hin := ((hlater _).inside s hs).1
      simp only [List.length_append] at hin ⊢
      omega
    | cons x before =>
      obtain ⟨rfl, hrest⟩ := List.cons.inj hm
      obtain ⟨front, front', ss, ts, before', after', hfront, hsplices, hoff, hts, hentries, hkeys⟩ :=
        ih hrest (off' + (head.render ++ (editedValue slot f head.key v rest).render ++
          (post.1 ++ [comma])).length)
      refine ⟨head.render ++ v.render ++ (post.1 ++ [comma]) ++ front, _, _, ts,
        { off := off' + head.render.length, key := head.key
          value := editedValue slot f head.key v rest } :: before', after',
        hcut.append (by simpa using hfront), ?_, ?_, hts, ?_, by simp [hkeys]⟩
      · rw [Text.entries, spliceLast, hsplices]
        simp only [last_uses, List.append_assoc]
      · rw [hoff]
        simp only [List.length_append]
        omega
      · have hvalue : (Text.member head v post rest).editLast slot f = .member head
            (editedValue slot f head.key v rest) post (rest.editLast slot f) := rfl
        rw [hvalue, Text.entries]
        simp only [List.append_assoc, List.length_append, Nat.add_assoc] at hentries ⊢
        rw [hentries]
        simp

/-! ## The edit of the map -/

/-- A map with the value of each slot's key replaced. -/
def mapSlots (slot : Str → Option ι) (F : ι → Tree → Tree) (t : Str → Option Tree) (k : Str) :
    Option Tree :=
  match slot k with
  | some i => (t k).map (F i)
  | none => t k

theorem tree_is_some (m : Text .members) (k : Str) :
    (m.tree k).isSome = m.keys.any fun key => key.str = k := by
  induction m using Text.members_induction with
  | lastMember head v post =>
    by_cases h : k = head.key.str
    · simp [Text.tree, Text.keys, Tree.member, h]
    · simp [Text.tree, Text.keys, Tree.member, h, Ne.symm h]
  | member head v post rest ih =>
    rw [Text.keys, List.any_cons, ← ih, Bool.or_comm]
    by_cases h : k = head.key.str
    · simp [Text.tree, Tree.member, h]
    · simp [Text.tree, Tree.member, h, Ne.symm h]

/-- A slot has one key, so its last member is the one the map holds. -/
theorem uses_eq (hslot : ∀ k k' i, slot k = some i → slot k' = some i → k = k') {k : Str} {i : ι}
    (hk : slot k = some i) (m : Text .members) : m.uses slot i = (m.tree k).isSome := by
  rw [tree_is_some, Text.uses]
  congr 1
  funext key
  rw [decide_eq_decide]
  constructor
  · exact fun h => hslot _ _ i h hk
  · rintro rfl
    exact hk

theorem edit_last_tree (hslot : ∀ k k' i, slot k = some i → slot k' = some i → k = k')
    {f : ι → Text .value → Text .value} {F : ι → Tree → Tree}
    (h : ∀ i v, (f i v).tree = F i v.tree) (m : Text .members) :
    (m.editLast slot f).tree = mapSlots slot F m.tree := by
  induction m using Text.members_induction with
  | lastMember head v post =>
    funext k
    by_cases hk : k = head.key.str
    · subst hk
      cases hs : slot head.key.str <;>
        simp [Text.editLast, Text.tree, Tree.member, mapSlots, hs, h]
    · cases hs : slot k <;> simp [Text.editLast, Text.tree, Tree.member, mapSlots, hk, hs]
  | member head v post rest ih =>
    funext k
    simp only [Text.editLast, Text.tree, ih, Tree.member]
    by_cases hk : k = head.key.str
    · subst hk
      cases hs : slot head.key.str with
      | none => simp [mapSlots, hs, Tree.member]
      | some i =>
        have huses := uses_eq hslot hs rest
        cases hrest : rest.tree head.key.str with
        | none => simp [mapSlots, hs, hrest, huses, h, Tree.member]
        | some t => simp [mapSlots, hs, hrest, Tree.member]
    · cases hs : slot k <;> simp [mapSlots, hk, hs, Tree.member]

/-! ## Slot by slot -/

theorem flatMap_update_perm {α : Type} {l : List ι} (hl : l.Nodup) {j : ι} (hj : j ∈ l)
    {f f' : ι → List α} (hf : f j = []) (hf' : ∀ i, i ≠ j → f' i = f i) :
    (l.flatMap f').Perm (f' j ++ l.flatMap f) := by
  have hperm : l.Perm (j :: l.erase j) := List.perm_cons_erase hj
  have hsame : (l.erase j).flatMap f' = (l.erase j).flatMap f := by
    refine List.flatMap_congr ?_
    intro i hi
    exact hf' i (hl.mem_erase_iff.mp hi).1
  have hnew := hperm.flatMap_right f'
  have hold := hperm.flatMap_right f
  rw [List.flatMap_cons, hsame] at hnew
  rw [List.flatMap_cons, hf, List.nil_append] at hold
  exact hnew.trans (hold.symm.append_left (f' j))

/-- The splices gathered slot by slot are those gathered in the order of the members. -/
theorem splice_last_perm {slots : List ι} (hslots : slots.Nodup)
    (hmem : ∀ k i, slot k = some i → i ∈ slots) (g : ι → Nat → Text .value → List Splice)
    (es : List Entry) :
    (slots.flatMap fun i => slotSplices slot g i es).Perm (spliceLast slot g es) := by
  induction es with
  | nil => simp [lastOf, slotSplices, spliceLast]
  | cons e es ih =>
    cases hs : slot e.key.str with
    | none => simpa [lastOf, slotSplices, spliceLast, hs] using ih
    | some j =>
      cases hlast : lastOf slot j es with
      | some e' =>
        simpa [slotSplices, last_cons_kept hs hlast, spliceLast, hs, hlast] using ih
      | none =>
        have hupdate := @flatMap_update_perm _ _ _ slots hslots j (hmem _ _ hs)
          (fun i => slotSplices slot g i es) (fun i => slotSplices slot g i (e :: es))
          (by simp [slotSplices, hlast]) (by
            intro i hij
            rw [slotSplices, last_cons_other hs (Ne.symm hij), slotSplices])
        refine hupdate.trans ?_
        simpa [slotSplices, last_cons_self hs hlast, spliceLast, hs, hlast] using
          ih.append_left (g j e.off e.value)

/-- The last member of a slot is the one the map holds under the slot's key. -/
theorem last_tree (hslot : ∀ k k' i, slot k = some i → slot k' = some i → k = k') {k : Str} {i : ι}
    (hk : slot k = some i) (m : Text .members) (off : Nat) :
    (lastOf slot i (m.entries off)).map (fun e => e.value.tree) = m.tree k := by
  induction m using Text.members_induction generalizing off with
  | lastMember head v post =>
    by_cases h : k = head.key.str
    · subst h
      simp [Text.entries, lastOf, Text.tree, Tree.member, hk]
    · have hne : slot head.key.str ≠ some i := fun hs => h (hslot k _ i hk hs)
      simp [Text.entries, lastOf, Text.tree, Tree.member, h, hne]
  | member head v post rest ih =>
    simp only [Text.entries, lastOf, Text.tree, Tree.member]
    rw [← ih (off + (head.render ++ v.render ++ post.1 ++ [comma]).length)]
    by_cases h : k = head.key.str
    · subst h
      cases lastOf slot i (rest.entries _) <;> simp [hk]
    · have hne : slot head.key.str ≠ some i := fun hs => h (hslot k _ i hk hs)
      cases lastOf slot i (rest.entries _) <;> simp [h, hne]

/-- With one slot there is one member to edit. -/
theorem splice_last_single {i : ι} (hone : ∀ k j, slot k = some j → j = i)
    (g : ι → Nat → Text .value → List Splice) (es : List Entry) :
    spliceLast slot g es = slotSplices slot g i es := by
  induction es with
  | nil => rfl
  | cons e es ih =>
    rw [spliceLast]
    cases hs : slot e.key.str with
    | none => simpa [slotSplices, lastOf, hs] using ih
    | some j =>
      obtain rfl := hone _ _ hs
      cases hlast : lastOf slot j es with
      | some e' => simpa [slotSplices, last_cons_kept hs hlast, hlast] using ih
      | none => simpa [slotSplices, last_cons_self hs hlast, hlast] using ih

theorem splice_last_nil {g : ι → Nat → Text .value → List Splice} {es : List Entry} :
    spliceLast slot g es = [] ↔
      ∀ i e, lastOf slot i es = some e → g i e.off e.value = [] := by
  induction es with
  | nil => simp [spliceLast, lastOf]
  | cons e es ih =>
    rw [spliceLast, List.append_eq_nil_iff, ih]
    cases hs : slot e.key.str with
    | none => simp [lastOf, hs]
    | some j =>
      cases hlast : lastOf slot j es with
      | some e' =>
        simp only [last_cons_kept hs hlast, hlast, Option.isSome_some, if_true, true_and]
      | none =>
        simp only [hlast, Option.isSome_none, Bool.false_eq_true, if_false]
        constructor
        · rintro ⟨hj, hes⟩ i e' he'
          by_cases hij : j = i
          · subst hij
            rw [last_cons_self hs hlast] at he'
            cases he'
            exact hj
          · rw [last_cons_other hs hij] at he'
            exact hes i e' he'
        · intro h
          refine ⟨h j e (last_cons_self hs hlast), ?_⟩
          intro i e' he'
          exact h i e' (by simp [lastOf, he'])

theorem last_slot {i : ι} {es : List Entry} {e : Entry} (h : lastOf slot i es = some e) :
    slot e.key.str = some i := by
  induction es with
  | nil => cases h
  | cons e' es ih =>
    rcases Option.or_eq_some_iff.mp h with h | ⟨-, h⟩
    · exact ih h
    · split at h
      · cases h
        assumption
      · cases h

/-- No splice is made exactly when the map stays as it is. -/
theorem splice_last_nil_iff (hslot : ∀ k k' i, slot k = some i → slot k' = some i → k = k')
    {g : ι → Nat → Text .value → List Splice} {F : ι → Tree → Tree}
    (h : ∀ i off v, g i off v = [] ↔ F i v.tree = v.tree)
    (m : Text .members) (off : Nat) :
    spliceLast slot g (m.entries off) = [] ↔ mapSlots slot F m.tree = m.tree := by
  rw [splice_last_nil]
  constructor
  · intro hnil
    funext k
    cases hk : slot k with
    | none => simp [mapSlots, hk]
    | some i =>
      have htree := last_tree hslot hk m off
      cases hlast : lastOf slot i (m.entries off) with
      | none => simp [mapSlots, hk, ← htree, hlast]
      | some e => simp [mapSlots, hk, ← htree, hlast, (h i e.off e.value).mp (hnil i e hlast)]
  · intro hsame i e hlast
    have hk := last_slot hlast
    have htree := last_tree hslot hk m off
    have hk' := congrFun hsame e.key.str
    simp only [mapSlots, hk, ← htree, hlast, Option.map_some, Option.some.injEq] at hk'
    exact (h i e.off e.value).mpr hk'

def Text.allMembers (p : Body → Text .value → Bool) : {k : Kind} → Text k → Bool
  | _, .lastMember head v _ => p head.key v
  | _, .member head v _ rest => p head.key v && rest.allMembers p
  | _, _ => true

theorem all_members_keys (p : Body → Bool) {k : Kind} (m : Text k) :
    (m.allMembers fun key _ => p key) = m.keys.all p := by
  induction m with
  | lastMember head v post => simp [Text.allMembers, Text.keys]
  | member head v post rest _ ih => simp [Text.allMembers, Text.keys, ih]
  | _ => rfl

theorem entries_all (p : Body → Text .value → Bool) {k : Kind} (m : Text k) (off : Nat) :
    (m.entries off).all (fun e => p e.key e.value) = m.allMembers p := by
  induction m generalizing off with
  | lastMember head v post => simp [Text.entries, Text.allMembers]
  | member head v post rest _ ih => simp [Text.entries, Text.allMembers, ih]
  | _ => rfl

theorem edit_last_all {p : Body → Text .value → Bool} {f : ι → Text .value → Text .value}
    (h : ∀ key v i, slot key.str = some i → p key v = true → p key (f i v) = true) {k : Kind}
    {m : Text k} (hm : m.allMembers p = true) : (m.editLast slot f).allMembers p = true := by
  have hmember : ∀ key v (q : Bool), p key v = true → p key (match slot key.str with
      | some i => if q then v else f i v
      | none => v) = true := by
    intro key v q hv
    cases hs : slot key.str with
    | none => exact hv
    | some i =>
      cases q with
      | true => exact hv
      | false => exact h key v i hs hv
  induction m with
  | lastMember head v post => exact hmember head.key v false hm
  | member head v post rest _ ih =>
    simp only [Text.allMembers, Text.editLast, Bool.and_eq_true] at hm ⊢
    refine ⟨?_, ih hm.2⟩
    cases hs : slot head.key.str with
    | none => exact hm.1
    | some i => simpa [hs] using hmember head.key v (rest.uses slot i) hm.1
  | _ => exact hm

/-! ## Items -/

def Text.mapItems (f : Text .value → Text .value) : {k : Kind} → Text k → Text k
  | _, .lastItem pre v post => .lastItem pre (f v) post
  | _, .item pre v post rest => .item pre (f v) post (rest.mapItems f)
  | _, c => c

theorem map_items_edited {f : Text .value → Text .value} {g : Nat → Text .value → List Splice}
    (h : ∀ off v, Edited off v.render (g off v) (f v).render) {k : Kind} (c : Text k) (off : Nat) :
    Edited off c.render ((c.elements off).flatMap fun p => g p.1 p.2) (c.mapItems f).render := by
  induction c generalizing off with
  | lastItem pre v post =>
    have hv := (h (off + pre.1.length) v).between pre.1 (post.1 ++ [closeBracket])
    simpa [Text.render, Text.elements, Text.mapItems] using hv
  | item pre v post rest _ ih =>
    have hv := (h (off + pre.1.length) v).between pre.1 (post.1 ++ [comma])
    have hrest := hv.append (b := rest.render) (by simpa using ih _)
    simpa [Text.render, Text.elements, Text.mapItems, Nat.add_assoc] using hrest
  | _ => exact .keep _ _

theorem map_items_tree {f : Text .value → Text .value} {F : Tree → Tree}
    (h : ∀ v, (f v).tree = F v.tree) (c : Text .items) :
    (c.mapItems f).tree = c.tree.map F := by
  induction c using Text.items_induction with
  | lastItem pre v post => simp [Text.mapItems, Text.tree, h]
  | item pre v post rest ih => simp [Text.mapItems, Text.tree, h, ih]

theorem map_items_nil_iff {g : Nat → Text .value → List Splice} {F : Tree → Tree}
    (h : ∀ off v, g off v = [] ↔ F v.tree = v.tree) (c : Text .items) (off : Nat) :
    ((c.elements off).flatMap fun p => g p.1 p.2) = [] ↔ c.tree.map F = c.tree := by
  induction c using Text.items_induction generalizing off with
  | lastItem pre v post => simp [Text.elements, Text.tree, h]
  | item pre v post rest ih =>
    rw [Text.elements, List.flatMap_cons, List.append_eq_nil_iff, ih, h]
    simp [Text.tree]

def Text.allItems (p : Text .value → Bool) : {k : Kind} → Text k → Bool
  | _, .lastItem _ v _ => p v
  | _, .item _ v _ rest => p v && rest.allItems p
  | _, _ => true

theorem elements_all (p : Text .value → Bool) {k : Kind} (c : Text k) (off : Nat) :
    (c.elements off).all (fun q => p q.2) = c.allItems p := by
  induction c generalizing off with
  | lastItem pre v post => simp [Text.elements, Text.allItems]
  | item pre v post rest _ ih => simp [Text.elements, Text.allItems, ih]
  | _ => rfl

theorem map_items_all {p : Text .value → Bool} {f : Text .value → Text .value}
    (h : ∀ v, p v = true → p (f v) = true) {k : Kind} {c : Text k} (hc : c.allItems p = true) :
    (c.mapItems f).allItems p = true := by
  induction c with
  | lastItem pre v post => exact h v hc
  | item pre v post rest _ ih =>
    simp only [Text.allItems, Text.mapItems, Bool.and_eq_true] at hc ⊢
    exact ⟨h v hc.1, ih hc.2⟩
  | _ => exact hc

/-! ## One member more -/

/-- A member after the last, with nothing around it. -/
def Text.addMember : {k : Kind} → Text k → Body → Text .value → Text k
  | _, .lastMember head v post, key, w =>
    .member head v Space.none
      (.lastMember { pre := Space.none, key := key, mid := Space.none, gap := Space.none } w post)
  | _, .member head v post rest, key, w => .member head v post (rest.addMember key w)
  | _, c, _, _ => c

/-- A byte that a tree may end with. -/
def isTight (b : UInt8) : Bool :=
  isScalarByte b || b == quote || b == closeBracket || b == closeBrace

theorem render_ends {k : Kind} (c : Text k) : ∃ t b, c.render = t ++ [b] ∧ isTight b = true := by
  induction c with
  | scalar s =>
    obtain ⟨hall, hne⟩ := scalar_bytes s
    refine ⟨s.1.dropLast, s.1.getLast hne, (List.dropLast_append_getLast hne).symm, ?_⟩
    have hlast := List.all_eq_true.mp hall _ (List.getLast_mem hne)
    simp [isTight, hlast]
  | string body => exact ⟨quote :: body.1, quote, rfl, by decide⟩
  | emptyArray ws => exact ⟨openBracket :: ws.1, closeBracket, rfl, by decide⟩
  | array items ih =>
    obtain ⟨t, b, ht, hb⟩ := ih
    exact ⟨openBracket :: t, b, by simp [Text.render, ht], hb⟩
  | emptyObject ws => exact ⟨openBrace :: ws.1, closeBrace, rfl, by decide⟩
  | object members ih =>
    obtain ⟨t, b, ht, hb⟩ := ih
    exact ⟨openBrace :: t, b, by simp [Text.render, ht], hb⟩
  | lastItem pre v post => exact ⟨_, closeBracket, rfl, by decide⟩
  | item pre v post rest _ ih =>
    obtain ⟨t, b, ht, hb⟩ := ih
    exact ⟨pre.1 ++ v.render ++ post.1 ++ comma :: t, b, by simp [Text.render, ht], hb⟩
  | lastMember head v post => exact ⟨_, closeBrace, rfl, by decide⟩
  | member head v post rest _ ih =>
    obtain ⟨t, b, ht, hb⟩ := ih
    exact ⟨head.render ++ v.render ++ post.1 ++ comma :: t, b, by simp [Text.render, ht], hb⟩

/-- The member is put where the last value ends, before the whitespace that follows it. -/
theorem add_member_render (key : Body) (w : Text .value) (m : Text .members) :
    ∃ front b, ∃ post : Space, isTight b = true ∧
      m.render = front ++ [b] ++ post.1 ++ [closeBrace] ∧
      (m.addMember key w).render =
        front ++ [b] ++ (comma :: renderString key ++ colon :: w.render) ++ post.1 ++
          [closeBrace] := by
  induction m using Text.members_induction with
  | lastMember head v post =>
    obtain ⟨t, b, ht, hb⟩ := render_ends v
    refine ⟨head.render ++ t, b, post, hb, ?_, ?_⟩
    · simp [Text.render, ht]
    · simp [Text.addMember, Text.render, ht, Head.render, Space.none]
  | member head v post rest ih =>
    obtain ⟨front, b, post', hb, hrender, hadd⟩ := ih
    refine ⟨head.render ++ v.render ++ post.1 ++ comma :: front, b, post', hb, ?_, ?_⟩
    · simp [Text.render, hrender]
    · simp [Text.addMember, Text.render, hadd]

theorem add_member_tree (key : Body) (w : Text .value) (m : Text .members) (k : Str) :
    (m.addMember key w).tree k = if k = key.str then some w.tree else m.tree k := by
  induction m using Text.members_induction with
  | lastMember head v post =>
    by_cases h : k = key.str <;> simp [Text.addMember, Text.tree, Tree.member, h]
  | member head v post rest ih =>
    simp only [Text.addMember, Text.tree, Tree.member, ih]
    by_cases h : k = key.str <;> simp [h]

/-! ## UTF-8 -/

/-- Every string of the tree is UTF-8. -/
def Text.isUtf8 : {k : Kind} → Text k → Bool
  | _, .scalar _ => true
  | _, .string body => JsonText.isUtf8 body.1
  | _, .emptyArray _ => true
  | _, .array items => items.isUtf8
  | _, .emptyObject _ => true
  | _, .object members => members.isUtf8
  | _, .lastItem _ v _ => v.isUtf8
  | _, .item _ v _ rest => v.isUtf8 && rest.isUtf8
  | _, .lastMember head v _ => JsonText.isUtf8 head.key.1 && v.isUtf8
  | _, .member head v _ rest => JsonText.isUtf8 head.key.1 && v.isUtf8 && rest.isUtf8

theorem space_ascii {b : UInt8} (h : isSpace b = true) : b < 0x80 := by
  simp only [isSpace, Bool.or_eq_true, beq_iff_eq] at h
  rcases h with ((rfl | rfl) | rfl) | rfl <;> decide

theorem scalar_byte_ascii {b : UInt8} (h : isScalarByte b = true) : b < 0x80 := by
  simp only [isScalarByte, isDigit, Bool.or_eq_true, Bool.and_eq_true, decide_eq_true_eq,
    beq_iff_eq] at h
  rcases h with (((((h | h) | rfl) | rfl) | rfl) | rfl)
  · exact UInt8.lt_of_le_of_lt h.2 (by decide)
  · exact UInt8.lt_of_le_of_lt h.2 (by decide)
  all_goals decide

theorem utf8_ascii_append {p : UInt8 → Bool} (hp : ∀ {b}, p b = true → b < 0x80) {s : Bytes}
    (hs : s.all p = true) (t : Bytes) : JsonText.isUtf8 (s ++ t) = JsonText.isUtf8 t := by
  induction s with
  | nil => rfl
  | cons b s ih =>
    rw [List.all_cons, Bool.and_eq_true] at hs
    rw [List.cons_append, utf8_ascii_cons (hp hs.1), ih hs.2]

theorem utf8_space (ws : Space) (t : Bytes) : JsonText.isUtf8 (ws.1 ++ t) = JsonText.isUtf8 t :=
  utf8_ascii_append space_ascii ws.2 t

theorem utf8_string (body : Body) (t : Bytes) : JsonText.isUtf8 (renderString body ++ t) =
    (JsonText.isUtf8 body.1 && JsonText.isUtf8 t) := by
  rw [renderString, List.append_assoc, List.cons_append, utf8_ascii_cons (by decide)]
  exact utf8_append (by decide) body.1 t

/-- A text is UTF-8 when its strings are: everything else in it is ASCII. -/
theorem utf8_render {k : Kind} (c : Text k) (t : Bytes) :
    JsonText.isUtf8 (c.render ++ t) = (c.isUtf8 && JsonText.isUtf8 t) := by
  have h {b : UInt8} (hb : b < 0x80) (t : Bytes) := utf8_ascii_cons hb t
  induction c generalizing t with
  | scalar s => exact utf8_ascii_append scalar_byte_ascii (scalar_bytes s).1 t
  | string body => exact utf8_string body t
  | emptyArray ws =>
    simp [Text.render, Text.isUtf8, utf8_space, h (b := openBracket) (by decide),
      h (b := closeBracket) (by decide)]
  | array items ih => simp [Text.render, Text.isUtf8, h (b := openBracket) (by decide), ih]
  | emptyObject ws =>
    simp [Text.render, Text.isUtf8, utf8_space, h (b := openBrace) (by decide),
      h (b := closeBrace) (by decide)]
  | object members ih => simp [Text.render, Text.isUtf8, h (b := openBrace) (by decide), ih]
  | lastItem pre v post ih =>
    simp [Text.render, Text.isUtf8, utf8_space, ih, h (b := closeBracket) (by decide)]
  | item pre v post rest ihv ihrest =>
    simp [Text.render, Text.isUtf8, utf8_space, ihv, ihrest, h (b := comma) (by decide),
      Bool.and_assoc]
  | lastMember head v post ih =>
    simp [Text.render, Text.isUtf8, Head.render, utf8_space, utf8_string, ih,
      h (b := closeBrace) (by decide), h (b := colon) (by decide), Bool.and_assoc]
  | member head v post rest ihv ihrest =>
    simp [Text.render, Text.isUtf8, Head.render, utf8_space, utf8_string, ihv, ihrest,
      h (b := comma) (by decide), h (b := colon) (by decide), Bool.and_assoc]

theorem edit_last_utf8 {f : ι → Text .value → Text .value}
    (h : ∀ i v, v.isUtf8 = true → (f i v).isUtf8 = true) {k : Kind} {m : Text k}
    (hm : m.isUtf8 = true) : (m.editLast slot f).isUtf8 = true := by
  induction m with
  | lastMember head v post =>
    simp only [Text.isUtf8, Text.editLast, Bool.and_eq_true] at hm ⊢
    refine ⟨hm.1, ?_⟩
    split
    · exact h _ v hm.2
    · exact hm.2
  | member head v post rest _ ih =>
    simp only [Text.isUtf8, Text.editLast, Bool.and_eq_true] at hm ⊢
    refine ⟨⟨hm.1.1, ?_⟩, ih hm.2⟩
    split
    · split
      · exact hm.1.2
      · exact h _ v hm.1.2
    · exact hm.1.2
  | _ => exact hm

theorem map_items_utf8 {f : Text .value → Text .value}
    (h : ∀ v, v.isUtf8 = true → (f v).isUtf8 = true) {k : Kind} {c : Text k}
    (hc : c.isUtf8 = true) : (c.mapItems f).isUtf8 = true := by
  induction c with
  | lastItem pre v post => exact h v hc
  | item pre v post rest _ ih =>
    simp only [Text.isUtf8, Text.mapItems, Bool.and_eq_true] at hc ⊢
    exact ⟨h v hc.1, ih hc.2⟩
  | _ => exact hc

theorem add_member_utf8 {key : Body} {w : Text .value} (hkey : JsonText.isUtf8 key.1 = true)
    (hw : w.isUtf8 = true) {k : Kind} {m : Text k} (hm : m.isUtf8 = true) :
    (m.addMember key w).isUtf8 = true := by
  induction m with
  | lastMember head v post =>
    simp only [Text.isUtf8, Text.addMember, Bool.and_eq_true] at hm ⊢
    exact ⟨hm, hkey, hw⟩
  | member head v post rest _ ih =>
    simp only [Text.isUtf8, Text.addMember, Bool.and_eq_true] at hm ⊢
    exact ⟨hm.1, ih hm.2⟩
  | _ => exact hm

end Lib.JsonText
