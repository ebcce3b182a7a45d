import TeamClaude.Body.TtlEdit

/-!
# Every breakpoint asks for the hour

What the whole rewrite does to the tree of a body: the `ttl` of each breakpoint in a legal position
is set and nothing else changes, in the tree or in the bytes.
-/

namespace TeamClaude

open Lib.JsonText

/-! ## What the tree becomes -/

/-- The named members of an object changed. -/
def onNames (names : List Bytes) (F : Nat → Tree → Tree) : Tree → Tree
  | .object m => .object (mapSlots (slotOf names) F m)
  | t => t

def onItems (F : Tree → Tree) : Tree → Tree
  | .array ts => .array (ts.map F)
  | t => t

noncomputable def extendBlock : Tree → Tree :=
  onNames [ascii "cache_control"] fun _ => setTtl

noncomputable def extendMessage : Tree → Tree :=
  onNames [ascii "content"] fun _ => onItems extendBlock

/-- A body with every breakpoint in a legal position set. -/
noncomputable def extendTree : Tree → Tree :=
  onNames rootNames fun i => onItems (if i = 2 then extendMessage else extendBlock)

def IsMember (t : Tree) (name : Bytes) (v : Tree) : Prop :=
  ∃ m, t = .object m ∧ m (.text name) = some v

def IsItem (t v : Tree) : Prop :=
  ∃ ts, t = .array ts ∧ v ∈ ts

/-- A block in a legal position of a body: in `system`, in `tools` or in a message's content. -/
inductive IsBlock (root : Tree) : Tree → Prop
  | system {list b : Tree} (hlist : IsMember root (ascii "system") list) (hb : IsItem list b) :
      IsBlock root b
  | tool {list b : Tree} (hlist : IsMember root (ascii "tools") list) (hb : IsItem list b) :
      IsBlock root b
  | content {list message content b : Tree} (hlist : IsMember root (ascii "messages") list)
      (hmessage : IsItem list message) (hcontent : IsMember message (ascii "content") content)
      (hb : IsItem content b) : IsBlock root b

/-- A `cache_control` of a block that is an object with readable keys. -/
def IsBreakpoint (root : Tree) (m : Str → Option Tree) : Prop :=
  ∃ b, IsBlock root b ∧ IsMember b (ascii "cache_control") (.object m) ∧
    ∀ k, (m k).isSome = true → Str.isText k = true

theorem set_ttl_fixed (t : Tree) : setTtl t = t ↔
    ∀ m, t = .object m → (∀ k, (m k).isSome = true → Str.isText k = true) →
      m ttlKey = some hourTree := by
  cases t with
  | object m =>
    by_cases h : ∀ k, (m k).isSome = true → Str.isText k = true
    · rw [setTtl, if_pos h, update_object_eq]
      constructor
      · rintro hm _ ⟨rfl⟩ -
        exact hm
      · exact fun hm => hm m rfl h
    · rw [setTtl, if_neg h]
      constructor
      · rintro - _ ⟨rfl⟩ hm
        exact absurd hm h
      · exact fun _ => rfl
  | _ => simp [setTtl]

theorem on_items_fixed {F : Tree → Tree} (t : Tree) :
    onItems F t = t ↔ ∀ v, IsItem t v → F v = v := by
  cases t with
  | array ts =>
    have hmap : ts.map F = ts ↔ ∀ v ∈ ts, F v = v := by
      constructor
      · intro h v hv
        obtain ⟨i, hi, rfl⟩ := List.getElem_of_mem hv
        have hget := List.getElem_map F (l := ts) (i := i) (h := by simpa using hi)
        simp only [h] at hget
        exact hget.symm
      · exact fun h => (List.map_congr_left h).trans (List.map_id ts)
    rw [onItems, Tree.array.injEq, hmap]
    constructor
    · rintro h v ⟨_, ⟨rfl⟩, hv⟩
      exact h v hv
    · exact fun h v hv => h v ⟨ts, rfl, hv⟩
  | _ => simp [onItems, IsItem]

theorem on_names_fixed {names : List Bytes} (hnames : names.Nodup) {F : Nat → Tree → Tree}
    (t : Tree) : onNames names F t = t ↔
      ∀ i (hi : i < names.length) v, IsMember t names[i] v → F i v = v := by
  cases t with
  | object m =>
    rw [onNames, Tree.object.injEq]
    constructor
    · rintro h i hi v ⟨_, ⟨rfl⟩, hv⟩
      have hslot : slotOf names (.text names[i]) = some i := by
        refine List.findIdx?_eq_some_iff_getElem.mpr ⟨hi, beq_self_eq_true _, ?_⟩
        intro j hj
        have hne := List.pairwise_iff_getElem.mp hnames j i (Nat.lt_trans hj hi) hi hj
        simpa using hne
      have hk := congrFun h (.text names[i])
      simpa [mapSlots, hslot, hv] using hk
    · intro h
      funext k
      cases hk : slotOf names k with
      | none => simp [mapSlots, hk]
      | some i =>
        obtain ⟨hi, rfl⟩ := slot_eq_some hk
        cases hv : m (.text names[i]) with
        | none => simp [mapSlots, hk, hv]
        | some v => simp [mapSlots, hk, hv, h i hi v ⟨m, rfl, hv⟩]
  | _ => simp [onNames, IsMember]

theorem extend_block_fixed (t : Tree) : extendBlock t = t ↔
    ∀ m, IsMember t (ascii "cache_control") (.object m) →
      (∀ k, (m k).isSome = true → Str.isText k = true) → m ttlKey = some hourTree := by
  rw [extendBlock, on_names_fixed (by decide)]
  constructor
  · intro h m hm hkeys
    exact (set_ttl_fixed _).mp (h 0 (by decide) _ hm) m rfl hkeys
  · intro h i hi v hv
    obtain rfl : i = 0 := Nat.lt_one_iff.mp hi
    refine (set_ttl_fixed v).mpr ?_
    rintro m rfl hkeys
    exact h m hv hkeys

theorem extend_message_fixed (t : Tree) : extendMessage t = t ↔
    ∀ content, IsMember t (ascii "content") content →
      ∀ b, IsItem content b → extendBlock b = b := by
  rw [extendMessage, on_names_fixed (by decide)]
  constructor
  · intro h content hcontent
    exact (on_items_fixed content).mp (h 0 (by decide) content hcontent)
  · intro h i hi v hv
    obtain rfl : i = 0 := Nat.lt_one_iff.mp hi
    exact (on_items_fixed v).mpr (h v hv)

/-- The rewrite leaves a tree as it is when every breakpoint asks for the hour already. -/
theorem extend_tree_fixed (t : Tree) :
    extendTree t = t ↔ ∀ m, IsBreakpoint t m → m ttlKey = some hourTree := by
  have hblocks : extendTree t = t ↔ ∀ b, IsBlock t b → extendBlock b = b := by
    rw [extendTree, on_names_fixed (by decide)]
    constructor
    · intro h b hb
      cases hb with
      | system hlist hb => exact (on_items_fixed _).mp (h 0 (by decide) _ hlist) b hb
      | tool hlist hb => exact (on_items_fixed _).mp (h 1 (by decide) _ hlist) b hb
      | content hlist hmessage hcontent hb =>
        have hfixed := (on_items_fixed _).mp (h 2 (by decide) _ hlist) _ hmessage
        exact (extend_message_fixed _).mp hfixed _ hcontent b hb
    · intro h i hi v hv
      rw [on_items_fixed]
      intro b hb
      match i, hi, hv with
      | 0, _, hv => exact h b (.system hv hb)
      | 1, _, hv => exact h b (.tool hv hb)
      | 2, _, hv =>
        refine (extend_message_fixed b).mpr ?_
        intro content hcontent b' hb'
        exact h b' (.content hv hb hcontent hb')
  rw [hblocks]
  constructor
  · rintro h m ⟨b, hb, hm, hkeys⟩
    exact (extend_block_fixed b).mp (h b hb) m hm hkeys
  · intro h b hb
    refine (extend_block_fixed b).mpr ?_
    intro m hm hkeys
    exact h m ⟨b, hb, hm, hkeys⟩

/-! ## The edit of a body -/

noncomputable def blockEdit : Edit ttlTexts :=
  Edit.onSlots (fun _ : Nat => ttlEdit) (slot_injective [ascii "cache_control"])

noncomputable def messageEdit : Edit ttlTexts :=
  Edit.onSlots (fun _ : Nat => blockEdit.each) (slot_injective [ascii "content"])

noncomputable def elementEdit : Element → Edit ttlTexts
  | .block => blockEdit
  | .message => messageEdit

noncomputable def rootEdit : Edit ttlTexts :=
  Edit.onSlots (fun i : Nat => (elementEdit (elementOf i)).each) (slot_injective rootNames)

/-! ## The walk makes the edit -/

section Walk

variable (inRange : Bytes → Bool)

theorem slot_single {name : Bytes} (k : Str) (i : Nat) (h : slotOf [name] k = some i) : i = 0 := by
  obtain ⟨hi, -⟩ := slot_eq_some h
  exact Nat.lt_one_iff.mp hi

theorem visit_list_eq {visit : Nat → Text .value → Option (List Splice)} {ok : Text .value → Bool}
    {e : Edit ttlTexts}
    (hvisit : ∀ off v, visit off v = if ok v then some (e.splices off v) else none) (off : Nat)
    (v : Text .value) : visitList inRange visit off v =
      if listOk inRange ok v then some (e.each.splices off v) else none := by
  cases v with
  | array items =>
    rw [visitList, visit_items_eq hvisit, elements_all]
    rfl
  | object m =>
    rw [visitList, entries_all fun key _ => key.decodes]
    rfl
  | _ => rfl

theorem visit_block_eq (off : Nat) (v : Text .value) : visitBlock inRange off v =
    if blockOk inRange v then some (blockEdit.splices off v) else none := by
  cases v with
  | object m =>
    have hsplices : blockEdit.splices off (.object m) =
        slotSplices (slotOf [ascii "cache_control"]) (fun _ => extendCacheControl) 0
          (m.entries (off + 1)) :=
      splice_last_single slot_single _ _
    have hpick : visitMembers [ascii "cache_control"] (fun _ e => some e) (m.entries (off + 1)) =
        if blockOk inRange (.object m) then
          some fun i => lastOf (slotOf [ascii "cache_control"]) i (m.entries (off + 1))
        else none := by
      rw [pick_members_eq, entries_all fun key _ => key.decodes]
      rfl
    rw [visitBlock, hpick, hsplices]
    by_cases hok : blockOk inRange (.object m) = true
    · simp only [hok, if_true, Option.bind_eq_bind, Option.bind_some]
      unfold slotSplices
      cases lastOf (slotOf [ascii "cache_control"]) 0 (m.entries (off + 1)) <;> rfl
    · rw [if_neg hok, if_neg hok]
      rfl
  | _ => rfl

theorem visit_message_eq (off : Nat) (v : Text .value) : visitMessage inRange off v =
    if messageOk inRange v then some (messageEdit.splices off v) else none := by
  cases v with
  | object m =>
    have hsplices : messageEdit.splices off (.object m) =
        slotSplices (slotOf [ascii "content"]) (fun _ => blockEdit.each.splices) 0
          (m.entries (off + 1)) :=
      splice_last_single slot_single _ _
    have hvisit : ∀ (i : Nat) (e : Entry),
        visitList inRange (visitBlock inRange) e.off e.value =
          if listOk inRange (blockOk inRange) e.value then
            some (blockEdit.each.splices e.off e.value) else none :=
      fun i e => visit_list_eq inRange (visit_block_eq inRange) e.off e.value
    have hmembers := @visit_members_eq (List Splice) [ascii "content"]
      (fun _ => listOk inRange (blockOk inRange)) (fun _ e => blockEdit.each.splices e.off e.value)
      (fun _ e => visitList inRange (visitBlock inRange) e.off e.value) hvisit
      (m.entries (off + 1))
    rw [visitMessage, hmembers, entries_all, hsplices, messageOk]
    split
    · simp only [Option.bind_eq_bind, Option.bind_some]
      unfold slotSplices
      cases lastOf (slotOf [ascii "content"]) 0 (m.entries (off + 1)) <;> rfl
    · rfl
  | _ => rfl

theorem visit_element_eq (element : Element) (off : Nat) (v : Text .value) :
    visitElement inRange element off v =
      if elementOk inRange element v then some ((elementEdit element).splices off v) else none := by
  cases element with
  | block => exact visit_block_eq inRange off v
  | message => exact visit_message_eq inRange off v

theorem root_slot_lt (k : Str) (i : Nat) (h : slotOf rootNames k = some i) :
    i ∈ List.range 3 := by
  obtain ⟨hi, -⟩ := slot_eq_some h
  exact List.mem_range.mpr hi

theorem visit_root_members (off : Nat) (m : Text .members) :
    visitMembers rootNames
        (fun i e => visitList inRange (visitElement inRange (elementOf i)) e.off e.value)
        (m.entries (off + 1)) =
      if rootOk inRange (.object m) then
        some fun i => (lastOf (slotOf rootNames) i (m.entries (off + 1))).map fun e =>
          (elementEdit (elementOf i)).each.splices e.off e.value
      else none := by
  have hvisit : ∀ (i : Nat) (e : Entry),
      visitList inRange (visitElement inRange (elementOf i)) e.off e.value =
        if listOk inRange (elementOk inRange (elementOf i)) e.value then
          some ((elementEdit (elementOf i)).each.splices e.off e.value) else none :=
    fun i e => visit_list_eq inRange (visit_element_eq inRange (elementOf i)) e.off e.value
  have hmembers := @visit_members_eq (List Splice) rootNames
    (fun i => listOk inRange (elementOk inRange (elementOf i)))
    (fun i e => (elementEdit (elementOf i)).each.splices e.off e.value)
    (fun i e => visitList inRange (visitElement inRange (elementOf i)) e.off e.value) hvisit
    (m.entries (off + 1))
  rw [entries_all] at hmembers
  exact hmembers

/-- The walk gives the splices of the edit, `system`, `tools` and `messages` in that order. -/
theorem visit_root_some {v : Text .value} (hok : rootOk inRange v = true) (off : Nat) :
    ∃ ss, visitRoot inRange off v = some ss ∧ ss.Perm (rootEdit.splices off v) := by
  cases v with
  | object m =>
    have hmembers := visit_root_members inRange off m
    rw [if_pos hok] at hmembers
    have hperm := splice_last_perm (List.nodup_range (n := 3)) root_slot_lt
      (fun i => (elementEdit (elementOf i)).each.splices) (m.entries (off + 1))
    refine ⟨_, by rw [visitRoot, hmembers]; rfl, ?_⟩
    refine List.Perm.trans (List.Perm.of_eq ?_) hperm
    refine List.flatMap_congr ?_
    intro i _
    dsimp only [slotSplices]
    cases lastOf (slotOf rootNames) i (m.entries (off + 1)) <;> rfl
  | emptyObject ws => exact ⟨[], rfl, .refl _⟩
  | _ => cases hok

theorem visit_root_none {v : Text .value} (hok : rootOk inRange v = false) (off : Nat) :
    visitRoot inRange off v = none := by
  cases v with
  | object m =>
    rw [visitRoot, visit_root_members, if_neg (by simp [hok])]
    rfl
  | emptyObject ws => cases hok
  | _ => rfl

/-! ## What is read is still read -/

theorem member_ok_edit {names : List Bytes} {ok : Nat → Text .value → Bool}
    {f : Nat → Text .value → Text .value} (h : ∀ i v, ok i v = true → ok i (f i v) = true)
    (key : Body) (v : Text .value) (i : Nat) (hs : slotOf names key.str = some i)
    (hok : memberOk names ok key v = true) : memberOk names ok key (f i v) = true := by
  unfold memberOk at hok ⊢
  rw [member_slot_eq] at hok ⊢
  cases hd : key.decodes with
  | false => simp [hd] at hok
  | true =>
    simp only [hd, if_true, hs] at hok ⊢
    exact h i v hok

theorem list_ok_each {ok : Text .value → Bool} {e : Edit ttlTexts}
    (h : ∀ v, ok v = true → ok (e.text v) = true) (v : Text .value)
    (hv : listOk inRange ok v = true) : listOk inRange ok (e.each.text v) = true := by
  cases v with
  | array items => exact map_items_all h hv
  | _ => exact hv

theorem block_ok_edit (v : Text .value) (hv : blockOk inRange v = true) :
    blockOk inRange (blockEdit.text v) = true := by
  cases v with
  | object m =>
    refine @edit_last_all Nat _ _ (fun key _ => key.decodes) _ ?_ _ m hv
    intro key v i _ hkey
    exact hkey
  | _ => exact hv

theorem message_ok_edit (v : Text .value) (hv : messageOk inRange v = true) :
    messageOk inRange (messageEdit.text v) = true := by
  cases v with
  | object m =>
    exact edit_last_all (member_ok_edit fun _ => list_ok_each inRange (block_ok_edit inRange)) hv
  | _ => exact hv

theorem element_ok_edit (element : Element) (v : Text .value)
    (hv : elementOk inRange element v = true) :
    elementOk inRange element ((elementEdit element).text v) = true := by
  cases element with
  | block => exact block_ok_edit inRange v hv
  | message => exact message_ok_edit inRange v hv

theorem root_ok_edit (v : Text .value) (hv : rootOk inRange v = true) :
    rootOk inRange (rootEdit.text v) = true := by
  cases v with
  | object m =>
    exact edit_last_all
      (member_ok_edit fun i => list_ok_each inRange (element_ok_edit inRange (elementOf i))) hv
  | _ => exact hv

/-! ## The rewrite -/

theorem on_slots_tree (names : List Bytes) (e : Nat → Edit ttlTexts) :
    (Edit.onSlots e (slot_injective names)).tree = onNames names fun i => (e i).tree := by
  funext t
  cases t <;> rfl

theorem each_tree (e : Edit ttlTexts) : e.each.tree = onItems e.tree := by
  funext t
  cases t <;> rfl

theorem root_tree : rootEdit.tree = extendTree := by
  have hblock : blockEdit.tree = extendBlock := on_slots_tree _ _
  have hmessage : messageEdit.tree = extendMessage := by
    rw [messageEdit, on_slots_tree, each_tree, hblock]
    rfl
  rw [rootEdit, on_slots_tree, extendTree]
  refine congrArg _ (funext fun i => ?_)
  rw [each_tree]
  by_cases hi : i = 2
  · simp [elementOf, elementEdit, hi, hmessage]
  · simp [elementOf, elementEdit, hi, hblock]

def Reads (body : Bytes) (root : Tree) : Prop :=
  isUtf8 body = true ∧
    ∃ d, readDocument body = some d ∧ rootOk inRange d.root = true ∧ d.root.tree = root

theorem reads_unique {body : Bytes} {d : Document} {root : Tree}
    (hd : readDocument body = some d) (h : Reads inRange body root) :
    rootOk inRange d.root = true ∧ d.root.tree = root := by
  obtain ⟨-, d', hd', hok, htree⟩ := h
  rw [hd] at hd'
  cases hd'
  exact ⟨hok, htree⟩

noncomputable def extendDocument (d : Document) : Document :=
  { d with root := rootEdit.text d.root }

theorem document_edited (d : Document) : Edited 0 d.render
    (rootEdit.splices d.pre.1.length d.root) (extendDocument d).render := by
  have h : Edited (0 + d.pre.1.length) d.root.render (rootEdit.splices d.pre.1.length d.root)
      (rootEdit.text d.root).render := by
    rw [Nat.zero_add]
    exact rootEdit.edited d.pre.1.length d.root
  exact h.between d.pre.1 d.post.1

theorem document_utf8 (d : Document) : isUtf8 d.render = d.root.isUtf8 := by
  have hpost : isUtf8 d.post.1 = true := by
    have h := utf8_space d.post []
    rwa [List.append_nil] at h
  rw [Document.render, List.append_assoc, utf8_space, utf8_render, hpost, Bool.and_true]

/-- The rewrite of a body that the walk reads. -/
theorem extend_of_reads {d : Document} (hutf8 : isUtf8 d.render = true)
    (hok : rootOk inRange d.root = true)
    (hliteral : (findWindow (ascii "\"cache_control\"") d.render).isNone = false) :
    extendAllTtls inRange d.render =
      if rootEdit.splices d.pre.1.length d.root = [] then none
      else some (extendDocument d).render := by
  obtain ⟨ss, hvisit, hperm⟩ := visit_root_some inRange hok d.pre.1.length
  have happly := (document_edited d).apply_sorted hperm
  have hempty : ss.isEmpty = true ↔ rootEdit.splices d.pre.1.length d.root = [] := by
    rw [List.isEmpty_iff]
    constructor
    · rintro rfl
      exact hperm.nil_eq.symm
    · intro h
      rw [h] at hperm
      exact hperm.eq_nil
  simp only [extendAllTtls, hliteral, hutf8, read_document_render, hvisit, happly,
    Option.bind_eq_bind, Option.bind_some, hempty]
  rfl

theorem extend_of_not_reads {body : Bytes} (h : ∀ root, ¬Reads inRange body root) :
    extendAllTtls inRange body = none := by
  unfold extendAllTtls
  split
  · rfl
  split
  · rfl
  rename_i hutf8
  cases hd : readDocument body with
  | none => rfl
  | some d =>
    have hok : rootOk inRange d.root = false := by
      rw [Bool.eq_false_iff]
      exact fun hok => h _ ⟨by simpa using hutf8, d, hd, hok, rfl⟩
    simp [visit_root_none inRange hok]

theorem extend_of_no_literal {body : Bytes}
    (h : findWindow (ascii "\"cache_control\"") body = none) :
    extendAllTtls inRange body = none := by
  simp [extendAllTtls, h]

/-- A body that has its rewrite is read as the tree with every breakpoint set. -/
theorem reads_extended {d : Document} (hutf8 : isUtf8 d.render = true)
    (hok : rootOk inRange d.root = true) :
    Reads inRange (extendDocument d).render (extendTree d.root.tree) := by
  refine ⟨?_, extendDocument d, read_document_render _, root_ok_edit inRange d.root hok, ?_⟩
  · rw [document_utf8] at hutf8 ⊢
    exact rootEdit.utf8 d.root hutf8
  · rw [← root_tree]
    exact rootEdit.tree_text d.root

theorem splices_nil_iff (d : Document) : rootEdit.splices d.pre.1.length d.root = [] ↔
    ∀ m, IsBreakpoint d.root.tree m → m ttlKey = some hourTree := by
  rw [rootEdit.nil_iff, root_tree, extend_tree_fixed]

theorem extend_none_iff (body : Bytes) : extendAllTtls inRange body = none ↔
    findWindow (ascii "\"cache_control\"") body = none ∨
      ∀ root, Reads inRange body root → ∀ m, IsBreakpoint root m → m ttlKey = some hourTree := by
  by_cases hreads : ∃ root, Reads inRange body root
  · obtain ⟨root, hutf8, d, hd, hok, rfl⟩ := hreads
    have hrender := read_document_eq hd
    subst hrender
    have hall : (∀ root, Reads inRange d.render root →
          ∀ m, IsBreakpoint root m → m ttlKey = some hourTree) ↔
        ∀ m, IsBreakpoint d.root.tree m → m ttlKey = some hourTree := by
      constructor
      · exact fun h => h _ ⟨hutf8, d, hd, hok, rfl⟩
      · intro h root hroot
        rw [← (reads_unique inRange hd hroot).2]
        exact h
    rw [hall, ← splices_nil_iff]
    cases hliteral : findWindow (ascii "\"cache_control\"") d.render with
    | none => simp [extend_of_no_literal inRange hliteral]
    | some pos =>
      rw [extend_of_reads inRange hutf8 hok (by simp [hliteral])]
      split <;> simp_all
  · have hnone : extendAllTtls inRange body = none :=
      extend_of_not_reads inRange fun root hroot => hreads ⟨root, hroot⟩
    simp only [hnone, true_iff]
    exact .inr fun root hroot => absurd ⟨root, hroot⟩ hreads

/-- The rewrite answers nothing exactly when the body does not spell the key, is not one the walk
reads, or asks for the hour at every breakpoint. Otherwise what it writes is a body whose tree has
every breakpoint set, in which nothing but the splices differs, and which needs no rewrite. -/
theorem extend_all_ttls_sets_breakpoints (body : Bytes) :
    (extendAllTtls inRange body = none ↔
      findWindow (ascii "\"cache_control\"") body = none ∨
        ∀ root, Reads inRange body root →
          ∀ m, IsBreakpoint root m → m ttlKey = some hourTree) ∧
    ∀ out, extendAllTtls inRange body = some out → ∃ root ss,
      Reads inRange body root ∧ Reads inRange out (extendTree root) ∧
        Patches 0 body ss out ∧ (∀ s ∈ ss, s.text ∈ ttlTexts) ∧
          extendAllTtls inRange out = none := by
  refine ⟨extend_none_iff inRange body, ?_⟩
  intro out hout
  have hsome : extendAllTtls inRange body ≠ none := by simp [hout]
  rw [Ne, extend_none_iff, not_or] at hsome
  obtain ⟨hliteral, hroot⟩ := hsome
  have hreads : ∃ root, Reads inRange body root := by
    by_contra hno
    exact hroot fun root hroot => absurd ⟨root, hroot⟩ hno
  obtain ⟨root, hutf8, d, hd, hok, rfl⟩ := hreads
  have hrender := read_document_eq hd
  subst hrender
  rw [extend_of_reads inRange hutf8 hok (by simpa using Option.ne_none_iff_isSome.mp hliteral)]
    at hout
  split at hout
  · cases hout
  cases hout
  have hextended := reads_extended inRange hutf8 hok
  refine ⟨d.root.tree, _, ⟨hutf8, d, hd, hok, rfl⟩, hextended, (document_edited d).patches,
    rootEdit.written _ _, ?_⟩
  -- the breakpoints of the new tree ask for the hour, so the rewrite has nothing left to do
  rw [extend_none_iff]
  refine .inr ?_
  intro root' hroot'
  obtain ⟨-, d', hd', -, htree'⟩ := hextended
  rw [← (reads_unique inRange hd' hroot').2, htree', ← extend_tree_fixed, ← root_tree]
  exact rootEdit.settled d.root.tree

end Walk

def systemKey : Body :=
  ⟨ascii "system", by decide +kernel⟩

/-- A body with one block, which has one empty object under a key. -/
def oneBlock (key : Body) : Document :=
  { pre := Space.none
    root :=
      .object (.lastMember
        { pre := Space.none, key := systemKey, mid := Space.none, gap := Space.none }
        (.array (.lastItem Space.none
          (.object (.lastMember { pre := Space.none, key := key, mid := Space.none, gap := Space.none }
            (.emptyObject Space.none) Space.none))
          Space.none))
        Space.none)
    post := Space.none }

theorem one_block_breakpoint {key : Body} (hkey : key.str = .text (ascii "cache_control")) :
    IsBreakpoint (oneBlock key).root.tree fun _ => none := by
  have hsystem : systemKey.str = .text (ascii "system") := by decide +kernel
  have hblock : IsMember (oneBlock key).root.tree (ascii "system") (.array [.object
      (Tree.member key.str (.object fun _ => none) fun _ => none)]) :=
    ⟨_, rfl, by simp [Tree.member, hsystem, Text.tree]⟩
  refine ⟨_, .system hblock ⟨_, rfl, List.mem_singleton_self _⟩, ⟨_, rfl, ?_⟩, ?_⟩
  · simp [Tree.member, hkey]
  · intro k hk
    cases hk

/-- The key as a client may also spell it. -/
def escapedKey : Body :=
  ⟨ascii "cache\\u005fcontrol", by decide +kernel⟩

/-- A body that spells the key with an escape is read, and its breakpoint does not ask for the hour,
but it is forwarded as it stands. -/
theorem escaped_key_left_alone :
    (oneBlock escapedKey).render =
        ascii "\x7b\"system\":[\x7b\"cache\\u005fcontrol\":\x7b\x7d\x7d]\x7d" ∧
      extendAllTtls (fun _ => true) (oneBlock escapedKey).render = none ∧
        ∃ root m, Reads (fun _ => true) (oneBlock escapedKey).render root ∧
          IsBreakpoint root m ∧ m ttlKey ≠ some hourTree := by
  have hkey : escapedKey.str = .text (ascii "cache_control") := by decide +kernel
  have hliteral : findWindow (ascii "\"cache_control\"") (oneBlock escapedKey).render = none := by
    decide +kernel
  have hutf8 : isUtf8 (oneBlock escapedKey).render = true := by decide +kernel
  have hok : rootOk (fun _ => true) (oneBlock escapedKey).root = true := by decide +kernel
  refine ⟨by decide +kernel, extend_of_no_literal _ hliteral, (oneBlock escapedKey).root.tree, _,
    ⟨hutf8, oneBlock escapedKey, read_document_render _, hok, rfl⟩, one_block_breakpoint hkey, ?_⟩
  intro h
  cases h

def plainKey : Body :=
  ⟨ascii "cache_control", by decide +kernel⟩

/-- The same body with the key spelled out has its one breakpoint set. -/
theorem plain_key_extended : ∃ out root ss,
    Reads (fun _ => true) (oneBlock plainKey).render root ∧
      Reads (fun _ => true) out (extendTree root) ∧
        Patches 0 (oneBlock plainKey).render ss out ∧ (∀ s ∈ ss, s.text ∈ ttlTexts) ∧
          extendAllTtls (fun _ => true) out = none := by
  have hkey : plainKey.str = .text (ascii "cache_control") := by decide +kernel
  have hutf8 : isUtf8 (oneBlock plainKey).render = true := by decide +kernel
  have hok : rootOk (fun _ => true) (oneBlock plainKey).root = true := by decide +kernel
  have hliteral : (findWindow (ascii "\"cache_control\"") (oneBlock plainKey).render).isNone =
      false := by decide +kernel
  have hextend := extend_of_reads (fun _ => true) hutf8 hok hliteral
  have hne : rootEdit.splices (oneBlock plainKey).pre.1.length (oneBlock plainKey).root ≠ [] := by
    rw [Ne, splices_nil_iff]
    intro h
    cases h _ (one_block_breakpoint hkey)
  rw [if_neg hne] at hextend
  exact ⟨_, (extend_all_ttls_sets_breakpoints (fun _ => true) _).2 _ hextend⟩

end TeamClaude
