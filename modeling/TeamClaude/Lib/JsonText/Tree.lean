import TeamClaude.Lib.JsonText.Strings

/-!
# What a text means

The tree a text is read into: an object is a map, so a key that repeats counts as its last
occurrence.
-/

namespace Lib.JsonText

/-! ## Trees -/

/-- What a string spells; the bytes as they stand when they spell nothing. -/
inductive Str
  | text (t : Bytes)
  | broken (raw : Bytes)
deriving DecidableEq

def Body.str (body : Body) : Str :=
  match decode body.1 with
  | some t => .text t
  | none => .broken body.1

inductive Tree
  | scalar (t : Bytes)
  | string (s : Str)
  | array (items : List Tree)
  | object (members : Str → Option Tree)

abbrev Meaning : Kind → Type
  | .value => Tree
  | .items => List Tree
  | .members => Str → Option Tree

/-- A member in front of the others: the others' word for its key goes before its own. -/
def Tree.member (key : Str) (v : Tree) (rest : Str → Option Tree) (k : Str) : Option Tree :=
  (rest k).or (if k = key then some v else none)

def Text.tree : {k : Kind} → Text k → Meaning k
  | _, .scalar t => Tree.scalar t.1
  | _, .string body => Tree.string body.str
  | _, .emptyArray _ => Tree.array []
  | _, .array items => Tree.array items.tree
  | _, .emptyObject _ => Tree.object fun _ => none
  | _, .object members => Tree.object members.tree
  | _, .lastItem _ v _ => [v.tree]
  | _, .item _ v _ rest => List.cons v.tree rest.tree
  | _, .lastMember head v _ => Tree.member head.key.str v.tree fun _ => none
  | _, .member head v _ rest => Tree.member head.key.str v.tree rest.tree

/-! ## Members and items, with their offsets -/

structure Entry where
  off : Nat
  key : Body
  value : Text .value

/-- An object's members, the first of which starts at the offset. -/
def Text.entries : {k : Kind} → Nat → Text k → List Entry
  | _, off, .lastMember head v _ => [{ off := off + head.render.length, key := head.key, value := v }]
  | _, off, .member head v post rest =>
    { off := off + head.render.length, key := head.key, value := v } ::
      rest.entries (off + (head.render ++ v.render ++ post.1 ++ [comma]).length)
  | _, _, _ => []

/-- An array's items, each with its offset. -/
def Text.elements : {k : Kind} → Nat → Text k → List (Nat × Text .value)
  | _, off, .lastItem pre v _ => [(off + pre.1.length, v)]
  | _, off, .item pre v post rest =>
    (off + pre.1.length, v) :: rest.elements (off + (pre.1 ++ v.render ++ post.1 ++ [comma]).length)
  | _, _, _ => []

def Text.keys : {k : Kind} → Text k → List Body
  | _, .lastMember head _ _ => [head.key]
  | _, .member head _ _ rest => head.key :: rest.keys
  | _, _ => []

@[elab_as_elim]
theorem Text.members_induction {motive : Text .members → Prop}
    (lastMember : ∀ head v post, motive (.lastMember head v post))
    (member : ∀ head v post rest, motive rest → motive (.member head v post rest))
    (m : Text .members) : motive m := by
  have hall : ∀ {k : Kind} (c : Text k), ∀ hk : k = .members, motive (hk ▸ c) := by
    intro k c
    induction c with
    | lastMember head v post =>
      intro _
      exact lastMember head v post
    | member head v post rest _ ih =>
      intro _
      exact member head v post rest (ih rfl)
    | _ =>
      intro hk
      cases hk
  exact hall m rfl

@[elab_as_elim]
theorem Text.items_induction {motive : Text .items → Prop}
    (lastItem : ∀ pre v post, motive (.lastItem pre v post))
    (item : ∀ pre v post rest, motive rest → motive (.item pre v post rest))
    (c : Text .items) : motive c := by
  have hall : ∀ {k : Kind} (c : Text k), ∀ hk : k = .items, motive (hk ▸ c) := by
    intro k c
    induction c with
    | lastItem pre v post =>
      intro _
      exact lastItem pre v post
    | item pre v post rest _ ih =>
      intro _
      exact item pre v post rest (ih rfl)
    | _ =>
      intro hk
      cases hk
  exact hall c rfl

/-- The value of one member exchanged for another of its length. -/
theorem entries_replace {m : Text .members} {off : Nat} {before after : List Entry} {e : Entry}
    (h : m.entries off = before ++ e :: after) :
    ∃ front back, m.render = front ++ e.value.render ++ back ∧ e.off = off + front.length ∧
      ∀ v : Text .value, v.render.length = e.value.render.length → ∃ m' : Text .members,
        m'.render = front ++ v.render ++ back ∧
          m'.entries off = before ++ { e with value := v } :: after := by
  induction m using Text.members_induction generalizing off before with
  | lastMember head w post =>
    cases before with
    | nil =>
      cases h
      exact ⟨head.render, post.1 ++ [closeBrace], by simp [Text.render], rfl,
        fun v _ => ⟨.lastMember head v post, by simp [Text.render], rfl⟩⟩
    | cons x before =>
      have hlen := congrArg List.length h
      simp [Text.entries] at hlen
  | member head w post rest ih =>
    cases before with
    | nil =>
      obtain ⟨he, hafter⟩ := List.cons.inj h
      subst he
      refine ⟨head.render, post.1 ++ comma :: rest.render, by simp [Text.render], rfl, ?_⟩
      intro v hv
      refine ⟨.member head v post rest, by simp [Text.render], ?_⟩
      simp only at hv
      simp [Text.entries, hv, ← hafter]
    | cons x before =>
      obtain ⟨hx, hrest⟩ := List.cons.inj h
      obtain ⟨front, back, hrender, hoff, hreplace⟩ := ih hrest
      refine ⟨head.render ++ w.render ++ post.1 ++ comma :: front, back, ?_, ?_, ?_⟩
      · simp [Text.render, hrender]
      · rw [hoff]
        simp only [List.length_append, List.length_cons, List.length_nil]
        omega
      · intro v hv
        obtain ⟨rest', hrender', hentries⟩ := hreplace v hv
        refine ⟨.member head w post rest', by simp [Text.render, hrender'], ?_⟩
        rw [Text.entries, hentries, ← hx]
        rfl

def Entry.moveBy (n : Nat) (e : Entry) : Entry :=
  { e with off := n + e.off }

theorem entries_move {k : Kind} (m : Text k) (n off : Nat) :
    m.entries (n + off) = (m.entries off).map (Entry.moveBy n) := by
  induction m generalizing off with
  | lastMember head v post => simp [Text.entries, Entry.moveBy, Nat.add_assoc]
  | member head v post rest _ ih => simp [Text.entries, Entry.moveBy, Nat.add_assoc, ih]
  | _ => rfl

theorem key_inside {k : Kind} {m : Text k} {key : Body} (h : key ∈ m.keys) :
    renderString key <:+: m.render := by
  induction m with
  | lastMember head v post =>
    obtain rfl := List.mem_singleton.mp h
    exact ⟨head.pre.1, head.mid.1 ++ colon :: head.gap.1 ++ v.render ++ post.1 ++ [closeBrace],
      by simp [Text.render, Head.render]⟩
  | member head v post rest _ ih =>
    rcases List.mem_cons.mp h with rfl | h
    · exact ⟨head.pre.1, head.mid.1 ++ colon :: head.gap.1 ++ v.render ++ post.1 ++
        comma :: rest.render, by simp [Text.render, Head.render]⟩
    · obtain ⟨front, back, hrest⟩ := ih h
      exact ⟨head.render ++ v.render ++ post.1 ++ comma :: front, back, by
        simp [Text.render, ← hrest]⟩
  | _ => cases h

theorem entry_inside {k : Kind} {m : Text k} {off : Nat} {e : Entry} (h : e ∈ m.entries off) :
    e.value.render <:+: m.render := by
  induction m generalizing off with
  | lastMember head v post =>
    obtain rfl := List.mem_singleton.mp h
    exact ⟨head.render, post.1 ++ [closeBrace], by simp [Text.render]⟩
  | member head v post rest _ ih =>
    rcases List.mem_cons.mp h with rfl | h
    · exact ⟨head.render, post.1 ++ comma :: rest.render, by simp [Text.render]⟩
    · obtain ⟨front, back, hrest⟩ := ih h
      exact ⟨head.render ++ v.render ++ post.1 ++ comma :: front, back, by
        simp [Text.render, ← hrest]⟩
  | _ => cases h

theorem element_inside {k : Kind} {c : Text k} {off : Nat} {p : Nat × Text .value}
    (h : p ∈ c.elements off) : p.2.render <:+: c.render := by
  induction c generalizing off with
  | lastItem pre v post =>
    obtain rfl := List.mem_singleton.mp h
    exact ⟨pre.1, post.1 ++ [closeBracket], by simp [Text.render]⟩
  | item pre v post rest _ ih =>
    rcases List.mem_cons.mp h with rfl | h
    · exact ⟨pre.1, post.1 ++ comma :: rest.render, by simp [Text.render]⟩
    · obtain ⟨front, back, hrest⟩ := ih h
      exact ⟨pre.1 ++ v.render ++ post.1 ++ comma :: front, back, by
        simp [Text.render, ← hrest]⟩
  | _ => cases h

end Lib.JsonText
