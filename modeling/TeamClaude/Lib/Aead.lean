import Mathlib.Data.List.Nodup

/-!
# Authenticated encryption

A cipher seals a message under a key, a nonce and associated data. An ideal one opens a body only
where it was sealed: the calls that were made of it are a parameter of what it is relied on for.
`ofTable` is a cipher that is ideal for the calls of a table.
-/

namespace Lib

structure Aead (Key Nonce : Type*) where
  encrypt : Key → Nonce → List UInt8 → List UInt8 → Option (List UInt8)
  decrypt : Key → Nonce → List UInt8 → List UInt8 → Option (List UInt8)

namespace Aead

variable {Key Nonce : Type*}

/-- What a message was sealed under. -/
structure Call (Key Nonce : Type*) where
  key : Key
  nonce : Nonce
  aad : List UInt8
  msg : List UInt8
  deriving DecidableEq

/-- A body opens exactly when one of the calls sealed it, under that key and associated data, and is
longer than its message by a tag. -/
structure Ideal (aead : Aead Key Nonce) (tagBytes : Nat) (calls : List (Call Key Nonce)) :
    Prop where
  opens_iff : ∀ key nonce aad body msg, aead.decrypt key nonce aad body = some msg ↔
    ⟨key, nonce, aad, msg⟩ ∈ calls ∧ aead.encrypt key nonce aad msg = some body
  tag : ∀ key nonce aad msg body, aead.encrypt key nonce aad msg = some body →
    body.length = msg.length + tagBytes

/-- A cipher that answers from a table of calls and their bodies. -/
def ofTable [DecidableEq Key] [DecidableEq Nonce]
    (table : List (Call Key Nonce × List UInt8)) : Aead Key Nonce where
  encrypt key nonce aad msg :=
    (table.find? fun row => row.1 = ⟨key, nonce, aad, msg⟩).map Prod.snd
  decrypt key nonce aad body :=
    (table.find? fun row => row.1 = ⟨key, nonce, aad, row.1.msg⟩ ∧ row.2 = body).map (·.1.msg)

theorem find_iff {α : Type*} {rows : List α} {p : α → Prop} [DecidablePred p]
    (hone : ∀ row ∈ rows, ∀ other ∈ rows, p row → p other → row = other) {row : α} :
    rows.find? (fun other => p other) = some row ↔ row ∈ rows ∧ p row := by
  constructor
  · intro h
    have hp : p row := of_decide_eq_true (List.find?_some (p := (decide <| p ·)) h)
    exact ⟨List.mem_of_find?_eq_some h, hp⟩
  · rintro ⟨hrow, hp⟩
    obtain ⟨found, hfound⟩ : ∃ found, rows.find? (fun other => p other) = some found :=
      Option.isSome_iff_exists.mp (List.find?_isSome.mpr ⟨row, hrow, decide_eq_true hp⟩)
    have hsome : p found := of_decide_eq_true (List.find?_some (p := (decide <| p ·)) hfound)
    rw [hfound, hone found (List.mem_of_find?_eq_some hfound) row hrow hsome hp]

section
variable [DecidableEq Key] [DecidableEq Nonce] {table : List (Call Key Nonce × List UInt8)}
  {key : Key} {nonce : Nonce} {aad msg body : List UInt8}

theorem encrypt_of_table (hnonce : (table.map (·.1.nonce)).Nodup) :
    (ofTable table).encrypt key nonce aad msg = some body ↔
      (⟨key, nonce, aad, msg⟩, body) ∈ table := by
  have hone : ∀ row ∈ table, ∀ other ∈ table, row.1 = ⟨key, nonce, aad, msg⟩ →
      other.1 = ⟨key, nonce, aad, msg⟩ → row = other := fun row hrow other hother h h' =>
    List.inj_on_of_nodup_map hnonce hrow hother (congrArg Call.nonce (h.trans h'.symm))
  constructor
  · intro h
    obtain ⟨row, hrow, rfl⟩ := Option.map_eq_some_iff.mp h
    obtain ⟨hmem, hcall⟩ := (find_iff hone).mp hrow
    rw [← hcall]
    exact hmem
  · intro h
    exact Option.map_eq_some_iff.mpr ⟨_, (find_iff hone).mpr ⟨h, rfl⟩, rfl⟩

theorem decrypt_of_table (hnonce : (table.map (·.1.nonce)).Nodup) :
    (ofTable table).decrypt key nonce aad body = some msg ↔
      (⟨key, nonce, aad, msg⟩, body) ∈ table := by
  have hone : ∀ row ∈ table, ∀ other ∈ table,
      (row.1 = ⟨key, nonce, aad, row.1.msg⟩ ∧ row.2 = body) →
        (other.1 = ⟨key, nonce, aad, other.1.msg⟩ ∧ other.2 = body) → row = other := by
    rintro row hrow other hother ⟨h, -⟩ ⟨h', -⟩
    refine List.inj_on_of_nodup_map hnonce hrow hother ?_
    rw [h, h']
  constructor
  · intro h
    obtain ⟨row, hrow, rfl⟩ := Option.map_eq_some_iff.mp h
    obtain ⟨hmem, hcall, rfl⟩ := (find_iff hone).mp hrow
    rw [← hcall]
    exact hmem
  · intro h
    exact Option.map_eq_some_iff.mpr ⟨_, (find_iff hone).mpr ⟨h, rfl, rfl⟩, rfl⟩

/-- A table whose nonces differ is a cipher that is ideal for its calls. -/
theorem of_table_ideal {tagBytes : Nat} (hnonce : (table.map (·.1.nonce)).Nodup)
    (htag : ∀ row ∈ table, row.2.length = row.1.msg.length + tagBytes) :
    (ofTable table).Ideal tagBytes (table.map Prod.fst) where
  opens_iff := by
    intro key nonce aad body msg
    rw [decrypt_of_table hnonce, encrypt_of_table hnonce]
    exact ⟨fun h => ⟨List.mem_map_of_mem h, h⟩, And.right⟩
  tag := by
    intro key nonce aad msg body h
    exact htag _ ((encrypt_of_table hnonce).mp h)

end

end Aead

end Lib
