import Mathlib.Data.List.Nodup
import Mathlib.Data.Set.Function

/-!
# Admitting the entries no row owns

Rows are matched to the entries of a list by a relation that need not be a function of either side.
Each entry no row owns yet is appended as a row of its own. Where the relation is one to one before,
it is one to one after, and the entries then correspond to the rows that own one.
-/

namespace Lib

variable {α β : Type*} {owns : α → β → Bool} {mk : β → α} {rows : List α} {file : List β}

/-- The entries admitted, in order: each is checked against the rows admitted before it too. -/
def admitted (owns : α → β → Bool) (mk : β → α) : List α → List β → List β
  | _, [] => []
  | rows, entry :: file =>
    if rows.any (owns · entry) then admitted owns mk rows file
    else entry :: admitted owns mk (rows ++ [mk entry]) file

/-- No row owns two entries, and no two rows own one entry. -/
structure OneToOne (owns : α → β → Bool) (rows : List α) (file : List β) : Prop where
  row_once : ∀ row ∈ rows, file.Pairwise fun a b => ¬(owns row a = true ∧ owns row b = true)
  entry_once : ∀ entry ∈ file, rows.Pairwise fun a b => ¬(owns a entry = true ∧ owns b entry = true)

instance : Decidable (OneToOne owns rows file) :=
  decidable_of_iff (_ ∧ _) ⟨fun h => ⟨h.1, h.2⟩, fun h => ⟨h.1, h.2⟩⟩

/-- A symmetric relation that no two positions are in holds of a position with itself alone. -/
theorem pairwise_not_iff {γ : Type*} {R : γ → γ → Prop} (hR : ∀ a b, R a b → R b a) {l : List γ} :
    (l.Pairwise fun a b => ¬R a b) ↔
      ∀ (i j : Nat) a b, l[i]? = some a → l[j]? = some b → R a b → i = j := by
  rw [List.pairwise_iff_getElem]
  constructor
  · intro h i j a b hi hj hab
    obtain ⟨hil, rfl⟩ := List.getElem?_eq_some_iff.mp hi
    obtain ⟨hjl, rfl⟩ := List.getElem?_eq_some_iff.mp hj
    rcases Nat.lt_trichotomy i j with hij | hij | hij
    · exact absurd hab (h i j hil hjl hij)
    · exact hij
    · exact absurd (hR _ _ hab) (h j i hjl hil hij)
  · intro h i j hi hj hij hab
    exact Nat.ne_of_lt hij
      (h i j _ _ (List.getElem?_eq_getElem hi) (List.getElem?_eq_getElem hj) hab)

theorem OneToOne.row_index (h : OneToOne owns rows file) {row : α} (hrow : row ∈ rows) {i j : Nat}
    {a b : β} (hi : file[i]? = some a) (hj : file[j]? = some b) (ha : owns row a = true)
    (hb : owns row b = true) : i = j :=
  (pairwise_not_iff fun _ _ => And.symm).mp (h.row_once row hrow) i j a b hi hj ⟨ha, hb⟩

theorem OneToOne.entry_index (h : OneToOne owns rows file) {entry : β} (hentry : entry ∈ file)
    {i j : Nat} {a b : α} (hi : rows[i]? = some a) (hj : rows[j]? = some b)
    (ha : owns a entry = true) (hb : owns b entry = true) : i = j :=
  (pairwise_not_iff fun _ _ => And.symm).mp (h.entry_once entry hentry) i j a b hi hj ⟨ha, hb⟩

theorem admitted_sublist (owns : α → β → Bool) (mk : β → α) (rows : List α) (file : List β) :
    (admitted owns mk rows file).Sublist file := by
  induction file generalizing rows with
  | nil => exact .refl []
  | cons entry file ih =>
    unfold admitted
    split
    · exact (ih rows).cons entry
    · exact (ih _).cons_cons entry

/-- An admitted entry is one that no row owned. -/
theorem unowned_of_mem_admitted {entry : β} (h : entry ∈ admitted owns mk rows file) :
    ∀ row ∈ rows, owns row entry = false := by
  induction file generalizing rows with
  | nil => cases h
  | cons head file ih =>
    unfold admitted at h
    split at h
    · exact ih h
    · rename_i hnone
      rcases List.mem_cons.mp h with rfl | h
      · simpa using hnone
      · exact fun row hrow => ih h row (List.mem_append_left _ hrow)

theorem owned_of_admitted (hself : ∀ entry, owns (mk entry) entry = true) {entry : β}
    (h : entry ∈ file) :
    ∃ row ∈ rows ++ (admitted owns mk rows file).map mk, owns row entry = true := by
  induction file generalizing rows with
  | nil => cases h
  | cons head file ih =>
    unfold admitted
    split
    · rename_i howned
      rcases List.mem_cons.mp h with rfl | h
      · obtain ⟨row, hrow, hown⟩ := List.any_eq_true.mp howned
        exact ⟨row, List.mem_append_left _ hrow, hown⟩
      · exact ih h
    · rcases List.mem_cons.mp h with rfl | h
      · exact ⟨mk entry, by simp, hself entry⟩
      · obtain ⟨row, hrow, hown⟩ := @ih (rows ++ [mk head]) h
        exact ⟨row, by simpa using hrow, hown⟩

/-- A row of the admission is an old row, or it was made of an entry that no old row owned. -/
theorem admit_cases {idx : Nat} {row : α}
    (h : (rows ++ (admitted owns mk rows file).map mk)[idx]? = some row) :
    rows[idx]? = some row ∨ rows.length ≤ idx ∧ ∃ entry,
      (admitted owns mk rows file)[idx - rows.length]? = some entry ∧ row = mk entry := by
  rw [List.getElem?_append] at h
  split at h
  · exact .inl h
  · rename_i hlen
    rw [List.getElem?_map, Option.map_eq_some_iff] at h
    obtain ⟨entry, he, rfl⟩ := h
    exact .inr ⟨Nat.le_of_not_lt hlen, entry, he, rfl⟩

section Mirror

variable (hself : ∀ entry, owns (mk entry) entry = true)
  (hfile : ∀ (i j : Nat) a b, file[i]? = some a → file[j]? = some b → owns (mk a) b = true → i = j)

include hself hfile

theorem file_nodup : file.Nodup := by
  rw [List.nodup_iff_getElem?_ne_getElem?]
  intro i j hij hj heq
  have hget : file[j]? = some file[j] := List.getElem?_eq_getElem hj
  exact absurd (hfile i j _ _ (heq.trans hget) hget (hself _)) (Nat.ne_of_lt hij)

/-- The row made of an entry of the file owns that entry alone. -/
theorem made_owns_iff {a b : β} (ha : a ∈ file) (hb : b ∈ file) :
    owns (mk a) b = true ↔ a = b := by
  constructor
  · intro hown
    obtain ⟨i, hi⟩ := List.mem_iff_getElem?.mp ha
    obtain ⟨j, hj⟩ := List.mem_iff_getElem?.mp hb
    have hij := hfile i j a b hi hj hown
    subst hij
    exact Option.some_injective _ (hi.symm.trans hj)
  · rintro rfl
    exact hself a

theorem OneToOne.append_admitted (h : OneToOne owns rows file) :
    OneToOne owns (rows ++ (admitted owns mk rows file).map mk) file := by
  have hsub := admitted_sublist owns mk rows file
  have hmem : ∀ {k entry}, (admitted owns mk rows file)[k]? = some entry → entry ∈ file :=
    fun hk => hsub.subset (List.mem_of_getElem? hk)
  constructor
  · refine fun row hrow => (pairwise_not_iff fun _ _ => And.symm).mpr ?_
    rintro i j a b hi hj ⟨ha, hb⟩
    rcases List.mem_append.mp hrow with hrow | hrow
    · exact h.row_index hrow hi hj ha hb
    · obtain ⟨entry, hentry, rfl⟩ := List.mem_map.mp hrow
      obtain ⟨k, hk⟩ := List.mem_iff_getElem?.mp (hsub.subset hentry)
      exact (hfile k i entry a hk hi ha).symm.trans (hfile k j entry b hk hj hb)
  · -- a row made of an entry owns it alone, and then no old row does
    refine fun entry hentry => (pairwise_not_iff fun _ _ => And.symm).mpr ?_
    rintro i j a b hi hj ⟨ha, hb⟩
    rcases admit_cases hi with hi | ⟨hli, x, hx, rfl⟩ <;>
      rcases admit_cases hj with hj | ⟨hlj, y, hy, rfl⟩
    · exact h.entry_index hentry hi hj ha hb
    · rw [made_owns_iff hself hfile (hmem hy) hentry] at hb
      subst hb
      have := unowned_of_mem_admitted (List.mem_of_getElem? hy) a (List.mem_of_getElem? hi)
      rw [ha] at this
      cases this
    · rw [made_owns_iff hself hfile (hmem hx) hentry] at ha
      subst ha
      have := unowned_of_mem_admitted (List.mem_of_getElem? hx) b (List.mem_of_getElem? hj)
      rw [hb] at this
      cases this
    · rw [made_owns_iff hself hfile (hmem hx) hentry] at ha
      rw [made_owns_iff hself hfile (hmem hy) hentry] at hb
      subst ha hb
      have hnodup := (file_nodup hself hfile).sublist hsub
      have hlt : i - rows.length < (admitted owns mk rows file).length :=
        (List.getElem?_eq_some_iff.mp hx).1
      have := (List.getElem?_inj hlt hnodup).mp (hx.trans hy.symm)
      omega

end Mirror

/-- A one to one matching that leaves no entry without a row is a correspondence of the entries and
the rows that own one. -/
theorem OneToOne.correspondence (h : OneToOne owns rows file)
    (hall : ∀ entry ∈ file, ∃ row ∈ rows, owns row entry = true) :
    ∃ slot : Nat → Nat,
      Set.BijOn slot {i | i < file.length}
        {idx | ∃ row, rows[idx]? = some row ∧ ∃ entry ∈ file, owns row entry = true} ∧
      ∀ i entry, file[i]? = some entry →
        ∃ row, rows[slot i]? = some row ∧ owns row entry = true := by
  have hslot : ∀ i : Nat, ∃ idx : Nat, ∀ entry, file[i]? = some entry →
      ∃ row, rows[idx]? = some row ∧ owns row entry = true := by
    intro i
    cases hi : file[i]? with
    | none => exact ⟨0, nofun⟩
    | some entry =>
      obtain ⟨row, hrow, hown⟩ := hall entry (List.mem_of_getElem? hi)
      obtain ⟨idx, hidx⟩ := List.mem_iff_getElem?.mp hrow
      refine ⟨idx, fun other ho => ?_⟩
      cases ho
      exact ⟨row, hidx, hown⟩
  choose slot hslot using hslot
  refine ⟨slot, ⟨?_, ?_, ?_⟩, hslot⟩
  · intro i hi
    have hget : file[i]? = some file[i] := List.getElem?_eq_getElem hi
    obtain ⟨row, hrow, hown⟩ := hslot i _ hget
    exact ⟨row, hrow, file[i], List.mem_of_getElem? hget, hown⟩
  · intro i hi j hj hij
    have hgi : file[i]? = some file[i] := List.getElem?_eq_getElem hi
    have hgj : file[j]? = some file[j] := List.getElem?_eq_getElem hj
    obtain ⟨row, hrow, hown⟩ := hslot i _ hgi
    obtain ⟨other, hother, hown'⟩ := hslot j _ hgj
    rw [← hij, hrow] at hother
    cases hother
    exact h.row_index (List.mem_of_getElem? hrow) hgi hgj hown hown'
  · rintro idx ⟨row, hrow, entry, hentry, hown⟩
    obtain ⟨i, hi⟩ := List.mem_iff_getElem?.mp hentry
    obtain ⟨other, hother, hown'⟩ := hslot i entry hi
    exact ⟨i, (List.getElem?_eq_some_iff.mp hi).1,
      h.entry_index hentry hother hrow hown' hown⟩

end Lib
