import TeamClaude.Config.Load
import Mathlib.Data.List.NodupEquivFin

/-!
# The plan of the renames

Each name that repeats stays at one of its rows, and the other rows get names that are minted one
after another. The plan freshens the names, and which names it mints is told without planning.
-/

namespace TeamClaude

open Lib Lib.Json

/-! ## The plan -/

/-- The names a plan puts at the places of the accounts. -/
def nameEdits (renames : List (Nat × AccountRename)) : List (Nat × String) :=
  renames.map fun r => (r.1, r.2.toName)

section Plan

variable {accounts : List StoredAccount} {account : StoredAccount} {taken : Finset String}
  {rows : List (StoredAccount × Nat)} {renames : List (Nat × AccountRename)}
  {name minted : String} {i : Nat}

theorem map_fst_name_edits : (nameEdits renames).map Prod.fst = renames.map Prod.fst := by
  rw [nameEdits, List.map_map]
  rfl

theorem minted_free (h : mintedFor account taken = some minted) : minted ∉ taken :=
  (mint_name_cases h).1

theorem mint_renames_cons :
    mintRenames taken ((account, i) :: rows) = some renames ↔
      ∃ minted rest, mintedFor account taken = some minted ∧
        mintRenames (insert minted taken) rows = some rest ∧
        renames = (i, { fromName := account.name, toName := minted,
                        org := account.orgName.or account.orgUuid }) :: rest := by
  rw [mintRenames]
  simp only [Option.bind_eq_bind, Option.bind_eq_some_iff, Option.pure_def, Option.some.injEq]
  constructor
  · rintro ⟨minted, hminted, rest, hrest, rfl⟩
    exact ⟨minted, rest, hminted, hrest, rfl⟩
  · rintro ⟨minted, rest, hminted, hrest, rfl⟩
    exact ⟨minted, hminted, rest, hrest, rfl⟩

theorem mint_renames_places (h : mintRenames taken rows = some renames) :
    renames.map Prod.fst = rows.map Prod.snd := by
  induction rows generalizing taken renames with
  | nil =>
    cases h
    rfl
  | cons row rows ih =>
    obtain ⟨minted, rest, -, hrest, rfl⟩ := mint_renames_cons.mp h
    rw [List.map_cons, List.map_cons, ih hrest]

/-- The names minted are new, each for the others too. -/
theorem mint_renames_fresh (h : mintRenames taken rows = some renames) :
    ((nameEdits renames).map Prod.snd).Nodup ∧
      ∀ x ∈ (nameEdits renames).map Prod.snd, x ∉ taken := by
  induction rows generalizing taken renames with
  | nil =>
    cases h
    exact ⟨List.nodup_nil, fun _ hx => absurd hx List.not_mem_nil⟩
  | cons row rows ih =>
    obtain ⟨minted, rest, hminted, hrest, rfl⟩ := mint_renames_cons.mp h
    obtain ⟨hnodup, hfree⟩ := ih hrest
    constructor
    · refine List.nodup_cons.mpr ⟨fun hmem => ?_, hnodup⟩
      exact hfree _ hmem (Finset.mem_insert_self _ _)
    · intro x hx
      rcases List.mem_cons.mp hx with rfl | hx
      · exact minted_free hminted
      · exact fun hmem => hfree x hx (Finset.mem_insert_of_mem hmem)

theorem mem_rows_named {row : StoredAccount × Nat} :
    row ∈ rowsNamed accounts name ↔ accounts[row.2]? = some row.1 ∧ row.1.name = name := by
  rw [rowsNamed, List.mem_filter, List.mem_zipIdx_iff_getElem?, decide_eq_true_iff]

/-- Names are minted for so many rows as leave a number free. -/
theorem mint_renames_returns (h : taken.card + rows.length < 4294967296) :
    (mintRenames taken rows).isSome = true := by
  induction rows generalizing taken with
  | nil => rfl
  | cons row rows ih =>
    rw [List.length_cons] at h
    have hsmall : taken.card < 4294967296 := by omega
    have hsome : (mintedFor row.1 taken).isSome = true := mint_name_small hsmall
    obtain ⟨minted, hminted⟩ := Option.isSome_iff_exists.mp hsome
    have hle := Finset.card_insert_le minted taken
    obtain ⟨rest, hrest⟩ := Option.isSome_iff_exists.mp
      (ih (by omega : (insert minted taken).card + rows.length < 4294967296))
    exact Option.isSome_iff_exists.mpr
      ⟨_, mint_renames_cons.mpr ⟨minted, rest, hminted, hrest, rfl⟩⟩

theorem keeper_exists (h : rows ≠ []) : ∃ keeper, keeperOf rows = some keeper ∧ keeper ∈ rows := by
  unfold keeperOf
  cases hfind : rows.find? fun row => isPersonalPlan row.1.organizationType with
  | some keeper => exact ⟨keeper, rfl, List.mem_of_find?_eq_some hfind⟩
  | none =>
    cases hmin : minByKey (fun row => (row.1.priority.getD 0).toInt) rows with
    | none => exact absurd (min_by_key_none.mp hmin) h
    | some keeper => exact ⟨keeper, rfl, (min_by_key_spec hmin).1⟩

theorem mem_duplicated_names : name ∈ duplicatedNames accounts ↔
    1 < (accounts.map StoredAccount.name).count name := by
  rw [duplicatedNames, (List.perm_insertionSort _ _).mem_iff, List.mem_filter, List.mem_dedup,
    decide_eq_true_iff]
  refine ⟨And.right, fun h => ⟨?_, h⟩⟩
  exact List.count_pos_iff.mp (Nat.zero_lt_of_lt h)

theorem nodup_duplicated_names : (duplicatedNames accounts).Nodup :=
  (List.perm_insertionSort _ _).nodup_iff.mpr ((List.nodup_dedup _).filter _)

theorem mem_leaving_rows {row : StoredAccount × Nat} : row ∈ leavingRows accounts name ↔
    row ∈ rowsNamed accounts name ∧
      ∃ keeper, keeperOf (rowsNamed accounts name) = some keeper ∧ row.2 ≠ keeper.2 := by
  unfold leavingRows
  dsimp only
  cases keeperOf (rowsNamed accounts name) with
  | none => simp
  | some keeper => simp [List.mem_filter]

/-- A row is renamed when its name is another row's too and it is not the keeper of it. -/
theorem mem_mint_order {row : StoredAccount × Nat} : row ∈ mintOrder accounts ↔
    accounts[row.2]? = some row.1 ∧
      1 < (accounts.map StoredAccount.name).count row.1.name ∧
      ∃ keeper, keeperOf (rowsNamed accounts row.1.name) = some keeper ∧ row.2 ≠ keeper.2 := by
  rw [mintOrder, List.mem_flatMap]
  constructor
  · rintro ⟨name, hname, hrow⟩
    obtain ⟨hin, hkeeper⟩ := mem_leaving_rows.mp hrow
    obtain ⟨hget, rfl⟩ := mem_rows_named.mp hin
    exact ⟨hget, mem_duplicated_names.mp hname, hkeeper⟩
  · rintro ⟨hget, hcount, hkeeper⟩
    exact ⟨_, mem_duplicated_names.mpr hcount,
      mem_leaving_rows.mpr ⟨mem_rows_named.mpr ⟨hget, rfl⟩, hkeeper⟩⟩

theorem nodup_leaving_rows : (leavingRows accounts name).Nodup := by
  have hrows : (rowsNamed accounts name).Nodup :=
    (List.Nodup.of_map Prod.snd (List.nodup_zipIdx_map_snd accounts)).filter _
  unfold leavingRows
  dsimp only
  cases keeperOf (rowsNamed accounts name) with
  | none => exact List.nodup_nil
  | some keeper => exact hrows.filter _

/-- A row is renamed once. -/
theorem nodup_mint_order : ((mintOrder accounts).map Prod.snd).Nodup := by
  refine List.Nodup.map_on ?_ ?_
  · intro row hrow row' hrow' heq
    obtain ⟨hget, -⟩ := mem_mint_order.mp hrow
    obtain ⟨hget', -⟩ := mem_mint_order.mp hrow'
    rw [heq, hget'] at hget
    exact Prod.ext (Option.some.inj hget).symm heq
  · refine List.nodup_flatMap.mpr ⟨fun _ _ => nodup_leaving_rows, ?_⟩
    refine nodup_duplicated_names.imp fun hne row hrow hrow' => hne ?_
    have hname := (mem_rows_named.mp (mem_leaving_rows.mp hrow).1).2
    have hname' := (mem_rows_named.mp (mem_leaving_rows.mp hrow').1).2
    exact hname.symm.trans hname'

theorem one_lt_count {l : List String} {x : String} {j : Nat} (hij : i ≠ j)
    (hi : l[i]? = some x) (hj : l[j]? = some x) : 1 < l.count x := by
  obtain ⟨hilt, rfl⟩ := List.getElem?_eq_some_iff.mp hi
  obtain ⟨hjlt, heq⟩ := List.getElem?_eq_some_iff.mp hj
  refine List.duplicate_iff_two_le_count.mp (List.duplicate_iff_exists_distinct_get.mpr ?_)
  rcases Nat.lt_or_gt_of_ne hij with hlt | hlt
  · exact ⟨⟨i, hilt⟩, ⟨j, hjlt⟩, hlt, rfl, heq.symm⟩
  · exact ⟨⟨j, hjlt⟩, ⟨i, hilt⟩, hlt, heq.symm, rfl⟩

/-- A name stays at exactly one of its rows: the keeper's, if there are more. -/
theorem one_stays (h : name ∈ accounts.map StoredAccount.name) :
    ∃! i : Nat, (accounts.map StoredAccount.name)[i]? = some name ∧
      i ∉ (mintOrder accounts).map Prod.snd := by
  have hrow : ∀ {j : Nat}, (accounts.map StoredAccount.name)[j]? = some name →
      ∃ a, accounts[j]? = some a ∧ a.name = name := fun hj => by
    rw [List.getElem?_map] at hj
    exact Option.map_eq_some_iff.mp hj
  obtain ⟨i, hi⟩ := List.mem_iff_getElem?.mp h
  by_cases hcount : 1 < (accounts.map StoredAccount.name).count name
  · obtain ⟨a, ha, hname⟩ := hrow hi
    have hne : rowsNamed accounts name ≠ [] :=
      List.ne_nil_of_mem (mem_rows_named.mpr ⟨ha, hname⟩ : (a, i) ∈ _)
    obtain ⟨keeper, hkeeper, hmem⟩ := keeper_exists hne
    obtain ⟨hget, hkept⟩ := mem_rows_named.mp hmem
    refine ⟨keeper.2, ⟨?_, fun hin => ?_⟩, fun j hj => ?_⟩
    · rw [List.getElem?_map, hget]
      exact congrArg some hkept
    · obtain ⟨row, hrow, heq⟩ := List.mem_map.mp hin
      obtain ⟨hget', -, keeper', hkeeper', hnot⟩ := mem_mint_order.mp hrow
      rw [heq, hget] at hget'
      rw [← Option.some.inj hget', hkept, hkeeper] at hkeeper'
      exact hnot (heq.trans (congrArg Prod.snd (Option.some.inj hkeeper')))
    · by_contra hjk
      obtain ⟨b, hb, rfl⟩ := hrow hj.1
      exact hj.2 (List.mem_map.mpr ⟨(b, j), mem_mint_order.mpr ⟨hb, hcount, keeper, hkeeper, hjk⟩,
        rfl⟩)
  · refine ⟨i, ⟨hi, fun hin => ?_⟩, fun j hj => ?_⟩
    · obtain ⟨row, hrow', rfl⟩ := List.mem_map.mp hin
      obtain ⟨hget, hmany, -⟩ := mem_mint_order.mp hrow'
      obtain ⟨a, ha, rfl⟩ := hrow hi
      rw [hget] at ha
      exact hcount (Option.some.inj ha ▸ hmany)
    · by_contra hne
      exact hcount (one_lt_count hne hj.1 hi)

theorem plan_freshens (h : planRenames accounts = some renames) :
    Freshens (accounts.map StoredAccount.name) (nameEdits renames) := by
  obtain ⟨minted, hminted, rfl⟩ := Option.map_eq_some_iff.mp h
  have hperm := List.perm_insertionSort (fun r r' : Nat × AccountRename => r.1 ≤ r'.1) minted
  have hplaces : ((nameEdits (minted.insertionSort fun r r' => r.1 ≤ r'.1)).map Prod.fst).Perm
      ((mintOrder accounts).map Prod.snd) := by
    rw [map_fst_name_edits, ← mint_renames_places hminted]
    exact hperm.map _
  have hvalues := (hperm.map fun r => (r.1, r.2.toName)).map Prod.snd
  obtain ⟨hnodup, hfree⟩ := mint_renames_fresh hminted
  refine ⟨hplaces.nodup_iff.mpr nodup_mint_order, hvalues.nodup_iff.mpr hnodup, ?_, ?_, ?_⟩
  · intro x hx hmem
    exact hfree x (hvalues.mem_iff.mp hx) (List.mem_toFinset.mpr hmem)
  · intro i hi
    obtain ⟨row, hrow, rfl⟩ := List.mem_map.mp (hplaces.mem_iff.mp hi)
    rw [List.length_map]
    exact (List.getElem?_eq_some_iff.mp (mem_mint_order.mp hrow).1).1
  · intro x hx
    simp only [hplaces.mem_iff]
    exact one_stays hx

/-! ## The control name -/

/-- Names are minted one after another with one more off-limits, and no row finds that one the first
one free. -/
def NeverSought (name : String) (taken : Finset String) : List (StoredAccount × Nat) → Prop
  | [] => True
  | (account, _) :: rows =>
    match mintedFor account (insert name taken) with
    | none => False
    | some minted =>
      mintedFor account taken ≠ some name ∧ NeverSought name (insert minted taken) rows

theorem first_free_insert {base other : String} {rounds : Nat} {n : Int32} (hne : minted ≠ other)
    (h : firstFree base taken rounds n = some minted) :
    firstFree base (insert other taken) rounds n = some minted := by
  induction rounds generalizing n with
  | zero => cases h
  | succ rounds ih =>
    rw [firstFree] at h ⊢
    split at h
    · rename_i htaken
      rw [if_pos (Finset.mem_insert_of_mem htaken)]
      exact ih h
    · rename_i hfree
      obtain rfl := Option.some.inj h
      rw [if_neg fun hmem => hfree (Finset.mem_of_mem_insert_of_ne hmem hne)]

/-- What is minted is minted beside one more name too, unless it is that name. -/
theorem minted_insert {other : String} (hne : minted ≠ other)
    (h : mintedFor account taken = some minted) :
    mintedFor account (insert other taken) = some minted := by
  have hfree : ∀ {x : String}, x ∉ taken → some x = some minted → x ∉ insert other taken := by
    intro x hx heq hmem
    obtain rfl := Option.some.inj heq
    exact hx (Finset.mem_of_mem_insert_of_ne hmem hne)
  rw [mintedFor, mintName, mint_name_within] at h ⊢
  split at h
  · rename_i hemail
    rw [if_pos (hfree hemail h)]
    exact h
  · rename_i hemail
    rw [if_neg (not_not.mpr (Finset.mem_insert_of_mem (not_not.mp hemail)))]
    split at h
    · rename_i hbase
      rw [if_pos (hfree hbase h)]
      exact h
    · rename_i hbase
      rw [if_neg (not_not.mpr (Finset.mem_insert_of_mem (not_not.mp hbase)))]
      exact first_free_insert hne h

/-- The names that never find one the first one free are those that do not mint it. -/
theorem never_sought_iff (h : mintRenames taken rows = some renames) :
    NeverSought name taken rows ↔ name ∉ (nameEdits renames).map Prod.snd := by
  induction rows generalizing taken renames with
  | nil =>
    cases h
    exact iff_of_true trivial List.not_mem_nil
  | cons row rows ih =>
    obtain ⟨minted, rest, hminted, hrest, rfl⟩ := mint_renames_cons.mp h
    show _ ↔ name ∉ minted :: (nameEdits rest).map Prod.snd
    rw [List.mem_cons, not_or, NeverSought]
    by_cases hne : minted = name
    · subst hne
      refine iff_of_false (fun hsought => ?_) fun hand => hand.1 rfl
      split at hsought
      · exact hsought
      · exact hsought.1 hminted
    · rw [minted_insert hne hminted]
      dsimp only
      rw [ih hrest, hminted]
      exact and_congr_left' (by simp [eq_comm])

theorem plan_returns (h : accounts.length < 2147483648) : (planRenames accounts).isSome = true := by
  have horder : (mintOrder accounts).length ≤ accounts.length := by
    have hsub : ((mintOrder accounts).map Prod.snd).toFinset ⊆ Finset.range accounts.length := by
      intro i hi
      obtain ⟨row, hrow, rfl⟩ := List.mem_map.mp (List.mem_toFinset.mp hi)
      exact Finset.mem_range.mpr (List.getElem?_eq_some_iff.mp (mem_mint_order.mp hrow).1).1
    have hcard := Finset.card_le_card hsub
    rwa [List.toFinset_card_of_nodup nodup_mint_order, List.length_map, Finset.card_range] at hcard
  have htaken := List.toFinset_card_le (accounts.map StoredAccount.name)
  rw [List.length_map] at htaken
  rw [planRenames, Option.isSome_map]
  exact mint_renames_returns (by omega)

theorem plan_never_sought (h : planRenames accounts = some renames) :
    NeverSought name (accounts.map StoredAccount.name).toFinset (mintOrder accounts) ↔
      name ∉ (nameEdits renames).map Prod.snd := by
  obtain ⟨minted, hminted, rfl⟩ := Option.map_eq_some_iff.mp h
  have hperm := List.perm_insertionSort (fun r r' : Nat × AccountRename => r.1 ≤ r'.1) minted
  rw [never_sought_iff hminted]
  exact (((hperm.map fun r => (r.1, r.2.toName)).map Prod.snd).mem_iff).not.symm

end Plan

end TeamClaude
