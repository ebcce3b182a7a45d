import TeamClaude.Config.RenamedFile

/-!
# The renames of a load

What a load writes is found again by the next load, row for row, and nothing else in the file is
touched. Only a control reference to no loaded row can come to stand for one, since its name is free
for the plan to mint.
-/

namespace TeamClaude

open Lib Lib.Json

/-! ## A load -/

/-- The row the control reference stands for: the first of its name. -/
def BootConfig.controlRow (config : BootConfig) : Option Nat :=
  config.controlAccount.bind fun control => firstPlace config.names control.accountName

/-- The names of a config as read are made distinct, in memory and in the file, and nothing else in
either is touched. -/
structure RenamesSoundly (upstreamHost : String → Option String) (doc : Value) (read : BootConfig)
    (fileIndex : List Nat) (config : BootConfig) (file : Value) : Prop where
  distinct : config.names.Nodup
  onlyDuplicated : ∀ (i : Nat) name, read.names[i]? = some name → config.names[i]? ≠ some name →
    ∃ j, j ≠ i ∧ read.names[j]? = some name
  oneKeeps : ∀ name ∈ read.names,
    ∃! i : Nat, read.names[i]? = some name ∧ config.names[i]? = some name
  rows : config.accounts.length = read.accounts.length
  ownEntry : ∀ (i : Nat) account, config.accounts[i]? = some account →
    ∃ before p entry written, read.accounts[i]? = some before ∧
      account = { before with name := account.name } ∧ fileIndex[i]? = some p ∧
      (entriesIn doc)[p]? = some entry ∧
      StoredAccount.ofEntry (stampLoaded entry) = some before ∧
      (entriesIn file)[p]? = some written ∧ written.str "name" = some account.name
  entries : (entriesIn file).length = (entriesIn doc).length
  untouched : ∀ p, (∀ i : Nat, fileIndex[i]? = some p → config.names[i]? = read.names[i]?) →
    (entriesIn file)[p]? = (entriesIn doc)[p]?
  onlyNames : ∀ (p : Nat) entry, (entriesIn doc)[p]? = some entry →
    ∃ written, (entriesIn file)[p]? = some written ∧
      ∀ key, key ≠ "name" → written.get key = entry.get key
  keys : ∀ key, key ≠ "accounts" → key ≠ "controlAccount" → file.get key = doc.get key
  idle : config.renamedAccounts = [] → file = doc
  again : ∀ write, load upstreamHost write file = .ok ({ config with renamedAccounts := [] }, file)

/-- The control reference stands for the same row as before, too. -/
structure MigratesSoundly (upstreamHost : String → Option String) (doc : Value) (read : BootConfig)
    (fileIndex : List Nat) (config : BootConfig) (file : Value) : Prop extends
    RenamesSoundly upstreamHost doc read fileIndex config file where
  control : config.controlRow = read.controlRow

/-- A control reference names a loaded row, or, with its name off-limits too, no row on its turn
finds that name the first one free. -/
def ControlStays (config : BootConfig) : Prop :=
  ∀ control, config.controlAccount = some control → control.accountName ∈ config.names ∨
    NeverSought control.accountName config.names.toFinset (mintOrder config.accounts)

section Load

variable {upstreamHost : String → Option String} {write : Except String Unit} {doc file : Value}
  {read config : BootConfig} {fileIndex : List Nat} {renames : List (Nat × AccountRename)}

theorem plan_of_nodup {accounts : List StoredAccount}
    (h : (accounts.map StoredAccount.name).Nodup) : planRenames accounts = some [] := by
  have horder : mintOrder accounts = [] := by
    refine List.eq_nil_iff_forall_not_mem.mpr fun row hrow => ?_
    have hcount := (mem_mint_order.mp hrow).2.1
    have hle := List.nodup_iff_count_le_one.mp h row.1.name
    omega
  rw [planRenames, horder]
  rfl

theorem control_rename_eq (renames : List (Nat × AccountRename)) {control : ControlAccountRef}
    (hcontrol : read.controlAccount = some control) :
    (((controlRename read renames).map ControlAccountRef.name).or (some control)).map
      ControlAccountRef.accountName =
        some (followed read.names (nameEdits renames) control.accountName) := by
  unfold controlRename followed
  rw [hcontrol]
  simp only [Option.bind_eq_bind, Option.bind_some, Option.pure_def]
  cases firstPlace read.names control.accountName with
  | none => rfl
  | some first =>
    have hfind : ((nameEdits renames).find? fun e => e.1 = first) =
        (renames.find? fun r => r.1 = first).map fun r => (r.1, r.2.toName) := by
      rw [nameEdits, List.find?_map]
      rfl
    rw [Option.bind_some, Option.bind_some, hfind]
    cases renames.find? fun r => r.1 = first <;> rfl

theorem control_row_eq : config.controlRow =
    (config.controlAccount.map ControlAccountRef.accountName).bind (firstPlace config.names) := by
  rw [BootConfig.controlRow]
  cases config.controlAccount <;> rfl

theorem control_rename_none (h : read.controlAccount = none) :
    controlRename read renames = none := by
  rw [controlRename, h]
  rfl

theorem control_rename_nil : controlRename read [] = none := by
  unfold controlRename
  cases read.controlAccount with
  | none => rfl
  | some control =>
    simp only [Option.bind_eq_bind, Option.bind_some]
    cases firstPlace read.names control.accountName <;> rfl

/-- The reference stands for the row it stood for exactly when no name is minted that it has named
for want of a row. -/
theorem control_row_renamed (hplan : planRenames read.accounts = some renames) :
    (read.renamed renames).controlRow = read.controlRow ↔ ControlStays read := by
  have hfresh : Freshens read.names (nameEdits renames) := plan_freshens hplan
  cases hcontrol : read.controlAccount with
  | none =>
    refine iff_of_true ?_ fun control h => ?_
    · rw [BootConfig.controlRow, BootConfig.controlRow, hcontrol, BootConfig.renamed,
        control_rename_none hcontrol, hcontrol]
      rfl
    · rw [hcontrol] at h
      cases h
  | some control =>
    have hafter : (read.renamed renames).controlRow =
        firstPlace (setAll read.names (nameEdits renames))
          (followed read.names (nameEdits renames) control.accountName) := by
      have hname := control_rename_eq renames hcontrol
      rw [control_row_eq, names_renamed]
      show (Option.map _
        (((controlRename read renames).map .name).or read.controlAccount)).bind _ = _
      rw [hcontrol, hname]
      rfl
    have hbefore : read.controlRow = firstPlace read.names control.accountName := by
      rw [BootConfig.controlRow, hcontrol]
      rfl
    rw [hafter, hbefore, hfresh.follows, ← plan_never_sought hplan]
    constructor
    · intro h control' hcontrol'
      obtain rfl := Option.some.inj (hcontrol.symm.trans hcontrol')
      exact h
    · exact fun h => h control hcontrol

theorem renamed_nil (h : read.renamedAccounts = []) : read.renamed [] = read := by
  have hcontrol : ((controlRename read []).map ControlAccountRef.name).or read.controlAccount =
      read.controlAccount := by
    rw [control_rename_nil]
    rfl
  rw [BootConfig.renamed, hcontrol]
  obtain ⟨_, _, _, _, _, _, _⟩ := read
  cases h
  rfl

theorem migrate_ok (hread : ReadsAs upstreamHost doc read fileIndex)
    (h : migrateDuplicateNames write doc read fileIndex = some (config, file))
    (hwrite : config.renameWriteError = none) :
    ∃ renames, planRenames read.accounts = some renames ∧ config = read.renamed renames ∧
      Rewrites doc file (writesAt fileIndex renames) (controlRename read renames) ∧
      (renames = [] → file = doc) := by
  obtain ⟨renames, hplan, hmigrate⟩ := Option.map_eq_some_iff.mp h
  refine ⟨renames, hplan, ?_⟩
  cases renames with
  | nil =>
    obtain ⟨rfl, rfl⟩ := Prod.mk.inj hmigrate
    refine ⟨(renamed_nil hread.unnamed).symm, ?_, fun _ => rfl⟩
    rw [control_rename_nil]
    exact ⟨hread.isObject, hread.isArray, rfl, rfl, fun _ _ _ => rfl⟩
  | cons r rest =>
    rw [if_neg (by simp)] at hmigrate
    dsimp only at hmigrate
    split at hmigrate
    · obtain ⟨rfl, -⟩ := Prod.mk.inj hmigrate
      cases hwrite
    · split at hmigrate
      · obtain ⟨rfl, -⟩ := Prod.mk.inj hmigrate
        cases hwrite
      · rename_i saved hsaved
        obtain ⟨rfl, rfl⟩ := Prod.mk.inj hmigrate
        exact ⟨rfl, save_renames_ok hsaved, fun hnil => absurd hnil (List.cons_ne_nil _ _)⟩

theorem load_of_read (h : readConfig upstreamHost doc = .ok (read, fileIndex)) :
    load upstreamHost write doc =
      match migrateDuplicateNames write doc read fileIndex with
      | none => .error .hangs
      | some loaded => .ok loaded := by
  rw [load, h]
  show (match migrateDuplicateNames write doc read fileIndex with
    | none => Except.error LoadError.hangs
    | some loaded => pure loaded) = _
  cases migrateDuplicateNames write doc read fileIndex <;> rfl

section

variable (hread : ReadsAs upstreamHost doc read fileIndex)
  (hplan : planRenames read.accounts = some renames)
  (hfile : Rewrites doc file (writesAt fileIndex renames) (controlRename read renames))
include hread hplan hfile

/-- Loading the file that was written renames nothing and leaves it as it is. -/
theorem load_again (write : Except String Unit) : load upstreamHost write file =
    .ok ({ read.renamed renames with renamedAccounts := [] }, file) := by
  have hfresh : Freshens read.names (nameEdits renames) := plan_freshens hplan
  have hnames : ((read.renamed renames).accounts.map StoredAccount.name).Nodup := by
    have hnodup := hfresh.nodup
    rwa [← names_renamed] at hnodup
  rw [load_of_read (read_config_iff.mpr (reads_again hread hfresh hfile rfl)),
    migrateDuplicateNames, plan_of_nodup hnames]
  rfl

/-- All of the migration that does not look at the control reference. -/
theorem renames_soundly (hidle : renames = [] → file = doc) :
    RenamesSoundly upstreamHost doc read fileIndex (read.renamed renames) file := by
  have hfresh : Freshens read.names (nameEdits renames) := plan_freshens hplan
  have hname : ∀ {i : Nat} {a : StoredAccount}, (read.renamed renames).accounts[i]? = some a →
      (setAll read.names (nameEdits renames))[i]? = some a.name := fun {i a} ha => by
    rw [← names_renamed, BootConfig.names, List.getElem?_map, ha]
    rfl
  refine ⟨?_, ?_, ?_, length_edit_all, ?_, hfile.length_entries, ?_, ?_, hfile.keys, ?_,
    load_again hread hplan hfile⟩
  · rw [names_renamed]
    exact hfresh.nodup
  · intro i name hi hne
    rw [names_renamed] at hne
    exact hfresh.only_repeated hi hne
  · intro name hmem
    rw [names_renamed]
    exact hfresh.one_keeps hmem
  · intro i account haccount
    have hlt : i < read.accounts.length :=
      length_edit_all ▸ (List.getElem?_eq_some_iff.mp haccount).1
    obtain ⟨p, hp⟩ := hread.place_of hlt
    obtain ⟨entry, before, hentry, -, hbefore, hof⟩ := hread.entry_at hp
    by_cases hi : i ∈ (nameEdits renames).map Prod.fst
    · obtain ⟨⟨j, name⟩, hin, rfl⟩ := List.mem_map.mp hi
      have hput := entry_renamed hread hfresh hfile hp hin
      rw [hentry] at hput
      rw [account_renamed hfresh hin, hbefore] at haccount
      obtain rfl := Option.some.inj haccount
      exact ⟨before, p, entry, _, hbefore, rfl, hp, hentry, hof, hput,
        str_insert_name (is_object_of_account hof)⟩
    · have hkept := entry_kept hread hfile hp hi
      rw [hentry] at hkept
      rw [account_kept hi, hbefore] at haccount
      obtain rfl := Option.some.inj haccount
      exact ⟨before, p, entry, entry, hbefore, rfl, hp, hentry, hof, hkept, name_of_account hof⟩
  · intro p hsame
    rw [hfile.entries]
    refine get_edit_all_of_not_mem fun hmem => ?_
    obtain ⟨⟨q, name⟩, hq, rfl⟩ := List.mem_map.mp hmem
    obtain ⟨i, hi, hin⟩ := mem_writes_at.mp hq
    have hnames := hsame i hi
    rw [names_renamed, hfresh.get_of_mem hin] at hnames
    exact hfresh.value_not_mem hin (List.mem_of_getElem? hnames.symm)
  · intro p entry hentry
    rcases entry_written hread hfresh hfile hentry with ⟨-, hput⟩ | ⟨_, name, -, -, hobj, -, hput⟩
    · exact ⟨entry, hput, fun _ _ => rfl⟩
    · exact ⟨_, hput, fun key hkey => get_insert_name hobj hkey⟩
  · exact fun hnone => hidle (List.map_eq_nil_iff.mp hnone)

end

theorem place_of_rename (hread : ReadsAs upstreamHost doc read fileIndex)
    (hfresh : Freshens read.names (nameEdits renames)) {r : Nat × AccountRename} (hr : r ∈ renames) :
    ∃ p, fileIndex[r.1]? = some p := by
  refine hread.place_of ?_
  have hlt := hfresh.within r.1 (map_fst_name_edits ▸ List.mem_map.mpr ⟨r, hr, rfl⟩)
  rwa [BootConfig.names, List.length_map] at hlt

/-- Every rename has its place in the file. -/
theorem length_writes_at (hread : ReadsAs upstreamHost doc read fileIndex)
    (hfresh : Freshens read.names (nameEdits renames)) :
    (writesAt fileIndex renames).length = renames.length := by
  rw [writesAt, List.length_filterMap_eq_countP, List.countP_eq_length]
  intro r hr
  obtain ⟨p, hp⟩ := place_of_rename hread hfresh hr
  rw [hp]
  rfl

theorem writes_objects (hread : ReadsAs upstreamHost doc read fileIndex)
    (renames : List (Nat × AccountRename)) : ∀ w ∈ writesAt fileIndex renames,
      ((entriesIn doc)[w.1]?).any Value.isObject = true := by
  intro w hw
  obtain ⟨i, hi, -⟩ := mem_writes_at.mp hw
  obtain ⟨entry, account, hentry, -, -, hof⟩ := hread.entry_at hi
  rw [hentry]
  exact is_object_of_account hof

theorem entries_of_plan (hread : ReadsAs upstreamHost doc read fileIndex)
    (hfresh : Freshens read.names (nameEdits renames)) (hne : renames ≠ []) :
    entriesOf doc = some (entriesIn doc) := by
  obtain ⟨r, rest, rfl⟩ := List.exists_cons_of_ne_nil hne
  obtain ⟨p, hp⟩ := place_of_rename hread hfresh List.mem_cons_self
  obtain ⟨entry, -, hentry, -⟩ := hread.entry_at hp
  cases hlist : entriesOf doc with
  | some entries =>
    rw [entriesIn, hlist]
    rfl
  | none =>
    rw [entriesIn, hlist] at hentry
    cases hentry

/-- The write-back fails only where the write itself does. -/
theorem rename_write_iff (hread : ReadsAs upstreamHost doc read fileIndex)
    (h : migrateDuplicateNames write doc read fileIndex = some (config, file)) :
    config.renameWriteError = none ↔ config.renamedAccounts = [] ∨ write = .ok () := by
  obtain ⟨renames, hplan, hmigrate⟩ := Option.map_eq_some_iff.mp h
  have hfresh : Freshens read.names (nameEdits renames) := plan_freshens hplan
  cases renames with
  | nil =>
    obtain ⟨rfl, rfl⟩ := Prod.mk.inj hmigrate
    exact iff_of_true hread.unwritten (.inl hread.unnamed)
  | cons r rest =>
    have hlength := length_writes_at hread hfresh
    have hobjects := writes_objects hread (r :: rest)
    have hentries := entries_of_plan hread hfresh (List.cons_ne_nil r rest)
    rw [if_neg (by simp)] at hmigrate
    dsimp only at hmigrate
    rw [if_neg (not_not.mpr hlength)] at hmigrate
    cases write with
    | ok u =>
      obtain ⟨saved, hsaved⟩ := save_renames_written hentries hobjects
      rw [hsaved] at hmigrate
      obtain ⟨rfl, rfl⟩ := Prod.mk.inj hmigrate
      exact iff_of_true hread.unwritten (.inr rfl)
    | error e =>
      rw [save_renames_failed hentries hobjects] at hmigrate
      obtain ⟨rfl, rfl⟩ := Prod.mk.inj hmigrate
      refine iff_of_false (fun hnone => by cases hnone) ?_
      rintro (hnil | herror)
      · cases hnil
      · cases herror

/-- A load of fewer than `2 ^ 31` entries returns. -/
theorem load_returns (h : (entriesIn doc).length < 2147483648) :
    load upstreamHost write doc ≠ .error .hangs := by
  cases hread : readConfig upstreamHost doc with
  | error err =>
    have herr : err ≠ .hangs := by
      rintro rfl
      unfold readConfig at hread
      split at hread
      · cases hread
      · split at hread
        · cases hread
        · split at hread <;> cases hread
    rw [load, hread]
    exact fun heq => herr (Except.error.inj heq)
  | ok loaded =>
    have hreads := read_config_iff.mp hread
    have hlength : loaded.1.accounts.length ≤ (entriesIn doc).length := by
      rw [← hreads.length_places, hreads.places, List.length_map]
      exact (List.length_filter_le _ _).trans (le_of_eq List.length_zipIdx)
    have hsome := plan_returns (Nat.lt_of_le_of_lt hlength h)
    obtain ⟨renames, hplan⟩ := Option.isSome_iff_exists.mp hsome
    rw [load_of_read hread, migrateDuplicateNames, hplan]
    exact fun heq => by cases heq

/-- The names of every config that is read are made distinct, in memory and in the file, and the
control reference stands for the row it did exactly where it named a loaded row or its name would
not be minted. -/
theorem load_migrates_soundly_iff
    (hread : readConfig upstreamHost doc = .ok (read, fileIndex))
    (hload : load upstreamHost write doc = .ok (config, file))
    (hwrite : config.renameWriteError = none) :
    MigratesSoundly upstreamHost doc read fileIndex config file ↔ ControlStays read := by
  have hreads := read_config_iff.mp hread
  rw [load_of_read hread] at hload
  cases hmigrate : migrateDuplicateNames write doc read fileIndex with
  | none =>
    rw [hmigrate] at hload
    cases hload
  | some loaded =>
    rw [hmigrate] at hload
    obtain rfl := Except.ok.inj hload
    obtain ⟨renames, hplan, rfl, hfile, hidle⟩ := migrate_ok hreads hmigrate hwrite
    rw [← control_row_renamed hplan]
    exact ⟨fun h => h.control, fun h => ⟨renames_soundly hreads hplan hfile hidle, h⟩⟩

end Load

theorem ok_of_to_option {ε α β : Type} {x : Except ε α} {f : α → β} {y : β}
    (h : x.toOption.map f = some y) : ∃ a, x = .ok a ∧ f a = y := by
  cases x with
  | error err => cases h
  | ok a => exact ⟨a, rfl, Option.some.inj h⟩

/-- Two rows of one name, the second on a personal plan, and a reference to the first. -/
def pairedFile : Value :=
  .object [("controlAccount", .string "a@x"), ("accounts", .array [
    .object [("name", .string "a@x"), ("accessToken", .string "t1"), ("orgName", .string "Acme")],
    .object [("name", .string "a@x"), ("accessToken", .string "t2"),
      ("organizationType", .string "claude_max")]])]

/-- A reference to the first of two rows follows it to its new name. -/
theorem load_migrates_soundly_pair : ∃ read fileIndex config file,
    readConfig (fun _ => none) pairedFile = .ok (read, fileIndex) ∧
      load (fun _ => none) (.ok ()) pairedFile = .ok (config, file) ∧
      config.names = ["a@x/acme", "a@x"] ∧
      MigratesSoundly (fun _ => none) pairedFile read fileIndex config file := by
  have hread : (readConfig (fun _ => none) pairedFile).toOption.map (fun r =>
      (r.1.names, r.1.controlAccount.map ControlAccountRef.accountName)) =
        some (["a@x", "a@x"], some "a@x") := by decide +kernel
  have hload : (load (fun _ => none) (.ok ()) pairedFile).toOption.map (fun r =>
      (r.1.names, r.1.renameWriteError)) = some (["a@x/acme", "a@x"], none) := by decide +kernel
  obtain ⟨⟨read, fileIndex⟩, hread, hbefore⟩ := ok_of_to_option hread
  obtain ⟨⟨config, file⟩, hload, hafter⟩ := ok_of_to_option hload
  obtain ⟨hnames, hcontrol⟩ := Prod.mk.inj hbefore
  obtain ⟨hnames', hwrite⟩ := Prod.mk.inj hafter
  refine ⟨read, fileIndex, config, file, hread, hload, hnames', ?_⟩
  refine (load_migrates_soundly_iff hread hload hwrite).mpr fun control hsome => .inl ?_
  rw [hsome] at hcontrol
  rw [hnames, Option.some.inj hcontrol]
  exact List.mem_cons_self

/-- A reference to a row that is set aside, whose name is minted for a loaded one. -/
def quarantinedFile : Value :=
  .object [("controlAccount", .string "a@x/acme"), ("accounts", .array [
    .object [("name", .string "a@x/acme")],
    .object [("name", .string "a@x"), ("accessToken", .string "t1")],
    .object [("name", .string "a@x"), ("accessToken", .string "t2"), ("orgName", .string "Acme")]])]

/-- A reference to no loaded row comes to stand for one. -/
theorem minted_control_name : ¬ ∀ upstreamHost write doc read fileIndex config file,
    readConfig upstreamHost doc = .ok (read, fileIndex) →
    load upstreamHost write doc = .ok (config, file) → config.renameWriteError = none →
    MigratesSoundly upstreamHost doc read fileIndex config file := by
  intro hall
  have hread : (readConfig (fun _ => none) quarantinedFile).toOption.map (fun r =>
      r.1.controlRow) = some none := by decide +kernel
  have hload : (load (fun _ => none) (.ok ()) quarantinedFile).toOption.map (fun r =>
      (r.1.controlRow, r.1.renameWriteError)) = some (some 1, none) := by decide +kernel
  obtain ⟨⟨read, fileIndex⟩, hread, hbefore⟩ := ok_of_to_option hread
  obtain ⟨⟨config, file⟩, hload, hafter⟩ := ok_of_to_option hload
  obtain ⟨hrow, hwrite⟩ := Prod.mk.inj hafter
  have hsame := (hall _ _ _ _ _ _ _ hread hload hwrite).control
  have hbefore : read.controlRow = none := hbefore
  rw [hrow, hbefore] at hsame
  cases hsame

end TeamClaude
