import TeamClaude.Config.LoadedEntry
import TeamClaude.Config.RenamePlan

/-!
# The file a load writes

The new names go to the entries of their accounts, at their places in the file's own array, and what
was written is read as the renamed config.
-/

namespace TeamClaude

open Lib Lib.Json

/-! ## What a load writes -/

/-- The file with names written to its entries and the reference set, if it is. -/
structure Rewrites (doc file : Value) (writes : List (Nat × String)) (control : Option String) :
    Prop where
  isObject : file.isObject = true
  isArray : (accountsField file).isSome = true
  entries : entriesIn file = editAll insertName (entriesIn doc) writes
  control : file.get "controlAccount" = (control.map .string).or (doc.get "controlAccount")
  keys : ∀ key, key ≠ "accounts" → key ≠ "controlAccount" → file.get key = doc.get key

section Write

variable {upstreamHost : String → Option String} {write : Except String Unit} {doc file : Value}
  {config config' : BootConfig} {fileIndex : List Nat} {renames : List (Nat × AccountRename)}

theorem rename_entries_ok {entries entries' : List Value} {writes : List (Nat × String)}
    (h : writes.foldlM renameEntry entries = .ok entries') :
    entries' = editAll insertName entries writes := by
  induction writes generalizing entries with
  | nil =>
    cases h
    rfl
  | cons r writes ih =>
    rw [List.foldlM_cons, renameEntry] at h
    split at h
    · exact ih h
    · cases h

theorem rename_entries_run {entries : List Value} {writes : List (Nat × String)}
    (h : ∀ w ∈ writes, (entries[w.1]?).any Value.isObject = true) :
    writes.foldlM renameEntry entries = .ok (editAll insertName entries writes) := by
  induction writes generalizing entries with
  | nil => rfl
  | cons r writes ih =>
    obtain ⟨hfirst, hrest⟩ := List.forall_mem_cons.mp h
    rw [List.foldlM_cons, renameEntry, if_pos hfirst]
    refine ih fun w hw => ?_
    rw [List.getElem?_modify]
    have hobject := hrest w hw
    cases hentry : entries[w.1]? with
    | none =>
      rw [hentry] at hobject
      cases hobject
    | some entry =>
      rw [hentry] at hobject
      split
      · exact is_object_insert_name.trans hobject
      · exact hobject

theorem save_renames_written {entries : List Value} {writes : List (Nat × String)}
    {control : Option String} (hentries : entriesOf doc = some entries)
    (h : ∀ w ∈ writes, (entries[w.1]?).any Value.isObject = true) :
    ∃ file, saveRenames (.ok ()) doc writes control = .ok file := by
  unfold saveRenames
  rw [hentries]
  dsimp only
  rw [rename_entries_run h]
  exact ⟨_, rfl⟩

theorem save_renames_failed {entries : List Value} {writes : List (Nat × String)}
    {control : Option String} {err : String} (hentries : entriesOf doc = some entries)
    (h : ∀ w ∈ writes, (entries[w.1]?).any Value.isObject = true) :
    saveRenames (.error err) doc writes control = .error err := by
  unfold saveRenames
  rw [hentries]
  dsimp only
  rw [rename_entries_run h]
  rfl

/-- The entries and the reference put into a document. -/
theorem rewrites_saved {writes : List (Nat × String)} {control : Option String}
    (hdoc : doc.isObject = true) :
    Rewrites doc
      (match control with
        | some name => (doc.insert "accounts" (.array (editAll insertName
            (entriesIn doc) writes))).insert "controlAccount" (.string name)
        | none => doc.insert "accounts" (.array (editAll insertName
            (entriesIn doc) writes)))
      writes control := by
  set listed := doc.insert "accounts" (.array (editAll insertName (entriesIn doc) writes))
  have hlisted : listed.isObject = true := Value.is_object_insert.trans hdoc
  have hget : ∀ key, listed.get key = if key = "accounts" then
      some (.array (editAll insertName (entriesIn doc) writes)) else doc.get key :=
    fun _ => Value.get_insert hdoc
  cases control with
  | none =>
    refine ⟨hlisted, ?_, ?_, ?_, fun key hkey _ => ?_⟩
    · rw [accountsField, hget, if_pos rfl]
      rfl
    · rw [entriesIn, entriesOf, hget, if_pos rfl]
      rfl
    · rw [hget, if_neg (by decide)]
      rfl
    · rw [hget, if_neg hkey]
  | some name =>
    have hset : ∀ key, (listed.insert "controlAccount" (.string name)).get key =
        if key = "controlAccount" then some (.string name) else listed.get key :=
      fun _ => Value.get_insert hlisted
    refine ⟨Value.is_object_insert.trans hlisted, ?_, ?_, ?_, fun key hkey hcontrol => ?_⟩
    · rw [accountsField, hset, if_neg (by decide), hget, if_pos rfl]
      rfl
    · rw [entriesIn, entriesOf, hset, if_neg (by decide), hget, if_pos rfl]
      rfl
    · rw [hset, if_pos rfl]
      rfl
    · rw [hset, if_neg hcontrol, hget, if_neg hkey]

theorem save_renames_ok {writes : List (Nat × String)} {control : Option String}
    (h : saveRenames write doc writes control = .ok file) : Rewrites doc file writes control := by
  unfold saveRenames at h
  cases hentries : entriesOf doc with
  | none =>
    rw [hentries] at h
    cases h
  | some entries =>
    rw [hentries] at h
    dsimp only at h
    cases hfold : writes.foldlM renameEntry entries with
    | error e =>
      rw [hfold] at h
      cases h
    | ok entries' =>
      rw [hfold] at h
      cases hwrite : write with
      | error e =>
        rw [hwrite] at h
        cases h
      | ok u =>
        rw [hwrite] at h
        cases h
        obtain rfl := rename_entries_ok hfold
        have hgetD : entries = entriesIn doc := by
          rw [entriesIn, hentries]
          rfl
        rw [hgetD]
        exact rewrites_saved (is_object_of_entries hentries)

end Write

/-! ## The places of the accounts -/

section Places

variable {upstreamHost : String → Option String} {doc file : Value} {config : BootConfig}
  {fileIndex : List Nat} {renames : List (Nat × AccountRename)} {control : Option String}
  {p i : Nat} {name : String} {entry : Value} {account : StoredAccount}

theorem ReadsAs.nodup_places (h : ReadsAs upstreamHost doc config fileIndex) : fileIndex.Nodup := by
  rw [h.places]
  exact (List.nodup_zipIdx_map_snd _).sublist (List.filter_sublist.map _)

theorem ReadsAs.length_places (h : ReadsAs upstreamHost doc config fileIndex) :
    fileIndex.length = config.accounts.length := by
  have hlength := congrArg List.length h.accounts
  rwa [List.length_map, List.length_map] at hlength

theorem ReadsAs.account_at (h : ReadsAs upstreamHost doc config fileIndex)
    (hp : fileIndex[i]? = some p) : loadedAt doc p = config.accounts[i]? := by
  have hget := congrArg (·[i]?) h.accounts
  simp only [List.getElem?_map, hp, Option.map_some] at hget
  cases haccount : config.accounts[i]? with
  | none =>
    rw [haccount] at hget
    cases hget
  | some account =>
    rw [haccount] at hget
    exact Option.some.inj hget

theorem ReadsAs.place_of (h : ReadsAs upstreamHost doc config fileIndex)
    (hi : i < config.accounts.length) : ∃ p, fileIndex[i]? = some p :=
  ⟨_, List.getElem?_eq_getElem (h.length_places ▸ hi)⟩

/-- The entry at the place of an account is usable, and the account is the entry's. -/
theorem ReadsAs.entry_at (h : ReadsAs upstreamHost doc config fileIndex)
    (hp : fileIndex[i]? = some p) : ∃ entry account, (entriesIn doc)[p]? = some entry ∧
      setAside upstreamHost doc entry = none ∧ config.accounts[i]? = some account ∧
      StoredAccount.ofEntry (stampLoaded entry) = some account := by
  have hmem := List.mem_of_getElem? hp
  rw [h.places] at hmem
  obtain ⟨e, he, rfl⟩ := List.mem_map.mp hmem
  obtain ⟨hin, husable⟩ := List.mem_filter.mp he
  have hentry := List.mem_zipIdx_iff_getElem?.mp hin
  have hlt : i < config.accounts.length :=
    h.length_places ▸ (List.getElem?_eq_some_iff.mp hp).1
  have haccount := h.account_at hp
  rw [loadedAt, hentry, List.getElem?_eq_getElem hlt, Option.bind_some] at haccount
  exact ⟨e.1, _, hentry, Option.isNone_iff_eq_none.mp husable, List.getElem?_eq_getElem hlt,
    haccount⟩

theorem mem_writes_at : (p, name) ∈ writesAt fileIndex renames ↔
    ∃ i, fileIndex[i]? = some p ∧ (i, name) ∈ nameEdits renames := by
  rw [writesAt, List.mem_filterMap]
  constructor
  · rintro ⟨r, hr, hp⟩
    obtain ⟨q, hq, heq⟩ := Option.map_eq_some_iff.mp hp
    obtain ⟨rfl, rfl⟩ := Prod.mk.inj heq
    exact ⟨r.1, hq, List.mem_map.mpr ⟨r, hr, rfl⟩⟩
  · rintro ⟨i, hp, hi⟩
    obtain ⟨r, hr, heq⟩ := List.mem_map.mp hi
    obtain ⟨rfl, rfl⟩ := Prod.mk.inj heq
    exact ⟨r, hr, by rw [hp, Option.map_some]⟩

theorem nodup_writes_at (hplaces : fileIndex.Nodup)
    (hrenames : ((nameEdits renames).map Prod.fst).Nodup) :
    ((writesAt fileIndex renames).map Prod.fst).Nodup := by
  have hmap : (writesAt fileIndex renames).map Prod.fst =
      ((nameEdits renames).map Prod.fst).filterMap fun i => fileIndex[i]? := by
    rw [writesAt, List.map_filterMap, map_fst_name_edits, List.filterMap_map]
    refine List.filterMap_congr fun r _ => ?_
    show _ = fileIndex[r.1]?
    cases fileIndex[r.1]? <;> rfl
  rw [hmap]
  refine hrenames.filterMap fun i j p hi hj => ?_
  obtain ⟨hilt, hi⟩ := List.getElem?_eq_some_iff.mp hi
  obtain ⟨hjlt, hj⟩ := List.getElem?_eq_some_iff.mp hj
  exact hplaces.getElem_inj_iff.mp (hi.trans hj.symm)

/-- The place of an account is written to when the account is renamed. -/
theorem not_mem_writes_at (hplaces : fileIndex.Nodup) (hp : fileIndex[i]? = some p)
    (hi : i ∉ (nameEdits renames).map Prod.fst) :
    p ∉ (writesAt fileIndex renames).map Prod.fst := by
  intro hmem
  obtain ⟨⟨q, name⟩, hq, rfl⟩ := List.mem_map.mp hmem
  obtain ⟨j, hj, hin⟩ := mem_writes_at.mp hq
  obtain ⟨hilt, hp⟩ := List.getElem?_eq_some_iff.mp hp
  obtain ⟨hjlt, hj⟩ := List.getElem?_eq_some_iff.mp hj
  obtain rfl := hplaces.getElem_inj_iff.mp (hp.trans hj.symm)
  exact hi (List.mem_map.mpr ⟨_, hin, rfl⟩)

end Places

/-! ## Reading the file again -/

section Again

variable {upstreamHost : String → Option String} {doc file : Value} {config : BootConfig}
  {fileIndex : List Nat} {renames : List (Nat × AccountRename)} {control : Option String}
  {p i : Nat} {name : String} {entry : Value} {account : StoredAccount}

theorem names_renamed : (config.renamed renames).names =
    setAll config.names (nameEdits renames) :=
  map_edit_all fun _ _ => rfl

theorem account_renamed (hfresh : Freshens config.names (nameEdits renames))
    (hi : (i, name) ∈ nameEdits renames) : (config.renamed renames).accounts[i]? =
      (config.accounts[i]?).map fun account => { account with name := name } := by
  obtain ⟨r, hr, heq⟩ := List.mem_map.mp hi
  obtain ⟨rfl, rfl⟩ := Prod.mk.inj heq
  have hplaces : (renames.map Prod.fst).Nodup := map_fst_name_edits ▸ hfresh.places
  exact get_edit_all_of_mem hplaces hr

theorem account_kept (hi : i ∉ (nameEdits renames).map Prod.fst) :
    (config.renamed renames).accounts[i]? = config.accounts[i]? := by
  rw [map_fst_name_edits] at hi
  exact get_edit_all_of_not_mem hi

theorem Rewrites.length_entries {writes : List (Nat × String)}
    (h : Rewrites doc file writes control) : (entriesIn file).length = (entriesIn doc).length := by
  rw [h.entries, length_edit_all]

/-- The places of the entries kept depend on the verdicts alone. -/
theorem kept_places_congr (h : (entriesIn file).map (setAside upstreamHost file) =
    (entriesIn doc).map (setAside upstreamHost doc)) :
    (keptEntries upstreamHost file).map Prod.snd = (keptEntries upstreamHost doc).map Prod.snd := by
  have hplaces : ∀ doc, (keptEntries upstreamHost doc).map Prod.snd =
      (((entriesIn doc).map (setAside upstreamHost doc)).zipIdx.filter fun e =>
        e.1.isNone).map Prod.snd := fun doc => by
    rw [keptEntries, List.zipIdx_map, List.filter_map, List.map_map]
    rfl
  rw [hplaces, hplaces, h]

theorem quarantined_names_congr (h : (entriesIn file).map (setAside upstreamHost file) =
    (entriesIn doc).map (setAside upstreamHost doc)) :
    quarantinedNames upstreamHost file = quarantinedNames upstreamHost doc := by
  have hnames : ∀ doc, quarantinedNames upstreamHost doc =
      ((entriesIn doc).map (setAside upstreamHost doc)).filterMap (Option.map Prod.fst) :=
    fun doc => by
      rw [quarantinedNames, List.filterMap_map]
      rfl
  rw [hnames, hnames, h]

section

variable (hread : ReadsAs upstreamHost doc config fileIndex)
  (hfresh : Freshens config.names (nameEdits renames))
  (hfile : Rewrites doc file (writesAt fileIndex renames) control)
include hread hfresh hfile

theorem entry_renamed (hp : fileIndex[i]? = some p) (hi : (i, name) ∈ nameEdits renames) :
    (entriesIn file)[p]? = ((entriesIn doc)[p]?).map (insertName name) := by
  rw [hfile.entries]
  exact get_edit_all_of_mem (nodup_writes_at hread.nodup_places hfresh.places)
    (mem_writes_at.mpr ⟨i, hp, hi⟩)

omit hfresh in
theorem entry_kept (hp : fileIndex[i]? = some p) (hi : i ∉ (nameEdits renames).map Prod.fst) :
    (entriesIn file)[p]? = (entriesIn doc)[p]? := by
  rw [hfile.entries]
  exact get_edit_all_of_not_mem (not_mem_writes_at hread.nodup_places hp hi)

/-- An entry of the file is untouched, or it is a usable one under its account's new name. -/
theorem entry_written (hentry : (entriesIn doc)[p]? = some entry) :
    (p ∉ (writesAt fileIndex renames).map Prod.fst ∧ (entriesIn file)[p]? = some entry) ∨
      ∃ i name, fileIndex[i]? = some p ∧ (i, name) ∈ nameEdits renames ∧
        entry.isObject = true ∧ setAside upstreamHost doc entry = none ∧
        (entriesIn file)[p]? = some (insertName name entry) := by
  by_cases hp : p ∈ (writesAt fileIndex renames).map Prod.fst
  · obtain ⟨⟨q, name⟩, hq, rfl⟩ := List.mem_map.mp hp
    obtain ⟨i, hi, hin⟩ := mem_writes_at.mp hq
    obtain ⟨entry', account, hentry', husable, -, haccount⟩ := hread.entry_at hi
    rw [hentry] at hentry'
    obtain rfl := Option.some.inj hentry'
    refine .inr ⟨i, name, hi, hin, is_object_of_account haccount, husable, ?_⟩
    rw [entry_renamed hread hfresh hfile hi hin, hentry]
    rfl
  · refine .inl ⟨hp, ?_⟩
    rw [hfile.entries]
    exact (get_edit_all_of_not_mem hp).trans hentry

theorem set_aside_again : (entriesIn file).map (setAside upstreamHost file) =
    (entriesIn doc).map (setAside upstreamHost doc) := by
  rw [set_aside_congr (hfile.keys "upstream" (by decide) (by decide))
    (hfile.keys "codexUpstream" (by decide) (by decide))]
  refine List.ext_getElem? fun p => ?_
  rw [List.getElem?_map, List.getElem?_map]
  cases hentry : (entriesIn doc)[p]? with
  | none =>
    have hnone : (entriesIn file)[p]? = none := by
      rwa [List.getElem?_eq_none_iff, hfile.length_entries, ← List.getElem?_eq_none_iff]
    rw [hnone]
  | some entry =>
    rcases entry_written hread hfresh hfile hentry with
      ⟨-, hsame⟩ | ⟨_, name, -, -, hobj, husable, hput⟩
    · rw [hsame]
    · rw [hput, Option.map_some, Option.map_some, set_aside_renamed hobj husable, husable]

/-- An account is read back under the name it was given. -/
theorem account_again (hp : fileIndex[i]? = some p) :
    loadedAt file p = (config.renamed renames).accounts[i]? := by
  obtain ⟨entry, account, hentry, -, haccount, hof⟩ := hread.entry_at hp
  rw [loadedAt]
  by_cases hi : i ∈ (nameEdits renames).map Prod.fst
  · obtain ⟨⟨j, name⟩, hin, rfl⟩ := List.mem_map.mp hi
    rw [entry_renamed hread hfresh hfile hp hin, hentry, account_renamed hfresh hin, haccount]
    exact of_entry_renamed hof
  · rw [entry_kept hread hfile hp hi, hentry, account_kept hi, haccount]
    exact hof

theorem versions_again : ∀ e ∈ entriesIn file, versionRefusal e = none := by
  intro e he
  obtain ⟨p, hp⟩ := List.mem_iff_getElem?.mp he
  have hlt : p < (entriesIn doc).length :=
    hfile.length_entries ▸ (List.getElem?_eq_some_iff.mp hp).1
  have hentry := List.getElem?_eq_getElem hlt
  have hversion := hread.versions _ (List.mem_of_getElem? hentry)
  rcases entry_written hread hfresh hfile hentry with ⟨-, hsame⟩ | ⟨_, name, -, -, hobj, -, hput⟩
  · obtain rfl := Option.some.inj (hp.symm.trans hsame)
    exact hversion
  · obtain rfl := Option.some.inj (hp.symm.trans hput)
    exact version_refusal_renamed hobj hversion

theorem accounts_again :
    fileIndex.map (loadedAt file) = (config.renamed renames).accounts.map some := by
  refine List.ext_getElem? fun i => ?_
  have hlength : (config.renamed renames).accounts.length = fileIndex.length :=
    length_edit_all.trans hread.length_places.symm
  rw [List.getElem?_map, List.getElem?_map]
  cases hp : fileIndex[i]? with
  | none =>
    have hnone : (config.renamed renames).accounts[i]? = none := by
      rwa [List.getElem?_eq_none_iff, hlength, ← List.getElem?_eq_none_iff]
    rw [hnone]
    rfl
  | some p =>
    have hlt : i < (config.renamed renames).accounts.length :=
      hlength ▸ (List.getElem?_eq_some_iff.mp hp).1
    rw [Option.map_some, account_again hread hfresh hfile hp, List.getElem?_eq_getElem hlt]
    rfl

omit hfresh in
theorem control_again : controlField file =
    some ((control.map ControlAccountRef.name).or config.controlAccount) := by
  have hget := hfile.control
  cases control with
  | none =>
    rw [control_field_congr hget]
    exact hread.control
  | some name =>
    rw [controlField, hget]
    rfl

/-- What was written is read as the renamed config, its accounts from the same places. -/
theorem reads_again (hcontrol : control = controlRename config renames) :
    ReadsAs upstreamHost file { config.renamed renames with renamedAccounts := [] } fileIndex := by
  have haside := set_aside_again hread hfresh hfile
  subst hcontrol
  exact
    { isObject := hfile.isObject
      versions := versions_again hread hfresh hfile
      places := hread.places.trans (kept_places_congr haside).symm
      usable := hread.usable.imp_left fun hnil => List.eq_nil_of_length_eq_zero
        (hfile.length_entries.trans (List.length_eq_zero_iff.mpr hnil))
      upstream := (string_or_congr (hfile.keys _ (by decide) (by decide))).trans hread.upstream
      codexUpstream :=
        (string_or_congr (hfile.keys _ (by decide) (by decide))).trans hread.codexUpstream
      isArray := hfile.isArray
      accounts := accounts_again hread hfresh hfile
      control := control_again hread hfile
      quarantined := hread.quarantined.trans (quarantined_names_congr haside).symm
      unnamed := rfl
      unwritten := hread.unwritten }

end

end Again

end TeamClaude
