import TeamClaude.Config.Load

/-!
# What a load reads

A document is read as a config when its entries are, each from its own place. What is read of an
entry depends on its name only in the name itself.
-/

namespace TeamClaude

open Lib Lib.Json

/-! ## What a load reads -/

/-- The account of the entry at a place of the file's array. -/
def loadedAt (doc : Value) (p : Nat) : Option StoredAccount :=
  ((entriesIn doc)[p]?).bind fun entry => StoredAccount.ofEntry (stampLoaded entry)

/-- A document that is read as a config, its accounts from these places. -/
structure ReadsAs (upstreamHost : String → Option String) (doc : Value) (config : BootConfig)
    (fileIndex : List Nat) : Prop where
  isObject : doc.isObject = true
  versions : ∀ e ∈ entriesIn doc, versionRefusal e = none
  places : fileIndex = (keptEntries upstreamHost doc).map Prod.snd
  usable : entriesIn doc = [] ∨ fileIndex ≠ []
  upstream : stringOr doc "upstream" defaultUpstream = some config.upstream
  codexUpstream : stringOr doc "codexUpstream" defaultCodexUpstream = some config.codexUpstream
  isArray : (accountsField doc).isSome = true
  accounts : fileIndex.map (loadedAt doc) = config.accounts.map some
  control : controlField doc = some config.controlAccount
  quarantined : config.quarantinedAccounts = quarantinedNames upstreamHost doc
  unnamed : config.renamedAccounts = []
  unwritten : config.renameWriteError = none

section Read

variable {upstreamHost : String → Option String} {doc : Value} {config : BootConfig}
  {fileIndex : List Nat} {entries : List Value} {key : String}

theorem map_m_some_iff {α β : Type} {f : α → Option β} {l : List α} {r : List β} :
    l.mapM f = some r ↔ l.map f = r.map some := by
  induction l generalizing r with
  | nil => cases r <;> simp
  | cons x l ih =>
    rw [List.mapM_cons, List.map_cons]
    simp only [Option.bind_eq_bind, Option.bind_eq_some_iff, Option.pure_def, Option.some.injEq]
    constructor
    · rintro ⟨y, hy, rest, hrest, rfl⟩
      rw [List.map_cons, hy, ih.mp hrest]
    · intro h
      cases r with
      | nil => cases h
      | cons y r =>
        rw [List.map_cons, List.cons.injEq] at h
        exact ⟨y, h.1, r, ih.mpr h.2, rfl⟩

theorem of_document_iff : BootConfig.ofDocument doc = some config ↔
    doc.isObject = true ∧ stringOr doc "upstream" defaultUpstream = some config.upstream ∧
      stringOr doc "codexUpstream" defaultCodexUpstream = some config.codexUpstream ∧
      (∃ entries, accountsField doc = some entries ∧
        entries.map StoredAccount.ofEntry = config.accounts.map some) ∧
      controlField doc = some config.controlAccount ∧ config.quarantinedAccounts = [] ∧
      config.renamedAccounts = [] ∧ config.renameWriteError = none := by
  obtain ⟨upstream, codexUpstream, accounts, control, quarantined, renamed, err⟩ := config
  have hguard : ∀ u, guard (doc.isObject = true) = some u ↔ doc.isObject = true := by
    intro u
    by_cases hobj : doc.isObject = true <;> simp [guard, hobj]
  unfold BootConfig.ofDocument
  simp only [Option.bind_eq_bind, Option.bind_eq_some_iff, Option.pure_def, Option.some.injEq,
    hguard, exists_const, BootConfig.mk.injEq, map_m_some_iff]
  constructor
  · rintro ⟨hobj, _, hu, _, hc, es, hes, _, has, _, hcontrol, rfl, rfl, rfl, rfl, rfl, rfl, rfl⟩
    exact ⟨hobj, hu, hc, ⟨es, hes, has⟩, hcontrol, rfl, rfl, rfl⟩
  · rintro ⟨hobj, hu, hc, ⟨es, hes, has⟩, hcontrol, rfl, rfl, rfl⟩
    exact ⟨hobj, _, hu, _, hc, es, hes, _, has, _, hcontrol, rfl, rfl, rfl, rfl, rfl, rfl, rfl⟩

theorem entries_of_some (h : entriesOf doc = some entries) :
    doc.get "accounts" = some (.array entries) := by
  unfold entriesOf at h
  obtain ⟨v, hv, harray⟩ := Option.bind_eq_some_iff.mp h
  cases v with
  | array elems =>
    obtain rfl := Option.some.inj harray
    exact hv
  | _ => cases harray

theorem is_object_of_entries (h : entriesOf doc = some entries) : doc.isObject = true := by
  have hget := entries_of_some h
  cases doc with
  | object fields => rfl
  | _ => cases hget

theorem get_with_entries (hkey : key ≠ "accounts") : (withEntries doc entries).get key =
    doc.get key := by
  unfold withEntries
  split
  · rename_i h
    rw [Value.get_insert (is_object_of_entries h), if_neg hkey]
  · rfl

theorem is_object_with_entries : (withEntries doc entries).isObject = doc.isObject := by
  unfold withEntries
  split
  · exact Value.is_object_insert
  · rfl

/-- The entries put into a document are the ones it is read with; without an array of entries there
are none to put. -/
theorem accounts_with_entries {es : List Value}
    (hnone : entriesOf doc = none → entries = []) :
    accountsField (withEntries doc entries) = some es ↔
      (accountsField doc).isSome = true ∧ es = entries := by
  unfold withEntries
  cases hentries : entriesOf doc with
  | some old =>
    have hold : accountsField doc = some old := by
      rw [accountsField, entries_of_some hentries]
      rfl
    have hnew : accountsField (doc.insert "accounts" (.array entries)) = some entries := by
      rw [accountsField, Value.get_insert (is_object_of_entries hentries), if_pos rfl]
      rfl
    dsimp only
    rw [hold, hnew, Option.some.injEq]
    exact ⟨fun h => ⟨rfl, h.symm⟩, fun h => h.2.symm⟩
  | none =>
    rw [hnone hentries]
    dsimp only
    unfold accountsField
    unfold entriesOf at hentries
    cases hget : doc.get "accounts" with
    | none => simp [eq_comm]
    | some v =>
      rw [hget] at hentries
      have harray : v.asArray = none := hentries
      simp [harray]

theorem string_or_congr {v w : Value} {default : String} (h : v.get key = w.get key) :
    stringOr v key default = stringOr w key default := by
  unfold stringOr
  rw [h]

theorem control_field_congr {v w : Value} (h : v.get "controlAccount" = w.get "controlAccount") :
    controlField v = controlField w := by
  unfold controlField
  rw [h]

theorem kept_of_none (h : entriesOf doc = none) :
    (keptEntries upstreamHost doc).map (fun e => stampLoaded e.1) = [] := by
  rw [keptEntries, entriesIn, h]
  rfl

theorem accounts_kept : ((keptEntries upstreamHost doc).map Prod.snd).map (loadedAt doc) =
    ((keptEntries upstreamHost doc).map fun e => stampLoaded e.1).map StoredAccount.ofEntry := by
  rw [List.map_map, List.map_map]
  refine List.map_congr_left fun e he => ?_
  have hget := List.mem_zipIdx_iff_getElem?.mp (List.mem_of_mem_filter he)
  show ((entriesIn doc)[e.2]?).bind _ = _
  rw [hget]
  rfl

theorem kept_document_iff : BootConfig.ofDocument (withEntries doc
    ((keptEntries upstreamHost doc).map fun e => stampLoaded e.1)) = some config ↔
      doc.isObject = true ∧ stringOr doc "upstream" defaultUpstream = some config.upstream ∧
        stringOr doc "codexUpstream" defaultCodexUpstream = some config.codexUpstream ∧
        ((accountsField doc).isSome = true ∧
          ((keptEntries upstreamHost doc).map Prod.snd).map (loadedAt doc) =
            config.accounts.map some) ∧
        controlField doc = some config.controlAccount ∧ config.quarantinedAccounts = [] ∧
        config.renamedAccounts = [] ∧ config.renameWriteError = none := by
  rw [of_document_iff, is_object_with_entries, string_or_congr (get_with_entries (by decide)),
    string_or_congr (get_with_entries (by decide)),
    control_field_congr (get_with_entries (by decide)), accounts_kept]
  simp only [accounts_with_entries kept_of_none, and_assoc, exists_eq_left, exists_and_left]

theorem some_kept : entriesIn doc = [] ∨ (keptEntries upstreamHost doc).map Prod.snd ≠ [] ↔
    (!(entriesIn doc).isEmpty && (keptEntries upstreamHost doc).isEmpty) = false := by
  cases entriesIn doc with
  | nil => simp
  | cons e es => cases keptEntries upstreamHost doc <;> simp

theorem read_config_iff : readConfig upstreamHost doc = .ok (config, fileIndex) ↔
    ReadsAs upstreamHost doc config fileIndex := by
  unfold readConfig
  constructor
  · intro h
    split at h
    · cases h
    · rename_i hversions
      split at h
      · cases h
      · rename_i husable
        split at h
        · cases h
        · rename_i c hc
          cases h
          obtain ⟨hobj, hup, hcodex, ⟨harray, haccs⟩, hcontrol, -, hnames, hwrite⟩ :=
            kept_document_iff.mp hc
          exact ⟨hobj, List.findSome?_eq_none_iff.mp hversions, rfl,
            some_kept.mpr (Bool.eq_false_iff.mpr husable), hup, hcodex, harray, haccs, hcontrol,
            rfl, hnames, hwrite⟩
  · intro h
    obtain rfl := h.places
    have hc : BootConfig.ofDocument (withEntries doc
        ((keptEntries upstreamHost doc).map fun e => stampLoaded e.1)) =
          some { config with quarantinedAccounts := [] } :=
      kept_document_iff.mpr ⟨h.isObject, h.upstream, h.codexUpstream, ⟨h.isArray, h.accounts⟩,
        h.control, rfl, h.unnamed, h.unwritten⟩
    rw [List.findSome?_eq_none_iff.mpr h.versions]
    dsimp only
    rw [if_neg (Bool.eq_false_iff.mp (some_kept.mp h.usable)), hc]
    dsimp only
    rw [← h.quarantined]

end Read

/-! ## A renamed entry -/

section Renamed

variable {upstreamHost : String → Option String} {doc entry : Value} {name : String}
  {account : StoredAccount} {key : String}

theorem get_insert_name (hentry : entry.isObject = true) (hkey : key ≠ "name") :
    (insertName name entry).get key = entry.get key := by
  rw [insertName, Value.get_insert hentry, if_neg hkey]

theorem str_insert_name (hentry : entry.isObject = true) :
    (insertName name entry).str "name" = some name := by
  rw [insertName, Value.str, Value.get_insert hentry, if_pos rfl]
  rfl

theorem is_object_stamp_loaded : (stampLoaded entry).isObject = entry.isObject := by
  unfold stampLoaded stampCredentialVersion
  split
  · split
    · exact Value.is_object_insert
    · rfl
  · rfl

theorem is_object_insert_name : (insertName name entry).isObject = entry.isObject :=
  Value.is_object_insert

/-- Stamping looks at the version and the provider only, so a renamed entry is stamped alike. -/
theorem stamp_renamed (name : String) (hentry : entry.isObject = true) :
    (stampLoaded entry = entry ∧ stampLoaded (insertName name entry) = insertName name entry) ∨
      ∃ version, stampLoaded entry = entry.insert "credentialVersion" version ∧
        stampLoaded (insertName name entry) =
          (insertName name entry).insert "credentialVersion" version := by
  have hprovider : providerOfEntry (insertName name entry) = providerOfEntry entry :=
    provider_of_entry_congr (get_insert_name hentry (by decide))
  have hversion : (insertName name entry).get "credentialVersion" =
      entry.get "credentialVersion" :=
    get_insert_name hentry (by decide)
  have hneeds : ∀ provider, needsCredentialStamp (insertName name entry) provider =
      needsCredentialStamp entry provider := fun provider => by
    unfold needsCredentialStamp
    rw [hversion]
  unfold stampLoaded
  rw [hprovider]
  cases providerOfEntry entry with
  | none => exact .inl ⟨rfl, rfl⟩
  | some provider =>
    dsimp only
    unfold stampCredentialVersion
    rw [hneeds]
    split
    · exact .inr ⟨_, rfl, rfl⟩
    · exact .inl ⟨rfl, rfl⟩

theorem get_stamp_renamed (hentry : entry.isObject = true) (hkey : key ≠ "name") :
    (stampLoaded (insertName name entry)).get key = (stampLoaded entry).get key := by
  rcases stamp_renamed name hentry with ⟨hstamp, hstamp'⟩ | ⟨version, hstamp, hstamp'⟩
  · rw [hstamp, hstamp']
    exact get_insert_name hentry hkey
  · have hrenamed : (insertName name entry).isObject = true :=
      is_object_insert_name.trans hentry
    rw [hstamp, hstamp', Value.get_insert hrenamed, Value.get_insert hentry,
      get_insert_name hentry hkey]

theorem str_stamp_renamed (hentry : entry.isObject = true) :
    (stampLoaded (insertName name entry)).str "name" = some name := by
  rcases stamp_renamed name hentry with ⟨-, hstamp⟩ | ⟨version, -, hstamp⟩
  · rw [hstamp]
    exact str_insert_name hentry
  · have hrenamed : (insertName name entry).isObject = true :=
      is_object_insert_name.trans hentry
    rw [hstamp, Value.str, Value.get_insert hrenamed, if_neg (by decide)]
    exact str_insert_name hentry

/-- A field read by name is none of the others. -/
theorem others_insert_named (hentry : entry.isObject = true) (hkey : key ∈ namedKeys) (x : Value) :
    (othersOfEntry (entry.insert key x)).1 = (othersOfEntry entry).1 := by
  cases entry with
  | object fields =>
    show ((key, x) :: fields.filter fun f => f.1 ≠ key).filter (fun f => f.1 ∉ namedKeys) =
      fields.filter fun f => f.1 ∉ namedKeys
    rw [List.filter_cons_of_neg (by simpa using hkey), List.filter_filter]
    refine List.filter_congr fun f _ => ?_
    by_cases hf : f.1 ∈ namedKeys
    · simp [hf]
    · have hne : f.1 ≠ key := by
        rintro rfl
        exact hf hkey
      simp [hf, hne]
  | _ => cases hentry

theorem others_insert_other (hentry : entry.isObject = true) (hkey : key ∉ namedKeys) (x : Value) :
    (othersOfEntry (entry.insert key x)).1 =
      (key, x) :: (othersOfEntry entry).1.filter fun f => f.1 ≠ key := by
  cases entry with
  | object fields =>
    show ((key, x) :: fields.filter fun f => f.1 ≠ key).filter (fun f => f.1 ∉ namedKeys) =
      (key, x) :: (fields.filter fun f => f.1 ∉ namedKeys).filter fun f => f.1 ≠ key
    rw [List.filter_cons_of_pos (by simpa using hkey), List.filter_comm]
  | _ => cases hentry

theorem others_stamp_renamed (hentry : entry.isObject = true) :
    othersOfEntry (stampLoaded (insertName name entry)) = othersOfEntry (stampLoaded entry) := by
  have hrenamed : (insertName name entry).isObject = true := is_object_insert_name.trans hentry
  have hothers : (othersOfEntry (insertName name entry)).1 = (othersOfEntry entry).1 :=
    others_insert_named hentry (by decide) _
  apply Subtype.ext
  rcases stamp_renamed name hentry with ⟨hstamp, hstamp'⟩ | ⟨version, hstamp, hstamp'⟩
  · rw [hstamp, hstamp']
    exact hothers
  · rw [hstamp, hstamp', others_insert_other hrenamed (by decide),
      others_insert_other hentry (by decide), hothers]

theorem account_type_congr {v w : Value} (h : v.get "type" = w.get "type") :
    AccountType.ofEntry v = AccountType.ofEntry w := by
  unfold AccountType.ofEntry
  rw [h]

theorem optional_i64_congr {v w : Value} (h : v.get key = w.get key) :
    optionalI64 v key = optionalI64 w key := by
  unfold optionalI64
  rw [h]

theorem is_object_of_account (h : StoredAccount.ofEntry (stampLoaded entry) = some account) :
    entry.isObject = true :=
  is_object_stamp_loaded.symm.trans (is_object_of_entry h)

/-- The account of a renamed entry is the entry's under the new name. -/
theorem of_entry_renamed (h : StoredAccount.ofEntry (stampLoaded entry) = some account) :
    StoredAccount.ofEntry (stampLoaded (insertName name entry)) =
      some { account with name := name } := by
  have hentry := is_object_of_account h
  have hstates := of_entry_iff.mp h
  have hget : ∀ key, key ≠ "name" →
      (stampLoaded (insertName name entry)).get key = (stampLoaded entry).get key :=
    fun _ => get_stamp_renamed hentry
  have hstr : ∀ {key x}, key ≠ "name" → optionalStr (stampLoaded entry) key = some x →
      optionalStr (stampLoaded (insertName name entry)) key = some x :=
    fun hkey hx => (optional_str_congr (hget _ hkey)).trans hx
  have hi64 : ∀ {key x}, key ≠ "name" → optionalI64 (stampLoaded entry) key = some x →
      optionalI64 (stampLoaded (insertName name entry)) key = some x :=
    fun hkey hx => (optional_i64_congr (hget _ hkey)).trans hx
  obtain ⟨-, huuid, horg, horgName⟩ := disk_identity_iff.mp hstates.stored
  exact of_entry_iff.mpr
    { stored := disk_identity_iff.mpr ⟨str_stamp_renamed hentry, hstr (by decide) huuid,
        hstr (by decide) horg, hstr (by decide) horgName⟩
      provider := (provider_of_entry_congr (hget _ (by decide))).trans hstates.provider
      accountType := (account_type_congr (hget _ (by decide))).trans hstates.accountType
      accessToken := (Value.str_congr (hget _ (by decide))).trans hstates.accessToken
      usable := hstates.usable
      refreshToken := hstr (by decide) hstates.refreshToken
      expiresAt := hi64 (by decide) hstates.expiresAt
      priority := hi64 (by decide) hstates.priority
      organizationType := hstr (by decide) hstates.organizationType
      rateLimitTier := hstr (by decide) hstates.rateLimitTier
      seatTier := hstr (by decide) hstates.seatTier
      codexHome := hstr (by decide) hstates.codexHome
      others := (others_stamp_renamed hentry).trans hstates.others }

theorem name_of_account (h : StoredAccount.ofEntry (stampLoaded entry) = some account) :
    entry.str "name" = some account.name := by
  have hentry := is_object_of_account h
  have hname : (stampLoaded entry).str "name" = entry.str "name" := by
    rcases stamp_renamed "" hentry with ⟨hstamp, -⟩ | ⟨version, hstamp, -⟩
    · rw [hstamp]
    · rw [hstamp]
      refine Value.str_congr ?_
      rw [Value.get_insert hentry, if_neg (by decide)]
  rw [← hname]
  exact (disk_identity_iff.mp (of_entry_iff.mp h).stored).1

theorem version_refusal_none : versionRefusal entry = none ↔ versionUnderstood entry = true := by
  unfold versionRefusal versionUnderstood
  dsimp only
  cases entry.get "credentialVersion" with
  | none => simp
  | some v =>
    dsimp only
    cases v.asU64 with
    | none => simp
    | some v =>
      dsimp only
      split
      · rename_i hlt
        simpa using hlt
      · rename_i hle
        simpa using hle

theorem version_refusal_renamed (hentry : entry.isObject = true) (h : versionRefusal entry = none) :
    versionRefusal (insertName name entry) = none := by
  rw [version_refusal_none] at h ⊢
  unfold versionUnderstood at h ⊢
  rwa [provider_of_entry_congr (get_insert_name hentry (by decide)),
    get_insert_name hentry (by decide)]

/-- A usable entry is usable under any name. -/
theorem set_aside_renamed (hentry : entry.isObject = true)
    (h : setAside upstreamHost doc entry = none) :
    setAside upstreamHost doc (insertName name entry) = none := by
  have hget : ∀ key, key ≠ "name" →
      (stampLoaded (insertName name entry)).get key = (stampLoaded entry).get key :=
    fun _ => get_stamp_renamed hentry
  have hreason : ∀ own ownCodex, unusableReason upstreamHost own ownCodex
      (stampLoaded (insertName name entry)) =
        unusableReason upstreamHost own ownCodex (stampLoaded entry) := fun own ownCodex => by
    unfold unusableReason
    rw [account_type_congr (hget "type" (by decide)),
      Value.str_congr (hget "accessToken" (by decide)), hget "type" (by decide),
      hget "upstream" (by decide), provider_of_entry_congr (hget "provider" (by decide))]
  unfold setAside unusableAccount at h ⊢
  rw [Option.map_eq_none_iff] at h ⊢
  rwa [hreason]

theorem set_aside_congr {file : Value} (hupstream : file.get "upstream" = doc.get "upstream")
    (hcodex : file.get "codexUpstream" = doc.get "codexUpstream") :
    setAside upstreamHost file = setAside upstreamHost doc := by
  funext entry
  unfold setAside ownHost
  rw [Value.str_congr hupstream, Value.str_congr hcodex]

end Renamed

end TeamClaude
