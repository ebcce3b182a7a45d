import TeamClaude.Config.KeyedFile
import TeamClaude.Lib.JsonRead

/-!
# A saved login

An account write finds its entry through a tolerant match and then fills in the identity fields the
entry lacks, one by one. What that makes of the entry must be found by the account again.
-/

namespace TeamClaude

open Lib.Json Lib.Pairing

/-! ## The document -/

/-- `doc.get("accounts").and_then(Value::as_array)` -/
def entriesOf (doc : Value) : Option (List Value) :=
  (doc.get "accounts").bind Value.asArray

/-- `locate_account_entry` -/
def locateIn (doc : Value) (target : Account) : Resolved :=
  match entriesOf doc with
  | none => .none
  | some entries => locateAccountEntry entries target

/-- `merge_account`: an absent list is created, and one that is no array is left alone. -/
def mergeAccountIn (doc : Value) (account : StoredAccount) : Value × AccountWrite :=
  let put (entries : List Value) : Value × AccountWrite :=
    match mergeAccount entries account with
    | (_, .ambiguous) => (doc, .ambiguous)
    | (written, outcome) => (doc.insert "accounts" (.array written), outcome)
  match doc.get "accounts" with
  | none => put []
  | some (.array entries) => put entries
  | some _ => (doc, .unwritable)

def writtenIndex (doc : Value) (account : StoredAccount) : Nat :=
  match locateIn doc account.identity with
  | .one index => index
  | _ => ((entriesOf doc).getD []).length

/-- The entry just written is the account's, a repeated write changes nothing, and nothing else was
changed. -/
structure StaysSaved (doc : Value) (account : StoredAccount) : Prop where
  found : locateIn (mergeAccountIn doc account).1 account.identity =
    .one (writtenIndex doc account)
  again : (mergeAccountIn (mergeAccountIn doc account).1 account).2 = .updated
  same : Value.Same (mergeAccountIn (mergeAccountIn doc account).1 account).1
    (mergeAccountIn doc account).1
  entries : ∀ i, i ≠ writtenIndex doc account →
    ((entriesOf (mergeAccountIn doc account).1).getD [])[i]? = ((entriesOf doc).getD [])[i]?
  keys : ∀ key, key ≠ "accounts" → (mergeAccountIn doc account).1.get key = doc.get key

/-- The organisation a record is known by once it lies beside what the account can fill in, where it
is one of its own. -/
def keptOrg (found account : Account) : Option String :=
  (presentKey found.orgUuid).or
    (if (presentKey account.orgUuid).isSome then none else presentKey found.orgName)

/-- A record without an account id that is matched by its name, although it is known by another
organisation than the account, which has an id to fill in. -/
def NamesakeClash (found account : Account) : Prop :=
  uuidKey found = none ∧ (uuidKey account).isSome = true ∧
    ∃ theirs ours, keptOrg found account = some theirs ∧ orgKey account = some ours ∧ theirs ≠ ours

/-- The entry the account is written to does not clash with it, or a new row does not bring along a
pending sync. -/
structure Resaves (doc : Value) (account : StoredAccount) : Prop where
  entry : ∀ index entry found, locateIn doc account.identity = .one index →
    ((entriesOf doc).getD [])[index]? = some entry → probeOfEntry entry = .ok found →
    ¬ NamesakeClash found account.identity
  row : locateIn doc account.identity = .none → account.provider = .codex →
    (Value.object account.others.1).get codexSyncPendingKey = none

/-! ## What a filled-in record is matched by -/

/-- The record with the fields it lacks filled in from the account. -/
def Account.filledIn (found account : Account) : Account where
  name := found.name
  provider := account.provider
  accountUuid := if (presentKey found.accountUuid).isSome then found.accountUuid
    else account.accountUuid.or found.accountUuid
  orgUuid := if (presentKey found.orgUuid).isSome then found.orgUuid
    else account.orgUuid.or found.orgUuid
  orgName := if (presentKey found.orgName).isSome then found.orgName
    else account.orgName.or found.orgName

section FilledIn

variable {found account : Account}

theorem present_filled (x y : Option String) :
    presentKey (if (presentKey x).isSome then x else y.or x) = (presentKey x).or (presentKey y) := by
  cases hx : presentKey x with
  | some s => rw [Option.isSome_some, if_pos rfl, hx, Option.some_or]
  | none =>
    rw [Option.isSome_none, if_neg Bool.false_ne_true, Option.none_or]
    cases y with
    | none => exact hx
    | some t => rfl

theorem uuid_filled : uuidKey (found.filledIn account) = (uuidKey found).or (uuidKey account) :=
  present_filled _ _

theorem org_filled : orgKey (found.filledIn account) =
    ((presentKey found.orgUuid).or (presentKey account.orgUuid)).or
      ((presentKey found.orgName).or (presentKey account.orgName)) := by
  unfold orgKey Account.filledIn
  simp only [present_filled]

/-- What is known of a record's organisation once it is filled in: what it keeps of its own, or the
account's. -/
theorem org_filled_kept : orgKey (found.filledIn account) =
    (keptOrg found account).or (orgKey account) := by
  rw [org_filled]
  unfold keptOrg orgKey
  cases presentKey found.orgUuid with
  | some o => rfl
  | none =>
    cases presentKey account.orgUuid with
    | some o => rfl
    | none => rfl

theorem org_of_kept {o : String} (h : keptOrg found account = some o) : orgKey found = some o := by
  unfold keptOrg at h
  unfold orgKey
  cases hou : presentKey found.orgUuid with
  | some o' =>
    rw [hou] at h
    exact h
  | none =>
    rw [hou, Option.none_or] at h
    split at h
    · cases h
    · rw [Option.none_or, h]

/-- A record that an account matches strictly is matched strictly when it is filled in. -/
theorem strict_filled (h : sameIdentityStrict account found = true) :
    sameIdentityStrict account (found.filledIn account) = true := by
  simp only [sameIdentityStrict, Bool.and_eq_true, decide_eq_true_eq] at h ⊢
  obtain ⟨⟨hsame, huuid⟩, horg⟩ := h
  cases hu : uuidKey account with
  | none => simp [hu] at huuid
  | some u =>
    cases hv : uuidKey found with
    | none => simp [hu, hv] at huuid
    | some v =>
      obtain rfl : u = v := by simpa [hu, hv] using huuid
      have hfilled : uuidKey (found.filledIn account) = some u := by
        rw [uuid_filled, hv, Option.some_or]
      have horg' : orgKey (found.filledIn account) = orgKey account := by
        rw [org_filled_kept]
        cases hkept : keptOrg found account with
        | none => rw [Option.none_or]
        | some o =>
          rw [Option.some_or, horg, org_of_kept hkept]
      refine ⟨⟨same_identity_iff.mpr ⟨rfl, .inl ⟨u, hu, hfilled, fun ka kb hka hkb => ?_⟩⟩, ?_⟩,
        horg'.symm⟩
      · rw [horg', hka] at hkb
        exact Option.some.inj hkb
      · rw [hfilled]
        simp

/-- An account finds the record it filled in unless the two clash. -/
theorem same_filled (h : sameIdentity account found = true) :
    sameIdentity account (found.filledIn account) = true ↔ ¬ NamesakeClash found account := by
  obtain ⟨-, hmatch⟩ := same_identity_iff.mp h
  rw [same_identity_iff, uuid_filled, org_filled_kept]
  constructor
  · rintro ⟨-, hagain⟩ ⟨hnone, hsome, theirs, ours, hkept, horg, hne⟩
    rw [hnone, Option.none_or, hkept, Option.some_or] at hagain
    rcases hagain with ⟨-, -, -, hsame⟩ | ⟨hneither, -⟩
    · exact hne (hsame ours theirs horg rfl).symm
    · rcases hneither with hu | hu <;> rw [hu] at hsome <;> cases hsome
  · intro hclash
    refine ⟨rfl, ?_⟩
    rcases hmatch with ⟨u, hu, hv, hsame⟩ | ⟨hneither, hname⟩
    · refine .inl ⟨u, hu, by rw [hv, Option.some_or], fun ka kb hka hkb => ?_⟩
      cases hkept : keptOrg found account with
      | none =>
        rw [hkept, Option.none_or, hka] at hkb
        exact Option.some.inj hkb
      | some o =>
        rw [hkept, Option.some_or] at hkb
        exact hsame ka kb hka (hkb ▸ org_of_kept hkept)
    · cases hu : uuidKey account with
      | none => exact .inr ⟨.inl rfl, hname⟩
      | some u =>
        have hv : uuidKey found = none := by simpa [hu] using hneither
        refine .inl ⟨u, rfl, by rw [hv, Option.none_or], fun ka kb hka hkb => ?_⟩
        cases hkept : keptOrg found account with
        | none =>
          rw [hkept, Option.none_or, hka] at hkb
          exact Option.some.inj hkb
        | some o =>
          rw [hkept, Option.some_or] at hkb
          obtain rfl := Option.some.inj hkb
          by_contra hne
          exact hclash ⟨hv, by rw [hu]; rfl, o, ka, hkept, hka, Ne.symm hne⟩

end FilledIn

/-! ## What a write makes of its entry -/

section Entry

variable {entry : Value} {found : Account} {account : StoredAccount}

theorem probe_of_entry_congr {v w : Value} (h : AgreeOn identityKeys v w) :
    probeOfEntry w = probeOfEntry v := by
  unfold probeOfEntry DiskIdentity.ofEntry
  rw [h.isObject, Value.str_congr (h.get "name" (by simp [identityKeys])),
    provider_of_entry_congr (h.get "provider" (by simp [identityKeys])),
    optional_str_congr (h.get "accountUuid" (by simp [identityKeys])),
    optional_str_congr (h.get "orgUuid" (by simp [identityKeys])),
    optional_str_congr (h.get "orgName" (by simp [identityKeys]))]

theorem disk_identity_iff {stored : DiskIdentity} : DiskIdentity.ofEntry entry = some stored ↔
    entry.str "name" = some stored.name ∧
      optionalStr entry "accountUuid" = some stored.accountUuid ∧
      optionalStr entry "orgUuid" = some stored.orgUuid ∧
      optionalStr entry "orgName" = some stored.orgName := by
  unfold DiskIdentity.ofEntry
  obtain ⟨name, accountUuid, orgUuid, orgName⟩ := stored
  cases entry.str "name" <;> cases optionalStr entry "accountUuid" <;>
    cases optionalStr entry "orgUuid" <;> cases optionalStr entry "orgName" <;> simp

theorem probe_ok_iff : probeOfEntry entry = .ok found ↔
    entry.isObject = true ∧ ∃ stored provider, DiskIdentity.ofEntry entry = some stored ∧
      providerOfEntry entry = some provider ∧ found = probe provider stored := by
  unfold probeOfEntry
  cases entry.isObject with
  | false => simp
  | true =>
    cases DiskIdentity.ofEntry entry with
    | none => simp
    | some stored =>
      cases providerOfEntry entry with
      | none => simp
      | some provider => simp [eq_comm]

/-- A write states the account's provider and fills in what the entry lacks. -/
theorem updated_probe (h : probeOfEntry entry = .ok found) :
    probeOfEntry (updateEntry entry account) = .ok (found.filledIn account.identity) := by
  obtain ⟨hv, stored, provider, hstored, -, rfl⟩ := probe_ok_iff.mp h
  obtain ⟨hname, hU, hO, hN⟩ := disk_identity_iff.mp hstored
  have hext : (entry.extend account.credentials.fields).isObject = true := by simpa using hv
  have hid : AgreeOn ["name", "accountUuid", "orgUuid", "orgName"] entry
      (restateEntry (entry.extend account.credentials.fields) account) :=
    (agree_extend hv _ (by decide)).trans (agree_restate account hext (by decide) (by decide)
      (by decide) (by decide) (by decide))
  set restated := restateEntry (entry.extend account.credentials.fields) account with hrestated
  have hv0 : restated.isObject = true := hid.isObject.trans hv
  have hfill : AgreeOn ["name", "provider"] restated (backfillIdentity restated account) :=
    agree_backfill_identity account hv0 (by decide) (by decide) (by decide)
  have hv1 := hfill.isObject.trans hv0
  have hplan : AgreeOn identityKeys (backfillIdentity restated account)
      (updateEntry entry account) :=
    agree_overwrite_plan hv1 (by decide) (by decide) (by decide)
  obtain ⟨hU', hO', hN'⟩ := optional_str_backfill_identity account hv0
    ((optional_str_congr (hid.get "accountUuid" (by simp))).trans hU)
    ((optional_str_congr (hid.get "orgUuid" (by simp))).trans hO)
    ((optional_str_congr (hid.get "orgName" (by simp))).trans hN)
  rw [probe_of_entry_congr hplan]
  refine probe_ok_iff.mpr ⟨hv1, ⟨stored.name, _, _, _⟩, account.provider,
    disk_identity_iff.mpr ⟨?_, hU', hO', hN'⟩, ?_, rfl⟩
  · rw [Value.str_congr (hfill.get "name" (by simp)), Value.str_congr (hid.get "name" (by simp))]
    exact hname
  · rw [provider_of_entry_congr (hfill.get "provider" (by simp))]
    exact provider_of_restated account hext

/-- A new row is the account as it is serialized, but for its priority and version. -/
theorem agree_new_entry (file : List Value) (account : StoredAccount) {keys : List String}
    (hp : "priority" ∉ keys) (hv : "credentialVersion" ∉ keys) :
    AgreeOn keys account.toEntry (newEntry file account) := by
  unfold newEntry
  cases account.priority with
  | none => exact (agree_insert rfl hp _).trans (agree_stamp rfl hv _)
  | some p => exact agree_stamp rfl hv _

theorem new_entry_probe (file : List Value) (account : StoredAccount) :
    probeOfEntry (newEntry file account) = .ok account.identity := by
  rw [probe_of_entry_congr (agree_new_entry file account (by decide) (by decide)), to_entry_probe]

/-! ## Writing again -/

/-- The entry says already what a write of the account would state. -/
structure EntryStates (entry : Value) (account : StoredAccount) : Prop where
  isObject : entry.isObject = true
  credentials : ∀ field ∈ account.credentials.fields, entry.get field.1 = some field.2
  version : needsCredentialStamp entry account.provider = false
  accountType : entry.get "type" = some (.string account.accountType.spelling)
  provider : entry.get "provider" = account.provider.spelling
  codex : account.provider = .codex → entry.get "codexHome" = account.codexHome.map .string ∧
    entry.get codexSyncPendingKey = none
  filled : ∀ field ∈ [("accountUuid", account.accountUuid), ("orgUuid", account.orgUuid),
    ("orgName", account.orgName)], presentIn entry field.1 = true ∨
      ∀ s, field.2 = some s → entry.get field.1 = some (.string s)
  plan : ∀ field ∈ [("organizationType", account.organizationType),
    ("rateLimitTier", account.rateLimitTier), ("seatTier", account.seatTier)],
      ∀ s, field.2 = some s → entry.get field.1 = some (.string s)

/-- Both are objects, and every field is the same in both. -/
structure Alike (v w : Value) : Prop where
  isObject : w.isObject = true
  get : ∀ key, w.get key = v.get key

theorem Alike.insert {v w : Value} (h : Alike v w) {key : String} {x : Value}
    (hx : v.get key = some x) : Alike v (w.insert key x) := by
  refine ⟨by simpa using h.isObject, fun name => ?_⟩
  rw [Value.get_insert h.isObject]
  split
  · rename_i hname
    rw [hname, hx]
  · exact h.get name

theorem Alike.remove {v w : Value} (h : Alike v w) {key : String} (hx : v.get key = none) :
    Alike v (w.remove key) := by
  refine ⟨by simpa using h.isObject, fun name => ?_⟩
  rw [Value.get_remove]
  split
  · rename_i hname
    rw [hname, hx]
  · exact h.get name

theorem Alike.extend {v w : Value} (h : Alike v w) {fields : List (String × Value)}
    (hx : ∀ field ∈ fields, v.get field.1 = some field.2) : Alike v (w.extend fields) := by
  induction fields generalizing w with
  | nil => exact h
  | cons field fields ih =>
    obtain ⟨hfirst, hrest⟩ := List.forall_mem_cons.mp hx
    exact ih (h.insert hfirst) hrest

theorem needs_stamp_congr {v w : Value} (h : Alike v w) (provider : Provider) :
    needsCredentialStamp w provider = needsCredentialStamp v provider := by
  unfold needsCredentialStamp
  rw [h.get]

theorem present_in_congr {v w : Value} (h : Alike v w) (key : String) :
    presentIn w key = presentIn v key := by
  unfold presentIn
  rw [h.get]

theorem Alike.backfill {v w : Value} (h : Alike v w) {key : String} {x : Option String}
    (hx : presentIn v key = true ∨ ∀ s, x = some s → v.get key = some (.string s)) :
    Alike v (backfillField w key x) := by
  unfold backfillField
  rw [present_in_congr h]
  split
  · exact h
  · rename_i hnot
    cases x with
    | none => exact h
    | some s => exact h.insert ((hx.resolve_left hnot) s rfl)

theorem Alike.overwrite {v w : Value} (h : Alike v w) {key : String} {x : Option String}
    (hx : ∀ s, x = some s → v.get key = some (.string s)) : Alike v (overwriteField w key x) := by
  cases x with
  | none => exact h
  | some s => exact h.insert (hx s rfl)

theorem Alike.spell_provider {v w : Value} (h : Alike v w) {provider : Provider}
    (hprovider : v.get "provider" = provider.spelling) : Alike v (spellProvider w provider) := by
  cases provider with
  | anthropic => exact h.remove hprovider
  | codex => exact h.insert hprovider

theorem Alike.restate_codex {v w : Value} (h : Alike v w)
    (hcodex : account.provider = .codex →
      v.get "codexHome" = account.codexHome.map .string ∧ v.get codexSyncPendingKey = none) :
    Alike v (restateCodex w account) := by
  unfold restateCodex
  split
  · exact h
  · rename_i folder hp hfolder
    obtain ⟨hhome, hpending⟩ := hcodex hp
    rw [hfolder] at hhome
    exact (h.insert hhome).remove hpending
  · rename_i hp hfolder
    obtain ⟨hhome, hpending⟩ := hcodex hp
    rw [hfolder] at hhome
    exact (h.remove hhome).remove hpending

/-- A write of what the entry says already leaves every field. -/
theorem EntryStates.update (h : EntryStates entry account) :
    Alike entry (updateEntry entry account) := by
  have hself : Alike entry entry := ⟨h.isObject, fun _ => rfl⟩
  have hext := hself.extend h.credentials
  have hstamp : Alike entry
      (stampCredentialVersion (entry.extend account.credentials.fields) account.provider) := by
    unfold stampCredentialVersion
    rw [needs_stamp_congr hext, h.version, if_neg Bool.false_ne_true]
    exact hext
  have hrestated : Alike entry (restateEntry (entry.extend account.credentials.fields) account) :=
    ((hstamp.insert h.accountType).spell_provider h.provider).restate_codex h.codex
  have hU := h.filled ("accountUuid", account.accountUuid) (by simp)
  have hO := h.filled ("orgUuid", account.orgUuid) (by simp)
  have hN := h.filled ("orgName", account.orgName) (by simp)
  have hT := h.plan ("organizationType", account.organizationType) (by simp)
  have hR := h.plan ("rateLimitTier", account.rateLimitTier) (by simp)
  have hS := h.plan ("seatTier", account.seatTier) (by simp)
  have hfilled := ((hrestated.backfill hU).backfill hO).backfill hN
  exact ((hfilled.overwrite hT).overwrite hR).overwrite hS

/-! A write leaves the entry current. -/

theorem get_extend_credentials (hv : entry.isObject = true) (c : Credentials) :
    ∀ field ∈ c.fields, (entry.extend c.fields).get field.1 = some field.2 := by
  obtain ⟨a, r, e⟩ := c
  cases r <;> cases e <;>
    simp [Credentials.fields, optionalField, Value.extend, Value.get_insert, hv]

theorem get_serialized_credentials (c : Credentials) :
    ∀ field ∈ c.fields, (Value.object c.fields).get field.1 = some field.2 := by
  obtain ⟨a, r, e⟩ := c
  cases r <;> cases e <;> simp [Credentials.fields, optionalField, Value.get]

theorem stamped_version (hv : entry.isObject = true) (provider : Provider) :
    needsCredentialStamp (stampCredentialVersion entry provider) provider = false := by
  unfold stampCredentialVersion
  split
  · unfold needsCredentialStamp
    rw [Value.get_insert hv, if_pos rfl]
    cases provider <;> rfl
  · rename_i hnot
    exact Bool.eq_false_iff.mpr hnot

theorem needs_stamp_of_get {v w : Value} (h : w.get "credentialVersion" = v.get "credentialVersion")
    (provider : Provider) : needsCredentialStamp w provider = needsCredentialStamp v provider := by
  unfold needsCredentialStamp
  rw [h]

theorem get_spelled {v : Value} (hv : v.isObject = true) (provider : Provider) :
    (spellProvider v provider).get "provider" = provider.spelling := by
  cases provider with
  | anthropic =>
    rw [spellProvider, Value.get_remove, if_pos rfl]
    rfl
  | codex =>
    rw [spellProvider, Value.get_insert hv, if_pos rfl]
    rfl

theorem get_restated_codex {v : Value} (hv : v.isObject = true)
    (hcodex : account.provider = .codex) :
    (restateCodex v account).get "codexHome" = account.codexHome.map .string ∧
      (restateCodex v account).get codexSyncPendingKey = none := by
  have hne : "codexHome" ≠ codexSyncPendingKey := by decide
  unfold restateCodex
  rw [hcodex]
  cases account.codexHome with
  | none =>
    dsimp only
    constructor
    · rw [Value.get_remove, if_neg hne, Value.get_remove, if_pos rfl]
      rfl
    · rw [Value.get_remove, if_pos rfl]
  | some folder =>
    dsimp only
    constructor
    · rw [Value.get_remove, if_neg hne, Value.get_insert hv, if_pos rfl]
      rfl
    · rw [Value.get_remove, if_pos rfl]

theorem backfilled {v : Value} (hv : v.isObject = true) (key : String) (x : Option String) :
    presentIn (backfillField v key x) key = true ∨
      ∀ s, x = some s → (backfillField v key x).get key = some (.string s) := by
  unfold backfillField
  split
  · rename_i hpresent
    exact .inl hpresent
  · cases x with
    | none => exact .inr fun s hs => nomatch hs
    | some t =>
      refine .inr fun s hs => ?_
      obtain rfl := Option.some.inj hs
      rw [Value.get_insert hv, if_pos rfl]

theorem overwritten {v : Value} (hv : v.isObject = true) (key : String) (x : Option String) :
    ∀ s, x = some s → (overwriteField v key x).get key = some (.string s) := by
  rintro s rfl
  exact (Value.get_insert hv).trans (if_pos rfl)

theorem fields_credential_key (c : Credentials) : ∀ field ∈ c.fields, field.1 ∈ credentialKeys := by
  obtain ⟨a, r, e⟩ := c
  cases r <;> cases e <;> simp [Credentials.fields, optionalField, credentialKeys]

@[simp] theorem is_object_stamp {v : Value} {provider : Provider} :
    (stampCredentialVersion v provider).isObject = v.isObject := by
  unfold stampCredentialVersion
  split <;> simp

@[simp] theorem is_object_spell {v : Value} {provider : Provider} :
    (spellProvider v provider).isObject = v.isObject := by
  cases provider <;> simp [spellProvider]

@[simp] theorem is_object_restate_codex {v : Value} :
    (restateCodex v account).isObject = v.isObject := by
  unfold restateCodex
  split <;> simp

@[simp] theorem is_object_overwrite {v : Value} {key : String} {x : Option String} :
    (overwriteField v key x).isObject = v.isObject := by
  cases x <;> simp [overwriteField]

/-- What is stated of an entry's kind, and of the login a Codex entry was imported from. -/
theorem restated_states {v : Value} (hv : v.isObject = true) (account : StoredAccount) :
    needsCredentialStamp (restateEntry v account) account.provider = false ∧
      (restateEntry v account).get "type" = some (.string account.accountType.spelling) ∧
      (restateEntry v account).get "provider" = account.provider.spelling ∧
      (account.provider = .codex →
        (restateEntry v account).get "codexHome" = account.codexHome.map .string ∧
          (restateEntry v account).get codexSyncPendingKey = none) := by
  set stamped := stampCredentialVersion v account.provider with hstamped
  have hv1 : stamped.isObject = true := by simpa [hstamped] using hv
  set typed := stamped.insert "type" (.string account.accountType.spelling) with htyped
  have hv2 : typed.isObject = true := by simpa [htyped] using hv1
  set spelled := spellProvider typed account.provider with hspelled
  have hv3 : spelled.isObject = true := by simpa [hspelled] using hv2
  have hcodex : AgreeOn ["credentialVersion", "type", "provider"] spelled (restateEntry v account) :=
    agree_restate_codex account hv3 (by decide) (by decide)
  have hspell : AgreeOn ["credentialVersion", "type"] typed spelled :=
    agree_spell_provider hv2 (by decide) account.provider
  have htype : AgreeOn ["credentialVersion"] stamped typed := agree_insert hv1 (by decide) _
  refine ⟨?_, ?_, ?_, get_restated_codex hv3⟩
  · have hget : (restateEntry v account).get "credentialVersion" =
        stamped.get "credentialVersion" := by
      rw [hcodex.get _ (by simp), hspell.get _ (by simp), htype.get _ (by simp)]
    rw [needs_stamp_of_get hget]
    exact stamped_version hv account.provider
  · rw [hcodex.get _ (by simp), hspell.get _ (by simp), htyped, Value.get_insert hv1, if_pos rfl]
  · rw [hcodex.get _ (by simp)]
    exact get_spelled hv2 account.provider

/-- Each identity field is there or holds what the account has for it. -/
theorem backfilled_states {v : Value} (hv : v.isObject = true) (account : StoredAccount) :
    ∀ field ∈ [("accountUuid", account.accountUuid), ("orgUuid", account.orgUuid),
      ("orgName", account.orgName)], presentIn (backfillIdentity v account) field.1 = true ∨
        ∀ s, field.2 = some s →
          (backfillIdentity v account).get field.1 = some (.string s) := by
  set first := backfillField v "accountUuid" account.accountUuid with hfirst
  have hv1 : first.isObject = true := by simpa [hfirst] using hv
  set second := backfillField first "orgUuid" account.orgUuid with hsecond
  have hv2 : second.isObject = true := by simpa [hsecond] using hv1
  have h2 : AgreeOn ["accountUuid"] first second := agree_backfill hv1 (by decide) _
  have h3 : AgreeOn ["accountUuid", "orgUuid"] second (backfillIdentity v account) :=
    agree_backfill hv2 (by decide) _
  intro field hfield
  simp only [List.mem_cons, List.not_mem_nil, or_false] at hfield
  rcases hfield with rfl | rfl | rfl
  · unfold presentIn
    rw [h3.get "accountUuid" (by simp), h2.get "accountUuid" (by simp)]
    exact backfilled hv "accountUuid" account.accountUuid
  · unfold presentIn
    rw [h3.get "orgUuid" (by simp)]
    exact backfilled hv1 "orgUuid" account.orgUuid
  · exact backfilled hv2 "orgName" account.orgName

theorem overwritten_states {v : Value} (hv : v.isObject = true) (account : StoredAccount) :
    ∀ field ∈ [("organizationType", account.organizationType),
      ("rateLimitTier", account.rateLimitTier), ("seatTier", account.seatTier)],
        ∀ s, field.2 = some s → (overwritePlan v account).get field.1 = some (.string s) := by
  set first := overwriteField v "organizationType" account.organizationType with hfirst
  have hv1 : first.isObject = true := by simpa [hfirst] using hv
  set second := overwriteField first "rateLimitTier" account.rateLimitTier with hsecond
  have hv2 : second.isObject = true := by simpa [hsecond] using hv1
  have h2 : AgreeOn ["organizationType"] first second := agree_overwrite hv1 (by decide) _
  have h3 : AgreeOn ["organizationType", "rateLimitTier"] second (overwritePlan v account) :=
    agree_overwrite hv2 (by decide) _
  intro field hfield
  simp only [List.mem_cons, List.not_mem_nil, or_false] at hfield
  rcases hfield with rfl | rfl | rfl
  · rw [h3.get "organizationType" (by simp), h2.get "organizationType" (by simp)]
    exact overwritten hv "organizationType" account.organizationType
  · rw [h3.get "rateLimitTier" (by simp)]
    exact overwritten hv1 "rateLimitTier" account.rateLimitTier
  · exact overwritten hv2 "seatTier" account.seatTier

/-- A write leaves the entry saying what it states. -/
theorem updated_current (hv : entry.isObject = true) (account : StoredAccount) :
    EntryStates (updateEntry entry account) account := by
  have hext : (entry.extend account.credentials.fields).isObject = true := by simpa using hv
  set restated := restateEntry (entry.extend account.credentials.fields) account
  have hcred : AgreeOn credentialKeys (entry.extend account.credentials.fields) restated :=
    agree_restate account hext (by decide) (by decide) (by decide) (by decide) (by decide)
  have hv1 : restated.isObject = true := hcred.isObject.trans hext
  -- what the backfill and the plan leave
  have htail : ∀ keys, "accountUuid" ∉ keys → "orgUuid" ∉ keys → "orgName" ∉ keys →
      "organizationType" ∉ keys → "rateLimitTier" ∉ keys → "seatTier" ∉ keys →
      AgreeOn keys restated (updateEntry entry account) := by
    intro keys hu ho hn ht hr hs
    have hfill := agree_backfill_identity account hv1 hu ho hn
    exact hfill.trans (agree_overwrite_plan (hfill.isObject.trans hv1) ht hr hs)
  have hfill : AgreeOn [] restated (backfillIdentity restated account) :=
    agree_backfill_identity account hv1 (by simp) (by simp) (by simp)
  have hfilled : (backfillIdentity restated account).isObject = true := hfill.isObject.trans hv1
  have hplan : AgreeOn ["accountUuid", "orgUuid", "orgName"] (backfillIdentity restated account)
      (updateEntry entry account) :=
    agree_overwrite_plan hfilled (by decide) (by decide) (by decide)
  have hkept := htail (codexSyncPendingKey :: "codexHome" :: "credentialVersion" :: "type" ::
    "provider" :: credentialKeys) (by decide) (by decide) (by decide) (by decide) (by decide)
    (by decide)
  obtain ⟨hversion, htype, hprovider, hcodex⟩ := restated_states hext account
  refine ⟨hkept.isObject.trans hv1, fun field hfield => ?_, ?_, ?_, ?_, fun hcodes => ?_,
    fun field hfield => ?_, overwritten_states hfilled account⟩
  · have hkey := fields_credential_key _ field hfield
    rw [hkept.get _ (by simp [hkey]), hcred.get _ hkey]
    exact get_extend_credentials hv _ field hfield
  · rw [needs_stamp_of_get (hkept.get "credentialVersion" (by simp))]
    exact hversion
  · rw [hkept.get "type" (by simp)]
    exact htype
  · rw [hkept.get "provider" (by simp)]
    exact hprovider
  · rw [hkept.get "codexHome" (by simp), hkept.get codexSyncPendingKey (by simp)]
    exact hcodex hcodes
  · have hget : (updateEntry entry account).get field.1 =
        (backfillIdentity restated account).get field.1 := by
      refine hplan.get _ ?_
      simp only [List.mem_cons, List.not_mem_nil, or_false] at hfield
      rcases hfield with rfl | rfl | rfl <;> simp
    unfold presentIn
    rw [hget]
    exact backfilled_states hv1 account field hfield

theorem new_entry_pending (file : List Value) (account : StoredAccount) :
    (newEntry file account).get codexSyncPendingKey =
      (Value.object account.others.1).get codexSyncPendingKey := by
  have hagree : AgreeOn [codexSyncPendingKey] account.toEntry (newEntry file account) :=
    agree_new_entry file account (by decide) (by decide)
  have hcred : (Value.object account.credentials.fields).get codexSyncPendingKey = none :=
    get_credential_fields account.credentials (by decide)
  rw [hagree.get _ (by simp), get_to_entry, hcred]
  simp [codexSyncPendingKey]

/-- A new row says what a write states, unless it brings along a pending sync. -/
theorem new_current (file : List Value) (account : StoredAccount)
    (hpending : account.provider = .codex →
      (Value.object account.others.1).get codexSyncPendingKey = none) :
    EntryStates (newEntry file account) account := by
  have hagree : ∀ key, key ≠ "priority" → key ≠ "credentialVersion" →
      (newEntry file account).get key = account.toEntry.get key := by
    intro key hp hv
    have h : AgreeOn [key] account.toEntry (newEntry file account) :=
      agree_new_entry file account (by simp [Ne.symm hp]) (by simp [Ne.symm hv])
    exact h.get key (by simp)
  have hnamed : ∀ key ∈ namedKeys, (Value.object account.others.1).get key = none :=
    fun key => get_others account.others
  have hcred : ∀ key, key ∉ credentialKeys →
      (Value.object account.credentials.fields).get key = none :=
    fun key => get_credential_fields account.credentials
  obtain ⟨-, hprovider, hu, ho, hn⟩ := get_to_entry_identity account
  refine ⟨?_, fun field hfield => ?_, ?_, ?_, ?_, fun hcodex => ⟨?_, ?_⟩, fun field hfield => ?_,
    fun field hfield => ?_⟩
  · unfold newEntry
    cases account.priority with
    | none => rw [is_object_stamp]; rfl
    | some p => rw [is_object_stamp]; rfl
  · have hkey := fields_credential_key _ field hfield
    have hne : ∀ key ∉ credentialKeys, field.1 ≠ key := by
      rintro key hnot rfl
      exact hnot hkey
    rw [hagree _ (hne _ (by decide)) (hne _ (by decide)), get_to_entry_credential account _ hkey]
    exact get_serialized_credentials account.credentials field hfield
  · exact stamped_version (by cases account.priority <;> rfl) account.provider
  · rw [hagree _ (by decide) (by decide), get_to_entry]
    simp
  · rw [hagree _ (by decide) (by decide), hprovider]
  · rw [hagree _ (by decide) (by decide), get_to_entry, hnamed _ (by decide), hcred _ (by decide)]
    simp
  · rw [new_entry_pending]
    exact hpending hcodex
  · right
    rintro s hs
    simp only [List.mem_cons, List.not_mem_nil, or_false] at hfield
    rcases hfield with rfl | rfl | rfl
    · rw [hagree "accountUuid" (by decide) (by decide), hu]
      exact congrArg (Option.map Value.string) hs
    · rw [hagree "orgUuid" (by decide) (by decide), ho]
      exact congrArg (Option.map Value.string) hs
    · rw [hagree "orgName" (by decide) (by decide), hn]
      exact congrArg (Option.map Value.string) hs
  · rintro s hs
    simp only [List.mem_cons, List.not_mem_nil, or_false] at hfield
    rcases hfield with rfl | rfl | rfl
    · rw [hagree "organizationType" (by decide) (by decide), get_to_entry, hcred _ (by decide)]
      simp
      exact .inl hs
    · rw [hagree "rateLimitTier" (by decide) (by decide), get_to_entry, hcred _ (by decide)]
      simp
      exact .inl hs
    · rw [hagree "seatTier" (by decide) (by decide), get_to_entry, hcred _ (by decide)]
      simp
      exact .inl hs

end Entry

/-! ## Which entry is found -/

section Locate

variable {file : List Value} {entry : Value} {found target : Account} {account : StoredAccount}
  {index : Nat}

/-- The entries whose identity satisfies a test. -/
def entriesWhere (file : List Value) (p : Account → Bool) : Set Nat :=
  {i | ∃ entry found, file[i]? = some entry ∧ probeOfEntry entry = .ok found ∧ p found = true}

theorem entries_where_located (p : Account → Bool) :
    {i | ∃ r, (i, r) ∈ (file.zipIdx.filterMap fun c =>
      (probeOfEntry c.1).toOption.map fun found => (c.2, found)) ∧ p r = true} =
      entriesWhere file p := by
  ext i
  constructor
  · rintro ⟨found, hmem, hp⟩
    obtain ⟨entry, hentry, hok⟩ := mem_located.mp hmem
    exact ⟨entry, found, hentry, hok, hp⟩
  · rintro ⟨entry, found, hentry, hok, hp⟩
    exact ⟨found, mem_located.mpr ⟨entry, hentry, hok⟩, hp⟩

theorem locate_one : locateAccountEntry file target = .one index ↔
    Picks (entriesWhere file (sameIdentity target)) (entriesWhere file (sameIdentityStrict target))
      index := by
  rw [← entries_where_located, ← entries_where_located]
  exact resolve_among_one nodup_located

theorem strict_where_subset : entriesWhere file (sameIdentityStrict target) ⊆
    entriesWhere file (sameIdentity target) :=
  fun _ ⟨entry, found, hentry, hok, hstrict⟩ =>
    ⟨entry, found, hentry, hok, same_identity_of_strict hstrict⟩

theorem resolve_among_eq_none {candidates : List (Nat × Account)}
    (h : resolveAmong candidates target = .none) :
    ∀ c ∈ candidates, sameIdentity target c.2 = false := by
  unfold resolveAmong at h
  split at h
  · rename_i hnil
    have hfilter := List.map_eq_nil_iff.mp hnil
    rw [List.filter_eq_nil_iff] at hfilter
    exact fun c hc => Bool.eq_false_iff.mpr (hfilter c hc)
  · cases h
  · cases h
  · cases h

theorem locate_none (h : locateAccountEntry file target = .none) :
    ∀ i, i ∉ entriesWhere file (sameIdentity target) := by
  rintro i ⟨entry, found, hentry, hok, hsame⟩
  have hnone := resolve_among_eq_none h (i, found) (mem_located.mpr ⟨entry, hentry, hok⟩)
  rw [hsame] at hnone
  cases hnone

theorem located (h : locateAccountEntry file target = .one index) :
    ∃ entry found, file[index]? = some entry ∧ probeOfEntry entry = .ok found ∧
      sameIdentity target found = true := by
  have hmem : index ∈ entriesWhere file (sameIdentity target) :=
    (locate_one.mp h).loose strict_where_subset
  exact hmem

/-- The entry an account was written to is found again unless the two clash. -/
theorem locate_updated (h : locateAccountEntry file account.identity = .one index)
    (hentry : file[index]? = some entry) (hok : probeOfEntry entry = .ok found) :
    locateAccountEntry (file.modify index fun entry => updateEntry entry account) account.identity =
      .one index ↔ ¬ NamesakeClash found account.identity := by
  have hsame : sameIdentity account.identity found = true := by
    obtain ⟨entry', found', hentry', hok', hsame⟩ := located h
    obtain rfl : entry = entry' := Option.some.inj (hentry.symm.trans hentry')
    rw [hok, Except.ok.injEq] at hok'
    rwa [hok']
  set file' := file.modify index fun entry => updateEntry entry account with hfile
  have hwritten : file'[index]? = some (updateEntry entry account) := by
    simp [hfile, hentry]
  have hother : ∀ j, j ≠ index → file'[j]? = file[j]? := fun j hj => by
    simp [hfile, Ne.symm hj]
  -- away from the entry written to, nothing matches that did not
  have hback : ∀ p j, j ≠ index → j ∈ entriesWhere file' p → j ∈ entriesWhere file p := by
    rintro p j hj ⟨e, r, he, hr, hp⟩
    exact ⟨e, r, (hother j hj).symm.trans he, hr, hp⟩
  have hself : ∀ p, index ∈ entriesWhere file' p ↔ p (found.filledIn account.identity) = true := by
    intro p
    constructor
    · rintro ⟨e, r, he, hr, hp⟩
      obtain rfl := Option.some.inj (hwritten.symm.trans he)
      rw [updated_probe hok, Except.ok.injEq] at hr
      rwa [hr]
    · exact fun hp => ⟨_, _, hwritten, updated_probe hok, hp⟩
  rw [← same_filled hsame, locate_one]
  constructor
  · exact fun hpicks => (hself _).mp (hpicks.loose strict_where_subset)
  · intro hfilled
    rcases locate_one.mp h with honly | honly
    · refine .inl ⟨(hself _).mpr hfilled, fun j hj => ?_⟩
      by_contra hne
      exact hne (honly.2 j (hback _ j hne hj))
    · obtain ⟨e, r, he, hr, hstrict⟩ := honly.1
      obtain rfl := Option.some.inj (hentry.symm.trans he)
      rw [hok, Except.ok.injEq] at hr
      subst hr
      refine .inr ⟨(hself _).mpr (strict_filled hstrict), fun j hj => ?_⟩
      by_contra hne
      exact hne (honly.2 j (hback _ j hne hj))

/-- A new row is found at its end of the list. -/
theorem locate_added (h : locateAccountEntry file account.identity = .none) :
    locateAccountEntry (file ++ [newEntry file account]) account.identity = .one file.length := by
  refine locate_one.mpr (.inl ⟨?_, fun j hj => ?_⟩)
  · exact ⟨newEntry file account, account.identity, by simp, new_entry_probe file account,
      same_identity_refl _⟩
  · obtain ⟨e, r, he, hr, hsame⟩ := hj
    by_contra hne
    rcases Nat.lt_or_gt_of_ne hne with hlt | hgt
    · rw [List.getElem?_append_left hlt] at he
      exact locate_none h j ⟨e, r, he, hr, hsame⟩
    · rw [List.getElem?_eq_none (by rw [List.length_append]; exact hgt)] at he
      cases he

end Locate

/-! ## The document after a write -/

section Document

variable {doc : Value} {account : StoredAccount} {file : List Value} {index : Nat}

theorem locate_in_eq (doc : Value) (target : Account) :
    locateIn doc target = locateAccountEntry ((entriesOf doc).getD []) target := by
  unfold locateIn
  cases entriesOf doc with
  | none => rfl
  | some entries => rfl

theorem entries_of_written (hdoc : doc.isObject = true) :
    entriesOf (doc.insert "accounts" (.array file)) = some file := by
  unfold entriesOf
  rw [Value.get_insert hdoc, if_pos rfl]
  rfl

/-- A write that is carried out writes what it makes of the entries. -/
theorem merge_in_written (h : (mergeAccountIn doc account).2 = .added ∨
      (mergeAccountIn doc account).2 = .updated) :
    mergeAccountIn doc account =
      (doc.insert "accounts" (.array (mergeAccount ((entriesOf doc).getD []) account).1),
        (mergeAccount ((entriesOf doc).getD []) account).2) := by
  unfold mergeAccountIn at h ⊢
  unfold entriesOf
  cases hget : doc.get "accounts" with
  | none => rfl
  | some held =>
    cases held with
    | array entries =>
      simp only [hget, Option.bind_some, Value.asArray, Option.getD_some] at h ⊢
      cases hmerge : mergeAccount entries account with
      | mk written outcome =>
        rw [hmerge] at h
        cases outcome with
        | ambiguous => simp at h
        | _ => rfl
    | _ => simp [hget] at h

theorem merge_in_again (hdoc : doc.isObject = true) (hone : locateAccountEntry file account.identity =
      .one index) : mergeAccountIn (doc.insert "accounts" (.array file)) account =
    ((doc.insert "accounts" (.array file)).insert "accounts"
      (.array (file.modify index fun entry => updateEntry entry account)), .updated) := by
  unfold mergeAccountIn
  rw [Value.get_insert hdoc, if_pos rfl]
  simp only [mergeAccount, hone]

/-- Stating again what the entry says already gives the same document. -/
theorem same_again {entry : Value} (hdoc : doc.isObject = true) (hentry : file[index]? = some entry)
    (hcurrent : EntryStates entry account) :
    Value.Same ((doc.insert "accounts" (.array file)).insert "accounts"
      (.array (file.modify index fun entry => updateEntry entry account)))
      (doc.insert "accounts" (.array file)) := by
  have hfirst : (doc.insert "accounts" (.array file)).isObject = true := by simpa using hdoc
  have hentries : (file.modify index fun entry => updateEntry entry account).map Value.read =
      file.map Value.read := by
    refine List.ext_getElem? fun i => ?_
    rw [List.getElem?_map, List.getElem?_map, List.getElem?_modify]
    by_cases hi : index = i
    · subst hi
      have hsame : (updateEntry entry account).read = entry.read := by
        have halike := hcurrent.update
        exact Value.same_object halike.isObject hcurrent.isObject fun key => by rw [halike.get]
      rw [hentry]
      simpa using hsame
    · simp [hi]
  refine Value.same_object (by simpa using hdoc) hfirst fun name => ?_
  rw [Value.get_insert hfirst]
  split
  · rename_i hname
    rw [hname, Value.get_insert hdoc, if_pos rfl]
    exact congrArg some (Value.same_array hentries)
  · rfl

/-- What a write to a found entry leaves. -/
theorem written_updated (h : (mergeAccountIn doc account).2 = .added ∨
      (mergeAccountIn doc account).2 = .updated)
    (hone : locateIn doc account.identity = .one index) : mergeAccountIn doc account =
      (doc.insert "accounts" (.array (((entriesOf doc).getD []).modify index fun entry =>
        updateEntry entry account)), .updated) := by
  rw [locate_in_eq] at hone
  rw [merge_in_written h]
  simp only [mergeAccount, hone]

/-- What appending a row leaves. -/
theorem written_added (h : (mergeAccountIn doc account).2 = .added ∨
      (mergeAccountIn doc account).2 = .updated)
    (hnone : locateIn doc account.identity = .none) : mergeAccountIn doc account =
      (doc.insert "accounts" (.array ((entriesOf doc).getD [] ++
        [newEntry ((entriesOf doc).getD []) account])), .added) := by
  rw [locate_in_eq] at hnone
  rw [merge_in_written h]
  simp only [mergeAccount, hnone]

theorem written_not_many (h : (mergeAccountIn doc account).2 = .added ∨
      (mergeAccountIn doc account).2 = .updated) : locateIn doc account.identity ≠ .many := by
  intro hmany
  rw [locate_in_eq] at hmany
  rw [merge_in_written h] at h
  simp [mergeAccount, hmany] at h

theorem read_entry (hdoc : doc.isObject = true) {entry : Value} (hentry : file[index]? = some entry)
    (key : String) : (doc.insert "accounts" (.array file)).read
      [.key "accounts", .index index, .key key] = (entry.get key).map Value.leaf := by
  rw [Value.read_key, Value.get_insert hdoc, if_pos rfl, Option.map_some, Option.bind_some,
    Value.read_cons, Value.child, Value.asArray, Option.bind_some, hentry, Option.map_some,
    Option.bind_some, Value.read_key]
  cases entry.get key <;> rfl

theorem stays_updated (hdoc : doc.isObject = true) (h : (mergeAccountIn doc account).2 = .added ∨
      (mergeAccountIn doc account).2 = .updated)
    (hone : locateIn doc account.identity = .one index) :
    StaysSaved doc account ↔ ∀ entry found, ((entriesOf doc).getD [])[index]? = some entry →
      probeOfEntry entry = .ok found → ¬ NamesakeClash found account.identity := by
  have hwritten := written_updated h hone
  have hindex : writtenIndex doc account = index := by rw [writtenIndex, hone]
  set file := (entriesOf doc).getD [] with hfile
  have hloc : locateAccountEntry file account.identity = .one index := by
    rwa [locate_in_eq, ← hfile] at hone
  obtain ⟨entry, found, hentry, hok, -⟩ := located hloc
  set file' := file.modify index fun entry => updateEntry entry account with hfile'
  have hfirst : (mergeAccountIn doc account).1 = doc.insert "accounts" (.array file') := by
    rw [hwritten]
  have hafter : locateIn (mergeAccountIn doc account).1 account.identity =
      locateAccountEntry file' account.identity := by
    rw [hfirst, locate_in_eq, entries_of_written hdoc, Option.getD_some]
  constructor
  · intro hstays entry' found' hentry' hok'
    have hfound := hstays.found
    rw [hafter, hindex] at hfound
    exact (locate_updated hloc hentry' hok').mp hfound
  · intro hclash
    have hagain : locateAccountEntry file' account.identity = .one index :=
      (locate_updated hloc hentry hok).mpr (hclash entry found hentry hok)
    have hentry' : file'[index]? = some (updateEntry entry account) := by
      simp [hfile', hentry]
    refine ⟨by rw [hafter, hindex, hagain], ?_, ?_, fun i hi => ?_, fun key hkey => ?_⟩
    · rw [hfirst, merge_in_again hdoc hagain]
    · rw [hfirst, merge_in_again hdoc hagain]
      exact same_again hdoc hentry' (updated_current (probe_ok_iff.mp hok).1 account)
    · rw [hindex] at hi
      rw [hfirst, entries_of_written hdoc, Option.getD_some, ← hfile, hfile']
      simp [Ne.symm hi]
    · rw [hfirst, Value.get_insert hdoc, if_neg hkey]

theorem stays_added (hdoc : doc.isObject = true) (h : (mergeAccountIn doc account).2 = .added ∨
      (mergeAccountIn doc account).2 = .updated)
    (hnone : locateIn doc account.identity = .none) :
    StaysSaved doc account ↔ (account.provider = .codex →
      (Value.object account.others.1).get codexSyncPendingKey = none) := by
  have hwritten := written_added h hnone
  have hindex : writtenIndex doc account = ((entriesOf doc).getD []).length := by
    rw [writtenIndex, hnone]
  set file := (entriesOf doc).getD [] with hfile
  have hloc : locateAccountEntry file account.identity = .none := by
    rwa [locate_in_eq, ← hfile] at hnone
  set file' := file ++ [newEntry file account] with hfile'
  have hfirst : (mergeAccountIn doc account).1 = doc.insert "accounts" (.array file') := by
    rw [hwritten]
  have hagain : locateAccountEntry file' account.identity = .one file.length := locate_added hloc
  have hentry : file'[file.length]? = some (newEntry file account) := by
    simp [hfile']
  constructor
  · intro hstays hcodex
    have hsame := congrFun hstays.same
      [.key "accounts", .index file.length, .key codexSyncPendingKey]
    have hrow : (file'.modify file.length fun entry => updateEntry entry account)[file.length]? =
        some (updateEntry (newEntry file account) account) := by
      simp [hentry]
    have hobject : (newEntry file account).isObject = true :=
      (probe_ok_iff.mp (new_entry_probe file account)).1
    rw [hfirst, merge_in_again hdoc hagain, read_entry hdoc hentry,
      read_entry (by simpa using hdoc) hrow,
      ((updated_current hobject account).codex hcodex).2, new_entry_pending] at hsame
    exact Option.map_eq_none_iff.mp hsame.symm
  · intro hpending
    refine ⟨?_, ?_, ?_, fun i hi => ?_, fun key hkey => ?_⟩
    · rw [hfirst, locate_in_eq, entries_of_written hdoc, Option.getD_some, hindex, hagain]
    · rw [hfirst, merge_in_again hdoc hagain]
    · rw [hfirst, merge_in_again hdoc hagain]
      exact same_again hdoc hentry (new_current file account hpending)
    · rw [hfirst, entries_of_written hdoc, Option.getD_some, hfile']
      rw [hindex] at hi
      rcases Nat.lt_or_gt_of_ne hi with hlt | hgt
      · exact List.getElem?_append_left hlt
      · rw [List.getElem?_eq_none (by rw [List.length_append]; exact hgt),
          List.getElem?_eq_none (Nat.le_of_lt hgt)]
    · rw [hfirst, Value.get_insert hdoc, if_neg hkey]

/-- A saved login stays the same account unless it was matched by its name alone, over another
organisation, and a new one unless it brings along a pending sync. -/
theorem saved_login (hdoc : doc.isObject = true) (hwrote : (mergeAccountIn doc account).2 = .added ∨
      (mergeAccountIn doc account).2 = .updated) :
    StaysSaved doc account ↔ Resaves doc account := by
  cases hloc : locateIn doc account.identity with
  | many => exact absurd hloc (written_not_many hwrote)
  | one index =>
    rw [stays_updated hdoc hwrote hloc]
    constructor
    · intro h
      refine ⟨fun i entry found hi hentry hok => ?_, fun hnone =>
        absurd (hloc.symm.trans hnone) (by simp)⟩
      rw [hloc, Resolved.one.injEq] at hi
      exact h entry found (hi ▸ hentry) hok
    · exact fun h entry found hentry hok => h.entry index entry found hloc hentry hok
  | none =>
    rw [stays_added hdoc hwrote hloc]
    constructor
    · intro h
      exact ⟨fun i entry found hi => absurd (hloc.symm.trans hi) (by simp), fun _ => h⟩
    · exact fun h => h.row hloc

/-! A login with an account id, and a file with an entry of its name. -/

def namedEntry (fields : List (String × Value)) : Value :=
  .object [("accounts", .array [.object (("name", .string "a@x") :: fields)])]

def loginOf (org : String) : StoredAccount where
  name := "a@x"
  accountUuid := some "U"
  orgUuid := some org
  credentials := { accessToken := "t" }

/-- An entry with the account's id and no organisation takes on the organisation for good. -/
theorem saved_login_backfilled :
    StaysSaved (namedEntry [("accountUuid", .string "U")]) (loginOf "O2") := by
  refine (saved_login rfl (.inr (by decide +kernel))).mpr
    ⟨fun index entry found hone hentry hok hclash => ?_, fun _ hcodex => ?_⟩
  · have hloc : locateIn (namedEntry [("accountUuid", .string "U")]) (loginOf "O2").identity =
        .one 0 := by decide +kernel
    rw [hloc, Resolved.one.injEq] at hone
    obtain rfl := hone
    have hid : uuidKey found = some "U" := by
      obtain rfl := Option.some.inj hentry
      obtain rfl := Except.ok.inj hok
      decide +kernel
    have hnone := hclash.1
    rw [hid] at hnone
    cases hnone
  · cases hcodex

/-- An entry without an id, of another organisation, is filled in to an account of nobody: the next
write of the login appends a row. -/
theorem namesake_appends :
    (mergeAccountIn (namedEntry [("orgUuid", .string "O1")]) (loginOf "O2")).2 = .updated ∧
      (mergeAccountIn (mergeAccountIn (namedEntry [("orgUuid", .string "O1")]) (loginOf "O2")).1
        (loginOf "O2")).2 = .added ∧
      ¬ StaysSaved (namedEntry [("orgUuid", .string "O1")]) (loginOf "O2") := by
  have hagain : (mergeAccountIn (mergeAccountIn (namedEntry [("orgUuid", .string "O1")])
      (loginOf "O2")).1 (loginOf "O2")).2 = .added := by decide +kernel
  refine ⟨by decide +kernel, hagain, fun hstays => ?_⟩
  have hupdated := hstays.again
  rw [hagain] at hupdated
  cases hupdated

end Document

end TeamClaude
