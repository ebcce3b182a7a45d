import TeamClaude.Config.Writers
import TeamClaude.Lib.StaleStore

/-!
# Keys and credentials of entries

A fully known identity is a key: provider, account id and organisation. What each writer does to the
key of an entry and to the credentials it holds.
-/

namespace TeamClaude

open Lib.Json

/-! ## Keys -/

abbrev IdKey := Provider × String × String

def Account.idKey (a : Account) : Option IdKey :=
  match uuidKey a, orgKey a with
  | some u, some o => some (a.provider, u, o)
  | _, _ => none

theorem id_key_some {a : Account} {k : IdKey} :
    a.idKey = some k ↔ a.provider = k.1 ∧ uuidKey a = some k.2.1 ∧ orgKey a = some k.2.2 := by
  obtain ⟨p, u, o⟩ := k
  unfold Account.idKey
  cases uuidKey a <;> cases orgKey a <;> simp

/-- Fully known identities are the same exactly when their keys are. -/
theorem same_identity_keyed {a b : Account} {ka kb : IdKey} (ha : a.idKey = some ka)
    (hb : b.idKey = some kb) : sameIdentity a b = true ↔ ka = kb := by
  obtain ⟨hpa, hua, hoa⟩ := id_key_some.mp ha
  obtain ⟨hpb, hub, hob⟩ := id_key_some.mp hb
  rw [same_identity_iff]
  constructor
  · rintro ⟨hp, ⟨u, hau, hbu, horg⟩ | ⟨hnone | hnone, -⟩⟩
    · rw [hua] at hau
      rw [hub] at hbu
      have ho := horg _ _ hoa hob
      exact Prod.ext (hpa.symm.trans (hp.trans hpb))
        (Prod.ext ((Option.some.inj hau).trans (Option.some.inj hbu).symm) ho)
    · rw [hua] at hnone
      cases hnone
    · rw [hub] at hnone
      cases hnone
  · rintro rfl
    refine ⟨hpa.trans hpb.symm, .inl ⟨_, hua, hub, fun x y hx hy => ?_⟩⟩
    exact Option.some.inj (hx.symm.trans (hoa.trans (hob.symm.trans hy)))

def entryKey (entry : Value) : Option IdKey :=
  (probeOfEntry entry).toOption.bind Account.idKey

def StoredAccount.key (a : StoredAccount) : Option IdKey :=
  a.identity.idKey

theorem entry_key_iff {entry : Value} {k : IdKey} : entryKey entry = some k ↔
    entry.isObject = true ∧ (entry.str "name").isSome ∧ providerOfEntry entry = some k.1 ∧
      ∃ accountUuid orgUuid orgName, optionalStr entry "accountUuid" = some accountUuid ∧
        optionalStr entry "orgUuid" = some orgUuid ∧ optionalStr entry "orgName" = some orgName ∧
        presentKey accountUuid = some k.2.1 ∧
        (presentKey orgUuid).or (presentKey orgName) = some k.2.2 := by
  unfold entryKey probeOfEntry DiskIdentity.ofEntry
  cases entry.isObject with
  | false => simp [Except.toOption]
  | true =>
    cases entry.str "name" with
    | none => simp [Except.toOption]
    | some name =>
      cases optionalStr entry "accountUuid" with
      | none => simp [Except.toOption]
      | some accountUuid =>
        cases optionalStr entry "orgUuid" with
        | none => simp [Except.toOption]
        | some orgUuid =>
          cases optionalStr entry "orgName" with
          | none => simp [Except.toOption]
          | some orgName =>
            cases providerOfEntry entry with
            | none => simp [Except.toOption]
            | some provider => simp [Except.toOption, id_key_some, probe, uuidKey, orgKey]

theorem optional_str_congr {v w : Value} {key : String} (h : w.get key = v.get key) :
    optionalStr w key = optionalStr v key := by
  unfold optionalStr
  rw [h]

theorem provider_of_entry_congr {v w : Value} (h : w.get "provider" = v.get "provider") :
    providerOfEntry w = providerOfEntry v := by
  unfold providerOfEntry
  rw [h]

/-- Both are objects or neither is, and the keys of a list have the same fields in both. -/
structure AgreeOn (keys : List String) (v w : Value) : Prop where
  isObject : w.isObject = v.isObject
  get : ∀ key ∈ keys, w.get key = v.get key

def identityKeys : List String := ["name", "provider", "accountUuid", "orgUuid", "orgName"]

theorem AgreeOn.entry_key {v w : Value} (h : AgreeOn identityKeys v w) :
    entryKey w = entryKey v := by
  unfold entryKey probeOfEntry DiskIdentity.ofEntry
  rw [h.isObject, Value.str_congr (h.get "name" (by simp [identityKeys])),
    provider_of_entry_congr (h.get "provider" (by simp [identityKeys])),
    optional_str_congr (h.get "accountUuid" (by simp [identityKeys])),
    optional_str_congr (h.get "orgUuid" (by simp [identityKeys])),
    optional_str_congr (h.get "orgName" (by simp [identityKeys]))]

theorem entry_key_rename {entry : Value} {name : String} (h : (entryKey entry).isSome) :
    entryKey (entry.insert "name" (.string name)) = entryKey entry := by
  obtain ⟨k, hk⟩ := Option.isSome_iff_exists.mp h
  obtain ⟨hobj, -, hprovider, hrest⟩ := entry_key_iff.mp hk
  have hget : ∀ key, key ≠ "name" →
      (entry.insert "name" (.string name)).get key = entry.get key := by
    intro key hne
    rw [Value.get_insert hobj, if_neg hne]
  rw [hk]
  refine entry_key_iff.mpr ⟨by simpa using hobj, ?_, ?_, ?_⟩
  · rw [Value.str, Value.get_insert hobj, if_pos rfl]
    rfl
  · rw [provider_of_entry_congr (hget _ (by decide))]
    exact hprovider
  · rw [optional_str_congr (hget "accountUuid" (by decide)),
      optional_str_congr (hget "orgUuid" (by decide)),
      optional_str_congr (hget "orgName" (by decide))]
    exact hrest

/-! ## Credentials -/

/-- The credentials an entry holds. -/
structure Held where
  accessToken : Option String
  refreshToken : Option String
  expiresAt : Option Int64
  deriving DecidableEq

def heldOf (entry : Value) : Held where
  accessToken := entry.str "accessToken"
  refreshToken := entry.str "refreshToken"
  expiresAt := (entry.get "expiresAt").bind Value.toI64

/-- Written credentials on top of held ones: an unset field keeps what was there. -/
def Credentials.onto (c : Credentials) (h : Option Held) : Held where
  accessToken := some c.accessToken
  refreshToken := c.refreshToken.or (h.bind Held.refreshToken)
  expiresAt := c.expiresAt.or (h.bind Held.expiresAt)

/-- Exactly what was written is held, but for the fields it left unset. -/
structure Credentials.Kept (c : Credentials) (h : Held) : Prop where
  accessToken : h.accessToken = some c.accessToken
  refreshToken : ∀ t, c.refreshToken = some t → h.refreshToken = some t
  expiresAt : ∀ t, c.expiresAt = some t → h.expiresAt = some t

def credentialWriting : Lib.StaleStore.Writing Held Credentials where
  onto := Credentials.onto
  Kept := Credentials.Kept
  kept_onto c h := by
    refine ⟨rfl, fun t ht => ?_, fun t ht => ?_⟩
    · simp [Credentials.onto, ht]
    · simp [Credentials.onto, ht]

theorem AgreeOn.held {v w : Value} (h : AgreeOn credentialKeys v w) : heldOf w = heldOf v := by
  unfold heldOf
  rw [Value.str_congr (h.get "accessToken" (by simp [credentialKeys])),
    Value.str_congr (h.get "refreshToken" (by simp [credentialKeys])),
    h.get "expiresAt" (by simp [credentialKeys])]

/-! ## What a write does to an entry -/

section AgreeOn

variable {keys : List String} {u v w : Value} {key : String}

theorem AgreeOn.refl (keys : List String) (v : Value) : AgreeOn keys v v :=
  ⟨rfl, fun _ _ => rfl⟩

theorem AgreeOn.trans (h : AgreeOn keys u v) (h' : AgreeOn keys v w) : AgreeOn keys u w :=
  ⟨h'.isObject.trans h.isObject, fun key hk => (h'.get key hk).trans (h.get key hk)⟩

theorem agree_insert (hv : v.isObject = true) (hkey : key ∉ keys) (x : Value) :
    AgreeOn keys v (v.insert key x) :=
  ⟨Value.is_object_insert, fun k hk => by
    rw [Value.get_insert hv, if_neg (by rintro rfl; exact hkey hk)]⟩

theorem agree_remove (hkey : key ∉ keys) : AgreeOn keys v (v.remove key) :=
  ⟨Value.is_object_remove, fun k hk => by
    rw [Value.get_remove, if_neg (by rintro rfl; exact hkey hk)]⟩

theorem agree_stamp (hv : v.isObject = true) (hkey : "credentialVersion" ∉ keys)
    (provider : Provider) : AgreeOn keys v (stampCredentialVersion v provider) := by
  unfold stampCredentialVersion
  split
  · exact agree_insert hv hkey _
  · exact .refl keys v

theorem agree_extend (hv : v.isObject = true) (c : Credentials)
    (hkeys : ∀ key ∈ keys, key ∉ credentialKeys) : AgreeOn keys v (v.extend c.fields) := by
  refine ⟨Value.is_object_extend, fun key hk => Value.get_extend_of_not_mem hv fun hmem => ?_⟩
  refine hkeys key hk ?_
  obtain ⟨a, r, e⟩ := c
  cases r <;> cases e <;>
    simp [Credentials.fields, optionalField, credentialKeys] at hmem ⊢ <;> grind

theorem agree_backfill (hv : v.isObject = true) (hkey : key ∉ keys) (x : Option String) :
    AgreeOn keys v (backfillField v key x) := by
  unfold backfillField
  split
  · exact .refl keys v
  · cases x with
    | none => exact .refl keys v
    | some s => exact agree_insert hv hkey _

theorem agree_overwrite (hv : v.isObject = true) (hkey : key ∉ keys) (x : Option String) :
    AgreeOn keys v (overwriteField v key x) := by
  cases x with
  | none => exact .refl keys v
  | some s => exact agree_insert hv hkey _

end AgreeOn

theorem held_extend {entry : Value} {c : Credentials} (hv : entry.isObject = true) :
    heldOf (entry.extend c.fields) = c.onto (some (heldOf entry)) := by
  obtain ⟨a, r, e⟩ := c
  cases r <;> cases e <;>
    simp [heldOf, Credentials.fields, optionalField, Value.extend, Value.str, Value.get_insert, hv,
      Value.asStr, Credentials.onto, Value.to_i64_of_i64]

theorem entry_key_is_object {entry : Value} {k : IdKey} (h : entryKey entry = some k) :
    entry.isObject = true :=
  (entry_key_iff.mp h).1

/-- The part of a token write after the credentials touches neither identity nor credentials. -/
theorem agree_merge_entry {entry : Value} {fresh : StoredAccount} {keys : List String}
    (hv : entry.isObject = true) (hversion : "credentialVersion" ∉ keys)
    (hpending : codexSyncPendingKey ∉ keys) :
    AgreeOn keys (entry.extend fresh.credentials.fields) (mergeEntry entry fresh) := by
  have hext : (entry.extend fresh.credentials.fields).isObject = true := by simpa using hv
  unfold mergeEntry
  cases fresh.provider with
  | anthropic => exact agree_stamp hext hversion _
  | codex =>
    dsimp only
    split
    · exact (agree_insert hext hpending _).trans (agree_stamp (by simpa using hext) hversion _)
    · exact (agree_remove hpending).trans (agree_stamp (by simpa using hext) hversion _)

/-- A token write keeps the key of an entry and writes its credentials. -/
theorem merge_entry_effect {entry : Value} (fresh : StoredAccount) {k : IdKey}
    (h : entryKey entry = some k) : entryKey (mergeEntry entry fresh) = some k ∧
      heldOf (mergeEntry entry fresh) = fresh.credentials.onto (some (heldOf entry)) := by
  have hv := entry_key_is_object h
  constructor
  · have hid : AgreeOn identityKeys entry (mergeEntry entry fresh) :=
      (agree_extend hv _ (by decide)).trans (agree_merge_entry hv (by decide) (by decide))
    rw [hid.entry_key, h]
  · have hcred : AgreeOn credentialKeys _ (mergeEntry entry fresh) :=
      agree_merge_entry hv (by decide) (by decide)
    rw [hcred.held, held_extend hv]

theorem present_in_eq {v : Value} {key : String} {x : Option String}
    (h : optionalStr v key = some x) : presentIn v key = (presentKey x).isSome := by
  unfold optionalStr at h
  unfold presentIn presentKey
  split at h <;> rename_i hget <;> rw [hget]
  · cases h
    rfl
  · cases h
    rfl
  · rename_i s
    cases h
    by_cases hs : s = "" <;> simp [Option.filter, hs]
  · cases h

/-- What a backfilled field reads as: what was there, if it was not empty. -/
theorem optional_str_backfill {v : Value} {key : String} {x : Option String}
    (hv : v.isObject = true) (h : optionalStr v key = some x) (y : Option String) :
    optionalStr (backfillField v key y) key =
      some (if (presentKey x).isSome then x else y.or x) := by
  unfold backfillField
  rw [present_in_eq h]
  split
  · exact h
  · cases y with
    | none => exact h
    | some s =>
      unfold optionalStr
      rw [Value.get_insert hv, if_pos rfl]
      rfl

@[simp] theorem is_object_backfill {v : Value} {key : String} {x : Option String} :
    (backfillField v key x).isObject = v.isObject := by
  unfold backfillField
  split
  · rfl
  · cases x with
    | none => rfl
    | some s => exact Value.is_object_insert

theorem agree_backfill_identity {v : Value} {keys : List String} (account : StoredAccount)
    (hv : v.isObject = true) (hu : "accountUuid" ∉ keys) (ho : "orgUuid" ∉ keys)
    (hn : "orgName" ∉ keys) : AgreeOn keys v (backfillIdentity v account) :=
  (agree_backfill hv hu _).trans ((agree_backfill (by simpa using hv) ho _).trans
    (agree_backfill (by simpa using hv) hn _))

/-- What the identity fields read as once they are backfilled: each one is filled in where it is met,
and kept by the other two. -/
theorem optional_str_backfill_identity {v : Value} {U O N : Option String} (account : StoredAccount)
    (hv : v.isObject = true) (hU : optionalStr v "accountUuid" = some U)
    (hO : optionalStr v "orgUuid" = some O) (hN : optionalStr v "orgName" = some N) :
    optionalStr (backfillIdentity v account) "accountUuid" =
        some (if (presentKey U).isSome then U else account.accountUuid.or U) ∧
      optionalStr (backfillIdentity v account) "orgUuid" =
        some (if (presentKey O).isSome then O else account.orgUuid.or O) ∧
      optionalStr (backfillIdentity v account) "orgName" =
        some (if (presentKey N).isSome then N else account.orgName.or N) := by
  set first := backfillField v "accountUuid" account.accountUuid
  have h1 : AgreeOn ["orgUuid", "orgName"] v first := agree_backfill hv (by decide) _
  have hv1 := h1.isObject.trans hv
  set second := backfillField first "orgUuid" account.orgUuid
  have h2 : AgreeOn ["accountUuid", "orgName"] first second := agree_backfill hv1 (by decide) _
  have hv2 := h2.isObject.trans hv1
  have h3 : AgreeOn ["accountUuid", "orgUuid"] second (backfillIdentity v account) :=
    agree_backfill hv2 (by decide) _
  refine ⟨?_, ?_, ?_⟩
  · rw [optional_str_congr (h3.get "accountUuid" (by simp)),
      optional_str_congr (h2.get "accountUuid" (by simp))]
    exact optional_str_backfill hv hU account.accountUuid
  · rw [optional_str_congr (h3.get "orgUuid" (by simp))]
    rw [← optional_str_congr (h1.get "orgUuid" (by simp))] at hO
    exact optional_str_backfill hv1 hO account.orgUuid
  · rw [← optional_str_congr (h1.get "orgName" (by simp)),
      ← optional_str_congr (h2.get "orgName" (by simp))] at hN
    exact optional_str_backfill hv2 hN account.orgName

theorem agree_overwrite_plan {v : Value} {account : StoredAccount} {keys : List String}
    (hv : v.isObject = true) (ho : "organizationType" ∉ keys) (hr : "rateLimitTier" ∉ keys)
    (hs : "seatTier" ∉ keys) : AgreeOn keys v (overwritePlan v account) := by
  have h1 := agree_overwrite hv ho account.organizationType
  have h2 := agree_overwrite (h1.isObject.trans hv) hr account.rateLimitTier
  have h3 := agree_overwrite (h2.isObject.trans (h1.isObject.trans hv)) hs account.seatTier
  exact h1.trans (h2.trans h3)

theorem agree_spell_provider {v : Value} {keys : List String} (hv : v.isObject = true)
    (hp : "provider" ∉ keys) (provider : Provider) :
    AgreeOn keys v (spellProvider v provider) := by
  cases provider with
  | anthropic => exact agree_remove hp
  | codex => exact agree_insert hv hp _

theorem provider_of_spelled {v : Value} (hv : v.isObject = true) (provider : Provider) :
    providerOfEntry (spellProvider v provider) = some provider := by
  unfold providerOfEntry
  cases provider with
  | anthropic =>
    rw [spellProvider, Value.get_remove, if_pos rfl]
  | codex =>
    rw [spellProvider, Value.get_insert hv, if_pos rfl]
    rfl

theorem agree_restate_codex {v : Value} {keys : List String} (account : StoredAccount)
    (hv : v.isObject = true) (hh : "codexHome" ∉ keys) (hs : codexSyncPendingKey ∉ keys) :
    AgreeOn keys v (restateCodex v account) := by
  unfold restateCodex
  split
  · exact .refl keys v
  · exact (agree_insert hv hh _).trans (agree_remove hs)
  · exact (agree_remove hh).trans (agree_remove hs)

theorem agree_restate {v : Value} {keys : List String} (account : StoredAccount)
    (hv : v.isObject = true) (hversion : "credentialVersion" ∉ keys) (ht : "type" ∉ keys)
    (hp : "provider" ∉ keys) (hh : "codexHome" ∉ keys) (hs : codexSyncPendingKey ∉ keys) :
    AgreeOn keys v (restateEntry v account) := by
  have h1 := agree_stamp hv hversion account.provider
  have hv1 := h1.isObject.trans hv
  have h2 := agree_insert hv1 ht (.string account.accountType.spelling)
  have hv2 := h2.isObject.trans hv1
  have h3 := agree_spell_provider hv2 hp account.provider
  exact h1.trans (h2.trans (h3.trans (agree_restate_codex account (h3.isObject.trans hv2) hh hs)))

theorem provider_of_restated {v : Value} (account : StoredAccount) (hv : v.isObject = true) :
    providerOfEntry (restateEntry v account) = some account.provider := by
  have hstamp := (agree_stamp hv List.not_mem_nil account.provider).isObject.trans hv
  have htype : ((stampCredentialVersion v account.provider).insert "type"
      (.string account.accountType.spelling)).isObject = true := by simpa using hstamp
  have hspell := (agree_spell_provider htype List.not_mem_nil account.provider).isObject.trans htype
  have hcodex : AgreeOn ["provider"] _ (restateEntry v account) :=
    agree_restate_codex account hspell (by decide) (by decide)
  rw [provider_of_entry_congr (hcodex.get "provider" (by simp)),
    provider_of_spelled htype]

/-- Backfilling the fields an entry lacks leaves the key that the entry and the account share. -/
theorem entry_key_backfill {v : Value} {account : StoredAccount} {k : IdKey}
    (h : entryKey v = some k) (ha : account.key = some k) :
    entryKey (backfillIdentity v account) = some k := by
  obtain ⟨hv, hname, hprovider, U, O, N, hU, hO, hN, hu, ho⟩ := entry_key_iff.mp h
  obtain ⟨-, -, ho'⟩ := id_key_some.mp ha
  have hagree : AgreeOn ["name", "provider"] v (backfillIdentity v account) :=
    agree_backfill_identity account hv (by decide) (by decide) (by decide)
  obtain ⟨hU', hO', hN'⟩ := optional_str_backfill_identity account hv hU hO hN
  rw [hu, Option.isSome_some, if_pos rfl] at hU'
  refine entry_key_iff.mpr ⟨hagree.isObject.trans hv, ?_, ?_, U,
    if (presentKey O).isSome then O else account.orgUuid.or O,
    if (presentKey N).isSome then N else account.orgName.or N, hU', hO', hN', hu, ?_⟩
  · rw [Value.str_congr (hagree.get "name" (by simp))]
    exact hname
  · rw [provider_of_entry_congr (hagree.get "provider" (by simp))]
    exact hprovider
  · -- an organisation id the entry lacked is the account's, by which the account is known
    cases hOk : presentKey O with
    | some o =>
      rw [hOk] at ho
      simpa [hOk] using ho
    | none =>
      rw [hOk, Option.none_or] at ho
      have ho' : (presentKey account.orgUuid).or (presentKey account.orgName) = some k.2.2 := ho'
      simp only [Option.isSome_none, Bool.false_eq_true, if_false, ho, Option.isSome_some, if_true]
      cases hao : account.orgUuid with
      | none => rw [Option.none_or, hOk, Option.none_or]
      | some o =>
        rw [hao] at ho'
        show (presentKey (some o)).or _ = _
        cases hpo : presentKey (some o) with
        | none => rfl
        | some o' =>
          rw [hpo] at ho'
          exact ho'

/-- An account write keeps the key of the entry it found and writes its credentials. -/
theorem update_entry_effect {entry : Value} {account : StoredAccount} {k : IdKey}
    (h : entryKey entry = some k) (ha : account.key = some k) :
    entryKey (updateEntry entry account) = some k ∧
      heldOf (updateEntry entry account) = account.credentials.onto (some (heldOf entry)) := by
  obtain ⟨hv, hname, -, hrest⟩ := entry_key_iff.mp h
  obtain ⟨hprovider, -⟩ := id_key_some.mp ha
  have hext : (entry.extend account.credentials.fields).isObject = true := by simpa using hv
  have hid : AgreeOn ["name", "accountUuid", "orgUuid", "orgName"] entry
      (restateEntry (entry.extend account.credentials.fields) account) :=
    (agree_extend hv _ (by decide)).trans (agree_restate account hext (by decide) (by decide)
      (by decide) (by decide) (by decide))
  have hvr := hid.isObject.trans hv
  have hvb := (agree_backfill_identity account hvr List.not_mem_nil
    List.not_mem_nil List.not_mem_nil).isObject.trans hvr
  have hrestated : entryKey (restateEntry (entry.extend account.credentials.fields) account) =
      some k := by
    refine entry_key_iff.mpr ⟨hvr, ?_, ?_, ?_⟩
    · rw [Value.str_congr (hid.get "name" (by simp))]
      exact hname
    · rw [provider_of_restated account hext]
      exact congrArg some hprovider
    · rw [optional_str_congr (hid.get "accountUuid" (by simp)),
        optional_str_congr (hid.get "orgUuid" (by simp)),
        optional_str_congr (hid.get "orgName" (by simp))]
      exact hrest
  constructor
  · have hplan : AgreeOn identityKeys _ (updateEntry entry account) :=
      agree_overwrite_plan hvb (by decide) (by decide) (by decide)
    rw [hplan.entry_key]
    exact entry_key_backfill hrestated ha
  · have hcred : AgreeOn credentialKeys (entry.extend account.credentials.fields)
        (updateEntry entry account) :=
      (agree_restate account hext (by decide) (by decide) (by decide) (by decide)
        (by decide)).trans ((agree_backfill_identity account hvr (by decide) (by decide)
          (by decide)).trans (agree_overwrite_plan hvb (by decide) (by decide) (by decide)))
    rw [hcred.held, held_extend hv]

/-! ## What is spelled out of memory -/

theorem get_append (l l' : List (String × Value)) (key : String) :
    (Value.object (l ++ l')).get key =
      ((Value.object l).get key).or ((Value.object l').get key) := by
  show ((l ++ l').find? _).map Prod.snd = ((l.find? _).map Prod.snd).or ((l'.find? _).map Prod.snd)
  rw [List.find?_append]
  cases l.find? fun f => f.1 = key <;> rfl

theorem get_optional_field (name key : String) (v : Option Value) :
    (Value.object (optionalField name v)).get key = if name = key then v else none := by
  cases v with
  | none => simp [optionalField, Value.get]
  | some v =>
    by_cases h : name = key <;> simp [optionalField, Value.get, h]

theorem get_others (others : OtherFields) {key : String} (h : key ∈ namedKeys) :
    (Value.object others.1).get key = none := by
  show (others.1.find? _).map Prod.snd = none
  rw [List.find?_eq_none.mpr]
  · rfl
  · intro f hf
    have := others.2 f hf
    rw [decide_eq_true_iff]
    rintro rfl
    exact this h

theorem get_credential_fields (c : Credentials) {key : String} (h : key ∉ credentialKeys) :
    (Value.object c.fields).get key = none := by
  obtain ⟨a, r, e⟩ := c
  simp only [credentialKeys, List.mem_cons, List.not_mem_nil, or_false, not_or] at h
  cases r <;> cases e <;>
    simp [Credentials.fields, optionalField, Value.get, Ne.symm h.1, Ne.symm h.2.1, Ne.symm h.2.2]

/-- The fields of a serialized account, one place after the other. -/
theorem get_to_entry (a : StoredAccount) (key : String) : a.toEntry.get key =
    ((((((((((((if "name" = key then some (.string a.name)
      else if "type" = key then some (.string a.accountType.spelling) else none).or
    (if "provider" = key then a.provider.spelling else none)).or
    (if "accountUuid" = key then a.accountUuid.map .string else none)).or
    (if "orgUuid" = key then a.orgUuid.map .string else none)).or
    (if "orgName" = key then a.orgName.map .string else none)).or
    ((Value.object a.credentials.fields).get key)).or
    (if "priority" = key then a.priority.map .ofI64 else none)).or
    (if "organizationType" = key then a.organizationType.map .string else none)).or
    (if "rateLimitTier" = key then a.rateLimitTier.map .string else none)).or
    (if "seatTier" = key then a.seatTier.map .string else none)).or
    (if "codexHome" = key then a.codexHome.map .string else none)).or
    ((Value.object a.others.1).get key)) := by
  have hhead : (Value.object [("name", .string a.name),
      ("type", .string a.accountType.spelling)]).get key =
      if "name" = key then some (.string a.name)
      else if "type" = key then some (.string a.accountType.spelling) else none := by
    by_cases hn : "name" = key
    · simp [Value.get, hn]
    · by_cases ht : "type" = key <;> simp [Value.get, hn, ht]
  unfold StoredAccount.toEntry
  simp only [get_append, get_optional_field, hhead]

theorem get_to_entry_identity (a : StoredAccount) :
    a.toEntry.get "name" = some (.string a.name) ∧
      a.toEntry.get "provider" = a.provider.spelling ∧
      a.toEntry.get "accountUuid" = a.accountUuid.map .string ∧
      a.toEntry.get "orgUuid" = a.orgUuid.map .string ∧
      a.toEntry.get "orgName" = a.orgName.map .string := by
  have hothers : ∀ key ∈ namedKeys, (Value.object a.others.1).get key = none :=
    fun _ => get_others a.others
  have hcred : ∀ key, key ∉ credentialKeys → (Value.object a.credentials.fields).get key = none :=
    fun _ => get_credential_fields a.credentials
  refine ⟨?_, ?_, ?_, ?_, ?_⟩ <;> rw [get_to_entry, hothers _ (by decide), hcred _ (by decide)] <;>
    simp

theorem optional_str_of_get {v : Value} {key : String} {x : Option String}
    (h : v.get key = x.map .string) : optionalStr v key = some x := by
  unfold optionalStr
  rw [h]
  cases x <;> rfl

theorem disk_identity_of_get {v : Value} {stored : DiskIdentity}
    (hname : v.get "name" = some (.string stored.name))
    (hu : v.get "accountUuid" = stored.accountUuid.map .string)
    (ho : v.get "orgUuid" = stored.orgUuid.map .string)
    (hn : v.get "orgName" = stored.orgName.map .string) :
    DiskIdentity.ofEntry v = some stored := by
  unfold DiskIdentity.ofEntry
  rw [optional_str_of_get hu, optional_str_of_get ho, optional_str_of_get hn, Value.str, hname]
  rfl

theorem provider_of_get {v : Value} {provider : Provider}
    (h : v.get "provider" = provider.spelling) : providerOfEntry v = some provider := by
  unfold providerOfEntry
  rw [h]
  cases provider <;> rfl

theorem to_entry_probe (a : StoredAccount) : probeOfEntry a.toEntry = .ok a.identity := by
  obtain ⟨hname, hprovider, hu, ho, hn⟩ := get_to_entry_identity a
  have hstored : DiskIdentity.ofEntry a.toEntry =
      some { name := a.name, accountUuid := a.accountUuid, orgUuid := a.orgUuid,
             orgName := a.orgName } := disk_identity_of_get hname hu ho hn
  have hobj : a.toEntry.isObject = true := rfl
  unfold probeOfEntry
  rw [if_pos hobj, hstored]
  dsimp only
  rw [provider_of_get hprovider]
  rfl

theorem to_entry_key (a : StoredAccount) : entryKey a.toEntry = a.key := by
  rw [entryKey, to_entry_probe]
  rfl

/-- The credential fields of a serialized account are the serialized credentials. -/
theorem get_to_entry_credential (a : StoredAccount) :
    ∀ key ∈ credentialKeys, a.toEntry.get key = (Value.object a.credentials.fields).get key := by
  intro key hkey
  rw [get_to_entry, get_others a.others (by revert key; decide)]
  simp only [credentialKeys, List.mem_cons, List.not_mem_nil, or_false] at hkey
  rcases hkey with rfl | rfl | rfl <;> simp

theorem to_entry_held (a : StoredAccount) : heldOf a.toEntry = a.credentials.onto none := by
  have hagree : AgreeOn credentialKeys (.object a.credentials.fields) a.toEntry :=
    ⟨rfl, get_to_entry_credential a⟩
  rw [hagree.held]
  obtain ⟨t, r, e⟩ := a.credentials
  cases r <;> cases e <;>
    simp [heldOf, Credentials.fields, optionalField, Value.str, Value.get, Value.asStr,
      Credentials.onto, Value.to_i64_of_i64]

theorem new_entry_effect (file : List Value) (a : StoredAccount) :
    entryKey (newEntry file a) = a.key ∧ heldOf (newEntry file a) = a.credentials.onto none := by
  have hagree : ∀ keys : List String, "priority" ∉ keys → "credentialVersion" ∉ keys →
      AgreeOn keys a.toEntry (newEntry file a) := by
    intro keys hp hv
    unfold newEntry
    cases a.priority with
    | none => exact (agree_insert rfl hp _).trans (agree_stamp rfl hv _)
    | some p => exact agree_stamp rfl hv _
  rw [(hagree identityKeys (by decide) (by decide)).entry_key, to_entry_key,
    (hagree credentialKeys (by decide) (by decide)).held, to_entry_held]
  exact ⟨rfl, rfl⟩

/-- A row written from memory has the account's key and the credentials of memory. -/
theorem snapshot_entry_effect (a : StoredAccount) :
    a.snapshotEntry.isObject = true ∧ entryKey a.snapshotEntry = a.key ∧
      heldOf a.snapshotEntry = a.credentials.onto none := by
  have hagree : ∀ keys : List String, "credentialVersion" ∉ keys →
      AgreeOn keys a.toEntry a.snapshotEntry := by
    intro keys hv
    unfold StoredAccount.snapshotEntry
    cases a.provider with
    | anthropic => exact .refl keys _
    | codex => exact agree_stamp rfl hv _
  refine ⟨(hagree [] List.not_mem_nil).isObject, ?_, ?_⟩
  · rw [(hagree identityKeys (by decide)).entry_key, to_entry_key]
  · rw [(hagree credentialKeys (by decide)).held, to_entry_held]

theorem get_carry (source : Value) (keys : List String) {into : Value}
    (hv : into.isObject = true) :
    (keys.foldl (fun into key =>
      match source.get key with
      | some value => into.insert key value
      | none => into.remove key) into).isObject = true ∧
    ∀ key, (keys.foldl (fun into key =>
      match source.get key with
      | some value => into.insert key value
      | none => into.remove key) into).get key =
        if key ∈ keys then source.get key else into.get key := by
  induction keys generalizing into with
  | nil => exact ⟨hv, fun _ => rfl⟩
  | cons k keys ih =>
    simp only [List.foldl_cons]
    cases hk : source.get k with
    | none =>
      have hv' : (into.remove k).isObject = true := by simpa using hv
      refine ⟨(ih hv').1, fun key => ?_⟩
      rw [(ih hv').2, Value.get_remove]
      by_cases h : key = k <;> simp [h, hk]
    | some value =>
      have hv' : (into.insert k value).isObject = true := by simpa using hv
      refine ⟨(ih hv').1, fun key => ?_⟩
      rw [(ih hv').2, Value.get_insert hv]
      by_cases h : key = k <;> simp [h, hk]

/-- Carried credentials are those of the source, under the key of the row they reach. -/
theorem carry_effect (source : Value) {into : Value} (hv : into.isObject = true) :
    (carryCredentials source into).isObject = true ∧
      entryKey (carryCredentials source into) = entryKey into ∧
      heldOf (carryCredentials source into) = heldOf source := by
  obtain ⟨hobj, hget⟩ := get_carry source credentialKeys hv
  have hid : AgreeOn identityKeys into (carryCredentials source into) := by
    refine ⟨hobj.trans hv.symm, fun key hkey => (hget key).trans (if_neg ?_)⟩
    simp only [identityKeys, List.mem_cons, List.not_mem_nil, or_false] at hkey
    rcases hkey with rfl | rfl | rfl | rfl | rfl <;> decide
  refine ⟨hobj, hid.entry_key, ?_⟩
  have hkeys : ∀ key ∈ credentialKeys, (carryCredentials source into).get key = source.get key :=
    fun key hkey => (hget key).trans (if_pos hkey)
  unfold heldOf
  rw [Value.str_congr (hkeys "accessToken" (by decide)),
    Value.str_congr (hkeys "refreshToken" (by decide)), hkeys "expiresAt" (by decide)]

theorem str_of_optional_str {v : Value} {key : String} {x : Option String}
    (h : optionalStr v key = some x) : v.str key = x := by
  unfold optionalStr at h
  unfold Value.str
  split at h <;> rename_i hget <;> cases h <;> rw [hget] <;> rfl

theorem to_i64_of_optional {v : Value} {key : String} {x : Option Int64}
    (h : optionalI64 v key = some x) : (v.get key).bind Value.toI64 = x := by
  unfold optionalI64 at h
  split at h <;> rename_i hget
  · cases h
    rw [hget]
    rfl
  · cases h
    rw [hget]
    rfl
  · obtain ⟨n, hn, rfl⟩ := Option.map_eq_some_iff.mp h
    rw [hget]
    exact hn

structure EntryStatesAccount (entry : Value) (account : StoredAccount) : Prop where
  stored : DiskIdentity.ofEntry entry =
    some ⟨account.name, account.accountUuid, account.orgUuid, account.orgName⟩
  provider : providerOfEntry entry = some account.provider
  accountType : AccountType.ofEntry entry = some account.accountType
  accessToken : entry.str "accessToken" = some account.credentials.accessToken
  usable : account.accountType ≠ .apiKey ∧ account.credentials.accessToken ≠ ""
  refreshToken : optionalStr entry "refreshToken" = some account.credentials.refreshToken
  expiresAt : optionalI64 entry "expiresAt" = some account.credentials.expiresAt
  priority : optionalI64 entry "priority" = some account.priority
  organizationType : optionalStr entry "organizationType" = some account.organizationType
  rateLimitTier : optionalStr entry "rateLimitTier" = some account.rateLimitTier
  seatTier : optionalStr entry "seatTier" = some account.seatTier
  codexHome : optionalStr entry "codexHome" = some account.codexHome
  others : othersOfEntry entry = account.others

theorem of_entry_iff {entry : Value} {account : StoredAccount} :
    StoredAccount.ofEntry entry = some account ↔ EntryStatesAccount entry account := by
  have hbind : ∀ {α : Type} {x : Option α} {f : α → Option StoredAccount},
      (x >>= f) = some account ↔ ∃ v, x = some v ∧ f v = some account :=
    Option.bind_eq_some_iff
  unfold StoredAccount.ofEntry
  constructor
  · intro h
    obtain ⟨⟨_, _, _, _⟩, hstored, h⟩ := hbind.mp h
    obtain ⟨_, hprovider, h⟩ := hbind.mp h
    obtain ⟨_, htype, h⟩ := hbind.mp h
    obtain ⟨_, htoken, h⟩ := hbind.mp h
    obtain ⟨_, husable, h⟩ := hbind.mp h
    obtain ⟨_, hrefresh, h⟩ := hbind.mp h
    obtain ⟨_, hexpires, h⟩ := hbind.mp h
    obtain ⟨_, hpriority, h⟩ := hbind.mp h
    obtain ⟨_, hplan, h⟩ := hbind.mp h
    obtain ⟨_, htier, h⟩ := hbind.mp h
    obtain ⟨_, hseat, h⟩ := hbind.mp h
    obtain ⟨_, hhome, h⟩ := hbind.mp h
    cases h
    exact ⟨hstored, hprovider, htype, htoken, by simpa [guard] using husable, hrefresh, hexpires,
      hpriority, hplan, htier, hseat, hhome, rfl⟩
  · intro h
    refine hbind.mpr ⟨_, h.stored, hbind.mpr ⟨_, h.provider, hbind.mpr ⟨_, h.accountType,
      hbind.mpr ⟨_, h.accessToken, hbind.mpr ⟨(), by simp [guard, h.usable], ?_⟩⟩⟩⟩⟩
    refine hbind.mpr ⟨_, h.refreshToken, hbind.mpr ⟨_, h.expiresAt, hbind.mpr ⟨_, h.priority,
      hbind.mpr ⟨_, h.organizationType, hbind.mpr ⟨_, h.rateLimitTier, ?_⟩⟩⟩⟩⟩
    refine hbind.mpr ⟨_, h.seatTier, hbind.mpr ⟨_, h.codexHome, ?_⟩⟩
    rw [h.others]
    rfl

theorem is_object_of_entry {entry : Value} {a : StoredAccount}
    (h : StoredAccount.ofEntry entry = some a) : entry.isObject = true := by
  cases entry with
  | object fields => rfl
  | _ => cases (of_entry_iff.mp h).accessToken

/-- A loaded account has the key and the credentials of its entry. -/
theorem of_entry_effect {entry : Value} {a : StoredAccount}
    (h : StoredAccount.ofEntry entry = some a) :
    entryKey entry = a.key ∧ heldOf entry = a.credentials.onto none := by
  have hstates := of_entry_iff.mp h
  constructor
  · unfold entryKey probeOfEntry
    rw [if_pos (is_object_of_entry h), hstates.stored]
    dsimp only
    rw [hstates.provider]
    rfl
  · unfold heldOf Credentials.onto
    rw [hstates.accessToken, str_of_optional_str hstates.refreshToken,
      to_i64_of_optional hstates.expiresAt]
    simp

end TeamClaude
