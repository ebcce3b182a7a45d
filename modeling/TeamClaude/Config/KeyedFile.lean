import TeamClaude.Config.EntryKey
import TeamClaude.Config.MergePairs
import TeamClaude.Lib.Keyed

/-!
# Files of fully identified accounts

In a file whose accounts are all fully identified and pairwise different an entry and an account are
paired exactly when they have one key. What each writer and the loader do is then said key by key:
the file is a store of credentials, a write puts one account's, and a settings write puts a whole
copy back.
-/

namespace TeamClaude

open Lib Lib.Json Lib.Pairing Lib.StaleStore

/-- The credentials the file holds for an account. -/
def fileHeld (file : List Value) (k : IdKey) : Option Held :=
  (lookup entryKey file k).map heldOf

/-- The credentials a list of accounts in memory holds for an account. -/
def rowHeld (rows : List StoredAccount) (k : IdKey) : Option Held :=
  (lookup StoredAccount.key rows k).map fun a => a.credentials.onto none

section Keyed

variable {file : List Value} {rows : List StoredAccount} {k : IdKey}

theorem file_held_ne_none : fileHeld file k ≠ none ↔ ∃ e ∈ file, entryKey e = some k := by
  rw [fileHeld, Ne, Option.map_eq_none_iff, ← Ne, lookup_ne_none, List.mem_map]

theorem row_held_ne_none : rowHeld rows k ≠ none ↔ ∃ a ∈ rows, a.key = some k := by
  rw [rowHeld, Ne, Option.map_eq_none_iff, ← Ne, lookup_ne_none, List.mem_map]

/-! ## Pairing by key -/

theorem match_by_keyed {i p : Nat} :
    matchBy sameIdentity (probesOf file) (rows.map StoredAccount.identity) i p ↔
      ∃ e found a, file[i]? = some e ∧ probeOfEntry e = .ok found ∧ rows[p]? = some a ∧
        sameIdentity found a.identity = true := by
  rw [match_by_iff_candidate]
  constructor
  · rintro ⟨e, found, account, he, hok, hp, hsame⟩
    rw [List.getElem?_map, Option.map_eq_some_iff] at hp
    obtain ⟨a, ha, rfl⟩ := hp
    exact ⟨e, found, a, he, hok, ha, hsame⟩
  · rintro ⟨e, found, a, he, hok, ha, hsame⟩
    exact ⟨e, found, a.identity, he, hok, by rw [List.getElem?_map, ha]; rfl, hsame⟩

/-- Among fully identified accounts two match when their keys are one. -/
theorem match_iff_key (hfile : Keyed entryKey file) (hrows : Keyed StoredAccount.key rows)
    {i p : Nat} :
    matchBy sameIdentity (probesOf file) (rows.map StoredAccount.identity) i p ↔
      ∃ e a, file[i]? = some e ∧ rows[p]? = some a ∧ entryKey e = a.key := by
  rw [match_by_keyed]
  have hsame : ∀ {e : Value} {found : Account} {a : StoredAccount}, e ∈ file → a ∈ rows →
      probeOfEntry e = .ok found →
      (sameIdentity found a.identity = true ↔ entryKey e = a.key) := by
    intro e found a he ha hok
    obtain ⟨ke, hke⟩ := Option.isSome_iff_exists.mp (hfile.known e he)
    obtain ⟨ka, hka⟩ := Option.isSome_iff_exists.mp (hrows.known a ha)
    have hfound : found.idKey = some ke := by
      rw [entryKey, hok] at hke
      exact hke
    rw [same_identity_keyed hfound hka, hke, hka, Option.some.injEq]
  constructor
  · rintro ⟨e, found, a, he, hok, ha, h⟩
    exact ⟨e, a, he, ha, (hsame (List.mem_of_getElem? he) (List.mem_of_getElem? ha) hok).mp h⟩
  · rintro ⟨e, a, he, ha, h⟩
    obtain ⟨ke, hke⟩ := Option.isSome_iff_exists.mp (hfile.known e (List.mem_of_getElem? he))
    cases hok : probeOfEntry e with
    | error reason =>
      rw [entryKey, hok] at hke
      cases hke
    | ok found =>
      refine ⟨e, found, a, he, hok, ha, ?_⟩
      exact (hsame (List.mem_of_getElem? he) (List.mem_of_getElem? ha) hok).mpr h

/-- Among fully identified accounts an entry is written with the account of its key. -/
theorem writes_keyed (hfile : Keyed entryKey file) (hrows : Keyed StoredAccount.key rows)
    {i p : Nat} : Writes file (rows.map StoredAccount.identity) i p ↔
      ∃ e a, file[i]? = some e ∧ rows[p]? = some a ∧ entryKey e = a.key := by
  have hmatching := written_matching file (rows.map StoredAccount.identity)
  rw [writes_iff]
  constructor
  · exact fun h => (match_iff_key hfile hrows).mp (hmatching.loose (i, p) h)
  · intro h
    obtain ⟨e, a, he, ha, hkey⟩ := h
    refine (final_settled file _).2.2.mem_of_only hmatching ⟨?_, fun q hq => ?_⟩
      ⟨?_, fun j hj => ?_⟩
    · exact (match_iff_key hfile hrows).mpr ⟨e, a, he, ha, hkey⟩
    · obtain ⟨e', a', he', ha', hkey'⟩ := (match_iff_key hfile hrows).mp hq
      rw [he] at he'
      cases he'
      exact hrows.index_unique ha' ha (hkey'.symm.trans hkey)
    · exact (match_iff_key hfile hrows).mpr ⟨e, a, he, ha, hkey⟩
    · obtain ⟨e', a', he', ha', hkey'⟩ := (match_iff_key hfile hrows).mp hj
      rw [ha] at ha'
      cases ha'
      exact hfile.index_unique he' he (hkey'.trans hkey.symm)

theorem plan_merge_length (memory : List Account) : (planMerge file memory).length = file.length := by
  simp [planMerge]

/-- The plan of an entry: the account of its key, or no write. -/
theorem plan_at (hfile : Keyed entryKey file) (hrows : Keyed StoredAccount.key rows) {i : Nat}
    {e : Value} (he : file[i]? = some e) :
    ∃ name plan, (planMerge file (rows.map StoredAccount.identity))[i]? = some (name, plan) ∧
      ∀ p, plan = .write p ↔ ∃ a, rows[p]? = some a ∧ entryKey e = a.key := by
  have hlt : i < (planMerge file (rows.map StoredAccount.identity)).length := by
    rw [plan_merge_length]
    exact (List.getElem?_eq_some_iff.mp he).1
  obtain ⟨⟨name, plan⟩, hplan⟩ :
      ∃ x, (planMerge file (rows.map StoredAccount.identity))[i]? = some x :=
    ⟨_, List.getElem?_eq_getElem hlt⟩
  refine ⟨name, plan, hplan, fun p => ?_⟩
  have hwrites : Writes file (rows.map StoredAccount.identity) i p ↔ plan = .write p := by
    unfold Writes
    rw [hplan]
    simp
  rw [← hwrites, writes_keyed hfile hrows]
  constructor
  · rintro ⟨e', a, he', ha, hkey⟩
    rw [he] at he'
    cases he'
    exact ⟨a, ha, hkey⟩
  · rintro ⟨a, ha, hkey⟩
    exact ⟨e, a, he, ha, hkey⟩

/-! ## Writes of one account -/

theorem held_map_at (hfile : Keyed entryKey file) {c : Credentials} {f : Value → Value}
    (hf : ∀ e ∈ file, entryKey e = some k →
      entryKey (f e) = some k ∧ heldOf (f e) = c.onto (some (heldOf e)))
    (hin : ∃ e ∈ file, entryKey e = some k) :
    Keyed entryKey (file.map fun e => if entryKey e = some k then f e else e) ∧
      fileHeld (file.map fun e => if entryKey e = some k then f e else e) =
        put credentialWriting (fileHeld file) k c := by
  have hkey : ∀ e ∈ file, entryKey (if entryKey e = some k then f e else e) = entryKey e := by
    intro e he
    split
    · rename_i hk
      rw [(hf e he hk).1, hk]
    · rfl
  refine ⟨hfile.map hkey, funext fun k' => ?_⟩
  rw [fileHeld, lookup_map hkey, Option.map_map]
  unfold put
  by_cases hk : k' = k
  · subst hk
    obtain ⟨e, he, hek⟩ := hin
    have hfound := (lookup_eq_some hfile).mpr ⟨he, hek⟩
    rw [Function.update_self, hfound, fileHeld, hfound]
    show some (heldOf (if entryKey e = some k' then f e else e)) = _
    rw [if_pos hek, (hf e he hek).2]
    rfl
  · rw [Function.update_of_ne hk, fileHeld]
    cases hfound : lookup entryKey file k' with
    | none => rfl
    | some e =>
      have hek := ((lookup_eq_some hfile).mp hfound).2
      show some (heldOf (if entryKey e = some k then f e else e)) = _
      rw [if_neg (by rw [hek]; exact fun h => hk (Option.some.inj h))]
      rfl

/-- A token write of one account changes the entry of its key. -/
theorem merge_tokens_eq (hfile : Keyed entryKey file) (hrows : Keyed StoredAccount.key rows)
    {position : Nat} {a : StoredAccount} (ha : rows[position]? = some a) :
    mergeTokens file rows (.only position) =
      file.map fun e => if entryKey e = a.key then mergeEntry e a else e := by
  refine List.ext_getElem? fun i => ?_
  rw [mergeTokens, List.getElem?_map, List.getElem?_map]
  cases he : file[i]? with
  | none =>
    have hnone : (file.zip (planMerge file (rows.map StoredAccount.identity)))[i]? = none := by
      rw [List.getElem?_eq_none_iff, List.length_zip]
      have hlen := List.getElem?_eq_none_iff.mp he
      omega
    rw [hnone]
    rfl
  | some e =>
    obtain ⟨name, plan, hplan, hwrite⟩ := plan_at hfile hrows he
    have hzip : (file.zip (planMerge file (rows.map StoredAccount.identity)))[i]? =
        some (e, name, plan) := List.getElem?_zip_eq_some.mpr ⟨he, hplan⟩
    rw [hzip]
    show some _ = some _
    refine congrArg some ?_
    cases plan with
    | skip reason =>
      have hne : entryKey e ≠ a.key := fun h => nomatch (hwrite position).mpr ⟨a, ha, h⟩
      exact (if_neg hne).symm
    | write p =>
      obtain ⟨b, hb, hkey⟩ := (hwrite p).mp rfl
      dsimp only
      by_cases hp : p = position
      · subst hp
        rw [ha] at hb
        cases hb
        rw [if_pos (by simp [CredentialScope.covers]), if_pos hkey, ha]
      · have hne : entryKey e ≠ a.key :=
          fun h => hp (hrows.index_unique hb ha (hkey.symm.trans h))
        rw [if_neg (by simpa [CredentialScope.covers] using hp), if_neg hne]

/-- Some entry is planned for the account. -/
def tokensLand (file : List Value) (rows : List StoredAccount) (position : Nat) : Bool :=
  (planMerge file (rows.map StoredAccount.identity)).any fun c => c.2 = .write position

theorem tokens_land_iff (hfile : Keyed entryKey file) (hrows : Keyed StoredAccount.key rows)
    {position : Nat} {a : StoredAccount} (ha : rows[position]? = some a) (hk : a.key = some k) :
    tokensLand file rows position = true ↔ ∃ e ∈ file, entryKey e = some k := by
  rw [tokensLand, List.any_eq_true]
  constructor
  · rintro ⟨⟨name, plan⟩, hmem, hplan⟩
    obtain ⟨i, hi⟩ := List.mem_iff_getElem?.mp hmem
    have hw : Writes file (rows.map StoredAccount.identity) i position := by
      unfold Writes
      rw [hi]
      exact congrArg some (by simpa using hplan)
    obtain ⟨e, b, he, hb, hkey⟩ := (writes_keyed hfile hrows).mp hw
    rw [ha] at hb
    cases hb
    exact ⟨e, List.mem_of_getElem? he, hkey.trans hk⟩
  · rintro ⟨e, he, hek⟩
    obtain ⟨i, hi⟩ := List.mem_iff_getElem?.mp he
    obtain ⟨name, plan, hplan, hwrite⟩ := plan_at hfile hrows hi
    have hw := (hwrite position).mpr ⟨a, ha, hek.trans hk.symm⟩
    exact ⟨(name, plan), List.mem_of_getElem? hplan, by simpa using hw⟩

/-- A token write puts the credentials of an account the file has, and changes nothing else. -/
theorem merge_tokens_held (hfile : Keyed entryKey file) (hrows : Keyed StoredAccount.key rows)
    {position : Nat} {a : StoredAccount} (ha : rows[position]? = some a) (hk : a.key = some k) :
    Keyed entryKey (mergeTokens file rows (.only position)) ∧
      fileHeld (mergeTokens file rows (.only position)) =
        if tokensLand file rows position then put credentialWriting (fileHeld file) k a.credentials
        else fileHeld file := by
  rw [merge_tokens_eq hfile hrows ha, hk]
  split
  · rename_i hland
    exact held_map_at hfile (fun e _ hek => merge_entry_effect a hek)
      ((tokens_land_iff hfile hrows ha hk).mp hland)
  · rename_i hland
    have hsame : (file.map fun e => if entryKey e = some k then mergeEntry e a else e) = file := by
      refine (List.map_congr_left fun e he => ?_).trans (List.map_id file)
      exact if_neg fun hek => hland ((tokens_land_iff hfile hrows ha hk).mpr ⟨e, he, hek⟩)
    rw [hsame]
    exact ⟨hfile, rfl⟩

/-! ## Account writes -/

theorem mem_located {i : Nat} {found : Account} :
    (i, found) ∈ (file.zipIdx.filterMap fun c =>
      (probeOfEntry c.1).toOption.map fun found => (c.2, found)) ↔
      ∃ e, file[i]? = some e ∧ probeOfEntry e = .ok found := by
  rw [List.mem_filterMap]
  constructor
  · rintro ⟨⟨e, j⟩, hc, hfound⟩
    obtain ⟨found', hok, he⟩ := Option.map_eq_some_iff.mp hfound
    cases he
    refine ⟨e, List.mem_zipIdx_iff_getElem?.mp hc, ?_⟩
    cases hp : probeOfEntry e with
    | error reason =>
      rw [hp] at hok
      cases hok
    | ok x =>
      rw [hp] at hok
      cases hok
      rfl
  · rintro ⟨e, he, hok⟩
    exact ⟨(e, i), List.mem_zipIdx_iff_getElem?.mpr he, by rw [hok]; rfl⟩

theorem nodup_located : ((file.zipIdx.filterMap fun c =>
    (probeOfEntry c.1).toOption.map fun found => (c.2, found)).map Prod.fst).Nodup := by
  have hsub : ((file.zipIdx.filterMap fun c =>
      (probeOfEntry c.1).toOption.map fun found => (c.2, found)).map Prod.fst).Sublist
      (file.zipIdx.map Prod.snd) := by
    generalize file.zipIdx = l
    induction l with
    | nil => exact .refl _
    | cons c l ih =>
      rw [List.filterMap_cons, List.map_cons]
      cases probeOfEntry c.1 with
      | error reason => exact ih.cons _
      | ok found => exact ih.cons_cons _
  exact List.Nodup.sublist hsub (List.zipIdx_map_snd 0 file ▸ List.nodup_range')

theorem locate_keyed (hfile : Keyed entryKey file) {a : StoredAccount} (hk : a.key = some k) :
    (∃ index e, locateAccountEntry file a.identity = .one index ∧ file[index]? = some e ∧
        entryKey e = some k) ∨
      (locateAccountEntry file a.identity = .none ∧ ∀ e ∈ file, entryKey e ≠ some k) := by
  have hsame : ∀ e found, e ∈ file → probeOfEntry e = .ok found →
      (sameIdentity a.identity found = true ↔ entryKey e = some k) := by
    intro e found he hok
    obtain ⟨ke, hke⟩ := Option.isSome_iff_exists.mp (hfile.known e he)
    have hfound : found.idKey = some ke := by
      rw [entryKey, hok] at hke
      exact hke
    rw [same_identity_keyed hk hfound, hke, Option.some.injEq, eq_comm]
  by_cases hin : ∃ e ∈ file, entryKey e = some k
  · obtain ⟨e, he, hek⟩ := hin
    obtain ⟨index, hindex⟩ := List.mem_iff_getElem?.mp he
    refine .inl ⟨index, e, (resolve_among_one nodup_located).mpr (.inl ⟨?_, ?_⟩), hindex, hek⟩
    · cases hok : probeOfEntry e with
      | error reason =>
        rw [entryKey, hok] at hek
        cases hek
      | ok found => exact ⟨found, mem_located.mpr ⟨e, hindex, hok⟩, (hsame e found he hok).mpr hek⟩
    · rintro j ⟨found, hj, hfound⟩
      obtain ⟨e', he', hok'⟩ := mem_located.mp hj
      have hek' := (hsame e' found (List.mem_of_getElem? he') hok').mp hfound
      exact hfile.index_unique he' hindex (hek'.trans hek.symm)
  · refine .inr ⟨resolve_among_none fun c hc => ?_, fun e he hek => hin ⟨e, he, hek⟩⟩
    obtain ⟨e, he, hok⟩ := mem_located.mp (show (c.1, c.2) ∈ _ from hc)
    refine Bool.eq_false_iff.mpr fun h => hin ⟨e, List.mem_of_getElem? he, ?_⟩
    exact (hsame e c.2 (List.mem_of_getElem? he) hok).mp h

/-- An account write puts the account's credentials, whether it finds an entry or appends one. -/
theorem merge_account_held (hfile : Keyed entryKey file) {a : StoredAccount} (hk : a.key = some k) :
    Keyed entryKey (mergeAccount file a).1 ∧
      fileHeld (mergeAccount file a).1 =
        put credentialWriting (fileHeld file) k a.credentials ∧
      ((mergeAccount file a).2 = .added ∨ (mergeAccount file a).2 = .updated) := by
  unfold mergeAccount
  rcases locate_keyed hfile hk with ⟨index, e, hlocate, hindex, hek⟩ | ⟨hlocate, hnone⟩
  · rw [hlocate]
    have heq : (file.modify index fun entry => updateEntry entry a) =
        file.map fun e => if entryKey e = some k then updateEntry e a else e := by
      refine List.ext_getElem? fun j => ?_
      rw [List.getElem?_modify, List.getElem?_map]
      cases hj : file[j]? with
      | none => split <;> rfl
      | some e' =>
        by_cases h : index = j
        · subst h
          rw [hindex] at hj
          cases hj
          simp [hek]
        · have hne : entryKey e' ≠ some k :=
            fun hek' => h (hfile.index_unique hindex hj (hek.trans hek'.symm))
          simp [h, hne]
    dsimp only
    rw [heq]
    obtain ⟨hkeyed, hheld⟩ := held_map_at hfile (fun e _ hek => update_entry_effect hek hk)
      ⟨e, List.mem_of_getElem? hindex, hek⟩
    exact ⟨hkeyed, hheld, .inr rfl⟩
  · rw [hlocate]
    obtain ⟨hkey, hheld⟩ := new_entry_effect file a
    rw [hk] at hkey
    refine ⟨hfile.append_singleton (by rw [hkey]; rfl) fun e he => hkey ▸ hnone e he,
      funext fun k' => ?_, .inl rfl⟩
    rw [fileHeld, lookup_append_singleton, hkey]
    unfold put
    by_cases h : k' = k
    · subst h
      have hno : lookup entryKey file k' = none := lookup_eq_none.mpr hnone
      rw [Function.update_self, fileHeld, hno, if_pos rfl, Option.none_or]
      exact congrArg some hheld
    · rw [Function.update_of_ne h, if_neg (fun he => h (Option.some.inj he).symm), Option.or_none,
        fileHeld]

/-! ## Settings writes -/

/-- One step of carrying: the row at the planned position takes the entry's credentials. -/
theorem carry_fold (plan : List (Value × Option String × EntryPlan)) (out : List Value) (p : Nat)
    (hone : plan.Pairwise fun c d => ¬ (c.2.2 = .write p ∧ d.2.2 = .write p)) :
    (plan.foldl carryEntry out)[p]? =
      match plan.find? fun c => c.2.2 = .write p with
      | some c => out[p]?.map (carryCredentials c.1)
      | none => out[p]? := by
  induction plan generalizing out with
  | nil => rfl
  | cons c plan ih =>
    obtain ⟨hc, hrest⟩ := List.pairwise_cons.mp hone
    rw [List.foldl_cons, ih _ hrest, List.find?_cons, carryEntry]
    cases hplan : c.2.2 with
    | skip reason => simp
    | write position =>
      by_cases hp : position = p
      · subst hp
        have hnone : plan.find? (fun c => c.2.2 = .write position) = none :=
          List.find?_eq_none.mpr fun d hd h => hc d hd ⟨hplan, by simpa using h⟩
        simp only [hnone]
        simp
      · have hne : (decide (EntryPlan.write position = .write p)) = false := by simpa using hp
        simp only [hne]
        cases plan.find? fun c => c.2.2 = .write p with
        | none => simp [hp]
        | some d => simp [hp]

/-- A row of a settings write: spelled out of memory, with the credentials of its entry. -/
def settingsRow (file : List Value) (a : StoredAccount) : Value :=
  match a.key.bind (lookup entryKey file) with
  | some e => carryCredentials e a.snapshotEntry
  | none => a.snapshotEntry

/-- A settings write spells the list of memory, each row with the credentials of its entry. -/
theorem save_settings_eq (hfile : Keyed entryKey file) (hrows : Keyed StoredAccount.key rows) :
    saveSettings file rows = rows.map (settingsRow file) := by
  refine List.ext_getElem? fun p => ?_
  have hat : ∀ (i : Nat) (c : Value × Option String × EntryPlan),
      (file.zip (planMerge file (rows.map StoredAccount.identity)))[i]? = some c →
      (c.2.2 = .write p ↔ ∃ a, rows[p]? = some a ∧ entryKey c.1 = a.key) ∧ file[i]? = some c.1 := by
    intro i c hc
    obtain ⟨he, hplan⟩ := List.getElem?_zip_eq_some.mp hc
    obtain ⟨name, plan, hplan', hwrite⟩ := plan_at hfile hrows he
    rw [hplan] at hplan'
    rw [Option.some.inj hplan']
    exact ⟨hwrite p, he⟩
  have hone : (file.zip (planMerge file (rows.map StoredAccount.identity))).Pairwise
      fun c d => ¬ (c.2.2 = .write p ∧ d.2.2 = .write p) := by
    refine List.pairwise_iff_getElem.mpr fun i j hi hj hij h => ?_
    obtain ⟨hwi, hei⟩ := hat i _ (List.getElem?_eq_getElem hi)
    obtain ⟨hwj, hej⟩ := hat j _ (List.getElem?_eq_getElem hj)
    obtain ⟨a, ha, hka⟩ := hwi.mp h.1
    obtain ⟨b, hb, hkb⟩ := hwj.mp h.2
    rw [ha] at hb
    cases hb
    exact absurd (hfile.index_unique hei hej (hka.trans hkb.symm)) (Nat.ne_of_lt hij)
  rw [saveSettings, carryDiskCredentials, carry_fold _ _ _ hone, List.getElem?_map,
    List.getElem?_map]
  cases ha : rows[p]? with
  | none =>
    split <;> rfl
  | some a =>
    obtain ⟨k, hk⟩ := Option.isSome_iff_exists.mp (hrows.known a (List.mem_of_getElem? ha))
    show _ = some (settingsRow file a)
    unfold settingsRow
    rw [hk, Option.bind_some]
    split
    · rename_i c hfound
      obtain ⟨i, hi⟩ := List.mem_iff_getElem?.mp (List.mem_of_find?_eq_some hfound)
      obtain ⟨hw, he⟩ := hat i c hi
      obtain ⟨b, hb, hkey⟩ := hw.mp (by simpa using List.find?_some hfound)
      rw [ha] at hb
      cases hb
      rw [(lookup_eq_some hfile).mpr ⟨List.mem_of_getElem? he, hkey.trans hk⟩]
      rfl
    · rename_i hfound
      have hno : lookup entryKey file k = none := by
        refine lookup_eq_none.mpr fun e he hek => ?_
        obtain ⟨i, hi⟩ := List.mem_iff_getElem?.mp he
        obtain ⟨name, plan, hplan, hwrite⟩ := plan_at hfile hrows hi
        have hzip : (file.zip (planMerge file (rows.map StoredAccount.identity)))[i]? =
            some (e, name, plan) := List.getElem?_zip_eq_some.mpr ⟨hi, hplan⟩
        have hw := (hwrite p).mpr ⟨a, ha, hek.trans hk.symm⟩
        exact List.find?_eq_none.mp hfound _ (List.mem_of_getElem? hzip) (by simpa using hw)
      rw [hno]
      rfl

theorem settings_row_effect (file : List Value) (a : StoredAccount) :
    entryKey (settingsRow file a) = a.key ∧
      heldOf (settingsRow file a) =
        ((a.key.bind (fileHeld file)).getD (a.credentials.onto none)) := by
  obtain ⟨hobj, hkey, hheld⟩ := snapshot_entry_effect a
  unfold settingsRow fileHeld
  cases hk : a.key with
  | none =>
    rw [hk] at hkey
    exact ⟨hkey, hheld⟩
  | some k =>
    rw [hk] at hkey
    simp only [Option.bind_some]
    cases lookup entryKey file k with
    | none => exact ⟨hkey, hheld⟩
    | some e =>
      obtain ⟨-, hkey', hheld'⟩ := carry_effect e hobj
      exact ⟨hkey'.trans hkey, hheld'⟩

/-- A settings write puts the copy in memory back over the file. -/
theorem save_settings_held (hfile : Keyed entryKey file) (hrows : Keyed StoredAccount.key rows)
    (loaded : Set IdKey) : Keyed entryKey (saveSettings file rows) ∧
      fileHeld (saveSettings file rows) =
        writeBack (fileHeld file) { loaded := loaded, rows := rowHeld rows } := by
  rw [save_settings_eq hfile hrows]
  have hkey : ∀ a ∈ rows, entryKey (settingsRow file a) = a.key :=
    fun a _ => (settings_row_effect file a).1
  refine ⟨hrows.map hkey, funext fun k => ?_⟩
  show fileHeld (rows.map (settingsRow file)) k =
    (rowHeld rows k).map fun v => (fileHeld file k).getD v
  rw [fileHeld, lookup_map hkey, rowHeld, Option.map_map, Option.map_map]
  cases hfound : lookup StoredAccount.key rows k with
  | none => rfl
  | some a =>
    have hk := ((lookup_eq_some hrows).mp hfound).2
    have hheld := (settings_row_effect file a).2
    rw [hk, Option.bind_some] at hheld
    exact congrArg some hheld

/-! ## Loading -/

theorem stamp_loaded_effect {e : Value} (he : (entryKey e).isSome) :
    entryKey (stampLoaded e) = entryKey e ∧ heldOf (stampLoaded e) = heldOf e := by
  obtain ⟨k, hk⟩ := Option.isSome_iff_exists.mp he
  have hv := entry_key_is_object hk
  unfold stampLoaded
  cases providerOfEntry e with
  | none => exact ⟨rfl, rfl⟩
  | some provider =>
    have hid : AgreeOn identityKeys e (stampCredentialVersion e provider) :=
      agree_stamp hv (by decide) provider
    have hcred : AgreeOn credentialKeys e (stampCredentialVersion e provider) :=
      agree_stamp hv (by decide) provider
    exact ⟨hid.entry_key, hcred.held⟩

theorem load_entries_held {f : Value → Option StoredAccount}
    (hf : ∀ e ∈ file, ∀ a, f e = some a →
      a.key = entryKey e ∧ a.credentials.onto none = heldOf e)
    (h : file.mapM f = some rows) :
    rows.map StoredAccount.key = file.map entryKey ∧ rowHeld rows = fileHeld file := by
  induction file generalizing rows with
  | nil =>
    rw [List.mapM_nil, Option.pure_def, Option.some.injEq] at h
    subst h
    exact ⟨rfl, rfl⟩
  | cons e file ih =>
    simp only [List.mapM_cons, Option.bind_eq_bind, Option.bind_eq_some_iff, Option.pure_def,
      Option.some.injEq] at h
    obtain ⟨a, ha, rest, hrest, rfl⟩ := h
    obtain ⟨hkey, hheld⟩ := hf e List.mem_cons_self a ha
    obtain ⟨hkeys, hrows⟩ := ih (fun e he => hf e (List.mem_cons_of_mem _ he)) hrest
    refine ⟨by rw [List.map_cons, List.map_cons, hkey, hkeys], funext fun k => ?_⟩
    have hk := congrFun hrows k
    unfold rowHeld fileHeld Lib.lookup at hk ⊢
    rw [List.find?_cons, List.find?_cons, hkey]
    split
    · exact congrArg some hheld
    · exact hk

/-- What is loaded are the accounts of the file with the credentials it holds. -/
theorem load_accounts_held (hfile : Keyed entryKey file) (hload : loadAccounts file = some rows) :
    Keyed StoredAccount.key rows ∧ rowHeld rows = fileHeld file := by
  unfold loadAccounts at hload
  split at hload
  · obtain ⟨hkeys, hheld⟩ := load_entries_held (fun e he a ha => by
      obtain ⟨hkey, hcred⟩ := of_entry_effect ha
      obtain ⟨hkey', hcred'⟩ := stamp_loaded_effect (hfile.known e he)
      exact ⟨hkey.symm.trans hkey', hcred.symm.trans hcred'⟩) hload
    exact ⟨hfile.of_map_eq hkeys, hheld⟩
  · cases hload

/-! ## Renaming -/

theorem held_renamed (hfile : Keyed entryKey file) (i : Nat) (name : String) :
    Keyed entryKey (file.modify i fun e => e.insert "name" (.string name)) ∧
      fileHeld (file.modify i fun e => e.insert "name" (.string name)) = fileHeld file := by
  have hkey : ∀ e ∈ file, entryKey (e.insert "name" (.string name)) = entryKey e ∧
      heldOf (e.insert "name" (.string name)) = heldOf e := by
    intro e he
    obtain ⟨k, hk⟩ := Option.isSome_iff_exists.mp (hfile.known e he)
    have hcred : AgreeOn credentialKeys e (e.insert "name" (.string name)) :=
      agree_insert (entry_key_is_object hk) (by decide) _
    exact ⟨entry_key_rename (hfile.known e he), hcred.held⟩
  exact ⟨hfile.modify (fun e he => (hkey e he).1) i, funext fun k => lookup_modify_map hkey⟩

end Keyed

end TeamClaude
