import TeamClaude.Config.KeyedFile
import TeamClaude.Lib.Exec

/-!
# Processes over one config file

Any number of processes load the file, keep what they loaded as long as they like, and write it in
one of three ways. Two of them touch only the accounts they write; a settings write spells the whole
account list from memory, so it loses an account that joined the file after the load and brings back
one that left it.
-/

namespace TeamClaude

open Lib Lib.Json Lib.StaleStore

/-- What a process loaded, and its copy with the edits and rotations made since. -/
structure LoadedConfig where
  loaded : List StoredAccount
  rows : List StoredAccount

/-- The accounts of the file, what each process holds, and the last credentials written for each
account. -/
structure FileState where
  file : List Value
  processes : Nat → Option LoadedConfig := fun _ => none
  written : IdKey → Option Credentials := fun _ => none

/-- One operation of one process on the file, or on its own copy. -/
inductive FileLabel
  /-- Loading renames duplicated names in the file and in the copy, as the loader mints them. -/
  | load (p : Nat) (renames : List (Nat × String))
  | saveAccount (account : StoredAccount)
  /-- New credentials of one account in the copy are saved under `Only`. -/
  | saveTokens (p : Nat) (position : Nat) (credentials : Credentials)
  | editSettings (p : Nat) (position : Nat) (priority : Option Int64) (others : OtherFields)
  | editRemove (p : Nat) (position : Nat)
  | saveSettings (p : Nat)

namespace FileState

def renameEntries (file : List Value) (renames : List (Nat × String)) : List Value :=
  renames.foldl (fun file r => file.modify r.1 fun e => e.insert "name" (.string r.2)) file

def renameRows (rows : List StoredAccount) (renames : List (Nat × String)) : List StoredAccount :=
  renames.foldl (fun rows r => rows.modify r.1 fun a => { a with name := r.2 }) rows

def editRows (s : FileState) (p : Nat) (edit : List StoredAccount → List StoredAccount) :
    FileState :=
  match s.processes p with
  | none => s
  | some c =>
    { s with processes := Function.update s.processes p (some { c with rows := edit c.rows }) }

def step (s : FileState) : FileLabel → FileState
  | .load p renames =>
    match loadAccounts s.file with
    | none => s
    | some rows =>
      let rows := renameRows rows renames
      { s with
        file := renameEntries s.file renames
        processes := Function.update s.processes p (some { loaded := rows, rows := rows }) }
  | .saveAccount account =>
    let saved := mergeAccount s.file account
    { s with
      file := saved.1
      written :=
        match account.key, saved.2 with
        | some k, .added => Function.update s.written k (some account.credentials)
        | some k, .updated => Function.update s.written k (some account.credentials)
        | _, _ => s.written }
  | .saveTokens p position credentials =>
    match s.processes p with
    | none => s
    | some c =>
      match c.rows[position]? with
      | none => s
      | some a =>
        let rows := c.rows.set position { a with credentials := credentials }
        { file := mergeTokens s.file rows (.only position)
          processes := Function.update s.processes p (some { c with rows := rows })
          written :=
            match a.key, tokensLand s.file rows position with
            | some k, true => Function.update s.written k (some credentials)
            | _, _ => s.written }
  | .editSettings p position priority others =>
    s.editRows p fun rows => rows.modify position fun a =>
      { a with priority := priority, others := others }
  | .editRemove p position => s.editRows p fun rows => rows.eraseIdx position
  | .saveSettings p =>
    match s.processes p with
    | none => s
    | some c => { s with file := TeamClaude.saveSettings s.file c.rows }

def InFile (s : FileState) (k : IdKey) : Prop :=
  ∃ e ∈ s.file, entryKey e = some k

instance (s : FileState) (k : IdKey) : Decidable (s.InFile k) :=
  inferInstanceAs (Decidable (∃ e ∈ s.file, entryKey e = some k))

/-- Every account in the file holds exactly what the last write of it said. -/
def CredentialsKept (s : FileState) : Prop :=
  ∀ e ∈ s.file, ∀ k c, entryKey e = some k → s.written k = some c → c.Kept (heldOf e)

/-- Whatever leaves the file in a step is written away by a process that had loaded it and has
removed it from its copy. -/
def AccountsStay (s : FileState) (l : FileLabel) : Prop :=
  ∀ k, s.InFile k → ¬ (s.step l).InFile k → ∃ p c, l = .saveSettings p ∧ s.processes p = some c ∧
    (∃ a ∈ c.loaded, a.key = some k) ∧ ∀ a ∈ c.rows, a.key ≠ some k

/-- A settings write comes from a copy that was loaded with every account now in the file, and
whose accounts that have left the file carry the credentials last written for them. -/
def NotStale (s : FileState) (l : FileLabel) : Prop :=
  ∀ p c, l = .saveSettings p → s.processes p = some c →
    (∀ k, s.InFile k → ∃ a ∈ c.loaded, a.key = some k) ∧
    ∀ a ∈ c.rows, ∀ k w, a.key = some k → ¬ s.InFile k → s.written k = some w →
      w.Kept (a.credentials.onto none)

/-- A well-formed file before any process has loaded it. -/
structure Started (s : FileState) : Prop where
  keyed : Keyed entryKey s.file
  kept : s.CredentialsKept
  unloaded : ∀ p, s.processes p = none

end FileState

/-- The accounts that are saved are fully identified. -/
def FileLabel.Identified : FileLabel → Prop
  | .saveAccount account => account.key.isSome
  | _ => True

/-- The copy of a process, as a snapshot of the store. -/
def LoadedConfig.snapshot (c : LoadedConfig) : Snapshot IdKey Held where
  loaded := {k | ∃ a ∈ c.loaded, a.key = some k}
  rows := rowHeld c.rows

namespace FileState

/-! ## The invariant -/

/-- The file and every copy hold fully identified accounts, a copy none that was not loaded. -/
structure Sound (s : FileState) : Prop where
  keyed : Keyed entryKey s.file
  kept : s.CredentialsKept
  copies : ∀ p c, s.processes p = some c → Keyed StoredAccount.key c.rows ∧
    ∀ k, some k ∈ c.rows.map StoredAccount.key → some k ∈ c.loaded.map StoredAccount.key

theorem Started.sound {s : FileState} (h : s.Started) : s.Sound where
  keyed := h.keyed
  kept := h.kept
  copies p c hc := by
    rw [h.unloaded p] at hc
    cases hc

section

variable {s : FileState}

theorem in_file_iff {k : IdKey} : s.InFile k ↔ fileHeld s.file k ≠ none :=
  file_held_ne_none.symm

/-- The credentials are kept when the file is current as a store. -/
theorem kept_iff (h : Keyed entryKey s.file) :
    s.CredentialsKept ↔ Current credentialWriting (fileHeld s.file) s.written := by
  constructor
  · intro hkept k v w hv hw
    obtain ⟨e, hfound, rfl⟩ := Option.map_eq_some_iff.mp hv
    obtain ⟨he, hek⟩ := (lookup_eq_some h).mp hfound
    exact hkept e he k w hek hw
  · intro hcurrent e he k w hek hw
    refine hcurrent k (heldOf e) w ?_ hw
    rw [fileHeld, (lookup_eq_some h).mpr ⟨he, hek⟩]
    rfl

/-- A change of copies only changes nothing in the file. -/
theorem stay_of_file_eq {l : FileLabel} (h : fileHeld (s.step l).file = fileHeld s.file) :
    s.AccountsStay l := by
  intro k hin hout
  rw [in_file_iff] at hin
  rw [in_file_iff, h] at hout
  exact absurd hin hout

/-- A write that puts the credentials of one account takes none out of the file. -/
theorem stay_of_put {l : FileLabel} {k : IdKey} {w : Credentials}
    (h : fileHeld (s.step l).file = put credentialWriting (fileHeld s.file) k w) :
    s.AccountsStay l := by
  intro k' hin hout
  rw [in_file_iff] at hin
  rw [in_file_iff, h] at hout
  exact absurd (put_ne_none hin) hout

theorem renamed_entries_held {file : List Value} (h : Keyed entryKey file)
    (renames : List (Nat × String)) : Keyed entryKey (renameEntries file renames) ∧
      fileHeld (renameEntries file renames) = fileHeld file := by
  induction renames generalizing file with
  | nil => exact ⟨h, rfl⟩
  | cons r renames ih =>
    obtain ⟨hkeyed, hheld⟩ := held_renamed h r.1 r.2
    obtain ⟨hkeyed', hheld'⟩ := ih hkeyed
    exact ⟨hkeyed', hheld'.trans hheld⟩

theorem map_key_modify {rows : List StoredAccount} {f : StoredAccount → StoredAccount}
    (hf : ∀ a, (f a).key = a.key) (i : Nat) :
    (rows.modify i f).map StoredAccount.key = rows.map StoredAccount.key := by
  refine List.ext_getElem? fun j => ?_
  rw [List.getElem?_map, List.getElem?_map, List.getElem?_modify]
  cases rows[j]? with
  | none => split <;> rfl
  | some a =>
    split
    · exact congrArg some (hf a)
    · rfl

theorem map_key_renamed (rows : List StoredAccount) (renames : List (Nat × String)) :
    (renameRows rows renames).map StoredAccount.key = rows.map StoredAccount.key := by
  induction renames generalizing rows with
  | nil => rfl
  | cons r renames ih =>
    exact (ih _).trans (map_key_modify (f := fun a => { a with name := r.2 }) (fun _ => rfl) r.1)

/-- What every step but a settings write keeps. -/
structure Kept (s : FileState) (l : FileLabel) : Prop where
  sound : (s.step l).Sound
  stay : s.AccountsStay l

/-- A step that changes one copy, to one that holds accounts it was loaded with. -/
theorem sound_copy {file : List Value} {written : IdKey → Option Credentials} {p : Nat}
    {c : LoadedConfig} (h : s.Sound) (hkeyed : Keyed entryKey file)
    (hcurrent : Current credentialWriting (fileHeld file) written)
    (hrows : Keyed StoredAccount.key c.rows)
    (hwithin : ∀ k, some k ∈ c.rows.map StoredAccount.key →
      some k ∈ c.loaded.map StoredAccount.key) :
    Sound { file := file, processes := Function.update s.processes p (some c),
            written := written } := by
  refine ⟨hkeyed, (kept_iff hkeyed).mpr hcurrent, fun q d hd => ?_⟩
  by_cases hq : q = p
  · subst hq
    have hd : Function.update s.processes q (some c) q = some d := hd
    rw [Function.update_self] at hd
    cases hd
    exact ⟨hrows, hwithin⟩
  · have hd : Function.update s.processes p (some c) q = some d := hd
    rw [Function.update_of_ne hq] at hd
    exact h.copies q d hd

theorem kept_load (h : s.Sound) (p : Nat) (renames : List (Nat × String)) :
    s.Kept (.load p renames) := by
  cases hload : loadAccounts s.file with
  | none =>
    have heq : s.step (.load p renames) = s := by simp only [step, hload]
    exact ⟨by rw [heq]; exact h, stay_of_file_eq (by rw [heq])⟩
  | some rows =>
    have heq : s.step (.load p renames) =
        { s with
          file := renameEntries s.file renames
          processes := Function.update s.processes p
            (some { loaded := renameRows rows renames, rows := renameRows rows renames }) } := by
      simp only [step, hload]
    obtain ⟨hkeyed, hheld⟩ := renamed_entries_held h.keyed renames
    obtain ⟨hrows, -⟩ := load_accounts_held h.keyed hload
    refine ⟨?_, stay_of_file_eq (by rw [heq]; exact hheld)⟩
    rw [heq]
    refine sound_copy h hkeyed ?_ (hrows.of_map_eq (map_key_renamed rows renames)) fun _ hk => hk
    rw [hheld]
    exact (kept_iff h.keyed).mp h.kept

theorem kept_save_account (h : s.Sound) {account : StoredAccount} (hid : account.key.isSome) :
    s.Kept (.saveAccount account) := by
  obtain ⟨k, hk⟩ := Option.isSome_iff_exists.mp hid
  obtain ⟨hkeyed, hheld, houtcome⟩ := merge_account_held h.keyed hk
  have heq : s.step (.saveAccount account) =
      { s with
        file := (mergeAccount s.file account).1
        written := Function.update s.written k (some account.credentials) } := by
    rcases houtcome with ho | ho <;> simp only [step, hk, ho]
  refine ⟨?_, stay_of_put (k := k) (w := account.credentials) (by rw [heq]; exact hheld)⟩
  rw [heq]
  refine ⟨hkeyed, (kept_iff hkeyed).mpr ?_, h.copies⟩
  show Current credentialWriting (fileHeld (mergeAccount s.file account).1) _
  rw [hheld]
  exact current_put ((kept_iff h.keyed).mp h.kept) k account.credentials

theorem kept_save_tokens (h : s.Sound) (p position : Nat) (credentials : Credentials) :
    s.Kept (.saveTokens p position credentials) := by
  have hidle : s.step (.saveTokens p position credentials) = s →
      s.Kept (.saveTokens p position credentials) := by
    intro heq
    exact ⟨by rw [heq]; exact h, stay_of_file_eq (by rw [heq])⟩
  cases hc : s.processes p with
  | none => exact hidle (by simp only [step, hc])
  | some c =>
    cases ha : c.rows[position]? with
    | none => exact hidle (by simp only [step, hc, ha])
    | some a =>
      obtain ⟨hrows, hwithin⟩ := h.copies p c hc
      obtain ⟨k, hk⟩ := Option.isSome_iff_exists.mp (hrows.known a (List.mem_of_getElem? ha))
      have hlt := (List.getElem?_eq_some_iff.mp ha).1
      generalize hfresh : ({ a with credentials := credentials } : StoredAccount) = fresh
      have hkey : fresh.key = some k := by rw [← hfresh]; exact hk
      have hkeys : (c.rows.set position fresh).map StoredAccount.key =
          c.rows.map StoredAccount.key := by
        refine List.ext_getElem? fun j => ?_
        rw [List.getElem?_map, List.getElem?_map]
        by_cases hj : position = j
        · subst hj
          rw [List.getElem?_set_self hlt, ha]
          exact congrArg some (hkey.trans hk.symm)
        · rw [List.getElem?_set_ne hj]
      have hrows' := hrows.of_map_eq hkeys
      obtain ⟨hkeyed, hheld⟩ := merge_tokens_held h.keyed hrows'
        (List.getElem?_set_self hlt : (c.rows.set position fresh)[position]? = some fresh) hkey
      have hcurrent := (kept_iff h.keyed).mp h.kept
      have hcred : fresh.credentials = credentials := by rw [← hfresh]
      rw [hcred] at hheld
      have heq : s.step (.saveTokens p position credentials) =
          { file := mergeTokens s.file (c.rows.set position fresh) (.only position)
            processes := Function.update s.processes p
              (some { c with rows := c.rows.set position fresh })
            written :=
              if tokensLand s.file (c.rows.set position fresh) position then
                Function.update s.written k (some credentials)
              else s.written } := by
        simp only [step, hc, ha, hfresh, hk]
        cases tokensLand s.file (c.rows.set position fresh) position <;> rfl
      cases hland : tokensLand s.file (c.rows.set position fresh) position with
      | true =>
        rw [hland, if_pos rfl] at hheld heq
        refine ⟨?_, stay_of_put (by rw [heq]; exact hheld)⟩
        rw [heq]
        refine sound_copy h hkeyed ?_ hrows' fun k hk => hwithin k (hkeys ▸ hk)
        rw [hheld]
        exact current_put hcurrent k credentials
      | false =>
        rw [hland, if_neg Bool.false_ne_true] at hheld heq
        refine ⟨?_, stay_of_file_eq (by rw [heq]; exact hheld)⟩
        rw [heq]
        refine sound_copy h hkeyed ?_ hrows' fun k hk => hwithin k (hkeys ▸ hk)
        rw [hheld]
        exact hcurrent

theorem kept_edit (h : s.Sound) {l : FileLabel} {p : Nat}
    (edit : List StoredAccount → List StoredAccount) (heq : s.step l = s.editRows p edit)
    (hedit : ∀ rows, Keyed StoredAccount.key rows → Keyed StoredAccount.key (edit rows))
    (hsub : ∀ rows, (edit rows).map StoredAccount.key ⊆ rows.map StoredAccount.key) :
    s.Kept l := by
  unfold editRows at heq
  cases hc : s.processes p with
  | none =>
    rw [hc] at heq
    exact ⟨by rw [heq]; exact h, stay_of_file_eq (by rw [heq])⟩
  | some c =>
    rw [hc] at heq
    obtain ⟨hrows, hwithin⟩ := h.copies p c hc
    refine ⟨?_, stay_of_file_eq (by rw [heq])⟩
    rw [heq]
    exact sound_copy h h.keyed ((kept_iff h.keyed).mp h.kept) (hedit _ hrows)
      fun k hk => hwithin k (hsub _ hk)

/-- Every step but a settings write keeps the credentials and the accounts of the file. -/
theorem kept_of_not_settings (h : s.Sound) {l : FileLabel} (hl : l.Identified)
    (hne : ∀ p, l ≠ .saveSettings p) : s.Kept l := by
  cases l with
  | load p renames => exact kept_load h p renames
  | saveAccount account => exact kept_save_account h hl
  | saveTokens p position credentials => exact kept_save_tokens h p position credentials
  | editSettings p position priority others =>
    have hkeys : ∀ rows : List StoredAccount, (rows.modify position fun a =>
        { a with priority := priority, others := others }).map StoredAccount.key =
          rows.map StoredAccount.key := fun rows =>
      map_key_modify (f := fun a => { a with priority := priority, others := others })
        (fun _ => rfl) position
    exact kept_edit h (fun rows => rows.modify position fun a =>
        { a with priority := priority, others := others }) rfl
      (fun rows hrows => hrows.of_map_eq (hkeys rows))
      fun rows => by rw [hkeys rows]; exact List.Subset.refl _
  | editRemove p position =>
    exact kept_edit h (fun rows => rows.eraseIdx position) rfl
      (fun rows hrows => hrows.sublist (List.eraseIdx_sublist ..))
      fun rows => ((List.eraseIdx_sublist ..).map _).subset
  | saveSettings p => exact absurd rfl (hne p)

theorem stay_iff_stays {p : Nat} {c : LoadedConfig} (hc : s.processes p = some c)
    {file' : List Value} (hstep : s.step (.saveSettings p) = { s with file := file' })
    (hheld : fileHeld file' = writeBack (fileHeld s.file) c.snapshot) :
    s.AccountsStay (.saveSettings p) ↔
      Stays (fileHeld s.file) (writeBack (fileHeld s.file) c.snapshot) c.snapshot := by
  have hout : ∀ k, ¬ (s.step (.saveSettings p)).InFile k ↔
      writeBack (fileHeld s.file) c.snapshot k = none := by
    intro k
    rw [in_file_iff, hstep, not_not]
    show fileHeld file' k = none ↔ _
    rw [hheld]
  constructor
  · intro hstay k hin hgone
    obtain ⟨q, d, hq, hd, hloaded, -⟩ := hstay k (in_file_iff.mpr hin) ((hout k).mpr hgone)
    cases hq
    rw [hc] at hd
    cases hd
    exact hloaded
  · intro hstays k hin hgone
    refine ⟨p, c, rfl, hc, hstays k (in_file_iff.mp hin) ((hout k).mp hgone), ?_⟩
    have hrow : rowHeld c.rows k = none := Option.map_eq_none_iff.mp ((hout k).mp hgone)
    exact fun a ha hk => row_held_ne_none.mpr ⟨a, ha, hk⟩ hrow

theorem not_stale_iff_fresh (h : s.Sound) {p : Nat} {c : LoadedConfig}
    (hc : s.processes p = some c) : s.NotStale (.saveSettings p) ↔
      Fresh credentialWriting (fileHeld s.file) s.written c.snapshot := by
  obtain ⟨hrows, -⟩ := h.copies p c hc
  constructor
  · intro hfresh
    obtain ⟨hloaded, hgone⟩ := hfresh p c rfl hc
    refine ⟨fun k hk => hloaded k (in_file_iff.mpr hk), fun k v w hv hfile hw => ?_⟩
    obtain ⟨a, hfound, rfl⟩ := Option.map_eq_some_iff.mp hv
    obtain ⟨ha, hk⟩ := (lookup_eq_some hrows).mp hfound
    exact hgone a ha k w hk (fun hin => in_file_iff.mp hin hfile) hw
  · rintro hfresh q d hq hd
    cases hq
    rw [hc] at hd
    cases hd
    refine ⟨fun k hk => hfresh.loaded k (in_file_iff.mp hk), fun a ha k w hk hout hw => ?_⟩
    refine hfresh.gone k _ w ?_ (by rwa [in_file_iff, not_not] at hout) hw
    show (lookup StoredAccount.key c.rows k).map _ = _
    rw [(lookup_eq_some hrows).mpr ⟨ha, hk⟩]
    rfl

/-- A settings write keeps both exactly when its copy is not stale. -/
theorem settings_iff (h : s.Sound) (p : Nat) :
    ((s.step (.saveSettings p)).CredentialsKept ∧ s.AccountsStay (.saveSettings p) ↔
      s.NotStale (.saveSettings p)) ∧
    ((s.step (.saveSettings p)).CredentialsKept → (s.step (.saveSettings p)).Sound) := by
  cases hc : s.processes p with
  | none =>
    have heq : s.step (.saveSettings p) = s := by simp only [step, hc]
    refine ⟨⟨fun _ q c hq hq' => ?_, fun _ => ?_⟩, fun _ => by rw [heq]; exact h⟩
    · cases hq
      rw [hc] at hq'
      cases hq'
    · exact ⟨by rw [heq]; exact h.kept, stay_of_file_eq (by rw [heq])⟩
  | some c =>
    have hstep : s.step (.saveSettings p) =
        { s with file := TeamClaude.saveSettings s.file c.rows } := by simp only [step, hc]
    obtain ⟨hrows, hwithin⟩ := h.copies p c hc
    obtain ⟨hkeyed, hheld⟩ := save_settings_held h.keyed hrows c.snapshot.loaded
    have hsnapshot : c.snapshot.Within := by
      intro k hk
      obtain ⟨a, ha, hak⟩ := row_held_ne_none.mp hk
      exact List.mem_map.mp (hwithin k (List.mem_map.mpr ⟨a, ha, hak⟩))
    have hkept : (s.step (.saveSettings p)).CredentialsKept ↔
        Current credentialWriting (writeBack (fileHeld s.file) c.snapshot) s.written := by
      rw [hstep]
      refine (kept_iff hkeyed).trans ?_
      show Current _ (fileHeld (TeamClaude.saveSettings s.file c.rows)) _ ↔ _
      rw [hheld]
      exact Iff.rfl
    refine ⟨?_, fun hk => ?_⟩
    · rw [hkept, stay_iff_stays hc hstep hheld, not_stale_iff_fresh h hc]
      exact write_back_iff ((kept_iff h.keyed).mp h.kept) hsnapshot
    · rw [hstep] at hk ⊢
      exact ⟨hkeyed, hk, h.copies⟩

theorem step_iff (h : s.Sound) {l : FileLabel} (hl : l.Identified) :
    (s.step l).CredentialsKept ∧ s.AccountsStay l ↔ s.NotStale l := by
  by_cases hs : ∃ p, l = .saveSettings p
  · obtain ⟨p, rfl⟩ := hs
    exact (settings_iff h p).1
  · have hkept := kept_of_not_settings h hl fun p hp => hs ⟨p, hp⟩
    exact ⟨fun _ p c hp _ => absurd ⟨p, hp⟩ hs, fun _ => ⟨hkept.sound.kept, hkept.stay⟩⟩

theorem sound_step (h : s.Sound) {l : FileLabel} (hl : l.Identified)
    (hkept : (s.step l).CredentialsKept) : (s.step l).Sound := by
  by_cases hs : ∃ p, l = .saveSettings p
  · obtain ⟨p, rfl⟩ := hs
    exact (settings_iff h p).2 hkept
  · exact (kept_of_not_settings h hl fun p hp => hs ⟨p, hp⟩).sound

end

/-- The credentials in the file and its accounts survive every step of a run exactly when every
settings write of the run comes from a copy that is not stale. -/
theorem snapshots_cost_nothing (s : FileState) (h : s.Started) (ls : List FileLabel)
    (hls : ∀ l ∈ ls, l.Identified) :
    EachStep step (fun s l => (s.step l).CredentialsKept ∧ s.AccountsStay l) s ls ↔
      EachStep step NotStale s ls := by
  have hstep : ∀ s l, Sound s → FileLabel.Identified l →
      ((s.step l).CredentialsKept ∧ s.AccountsStay l ↔ s.NotStale l) := fun _ _ hs hl => step_iff hs hl
  exact each_step_congr hstep (fun _ _ hs hl hp => sound_step hs hl hp.1) h.sound hls

/-- Two accounts, and the file of the first. -/
def alice : StoredAccount where
  name := "alice"
  accountUuid := some "u1"
  orgUuid := some "o1"
  credentials := { accessToken := "at-a", refreshToken := some "rt-a" }

def bob : StoredAccount where
  name := "bob"
  accountUuid := some "u2"
  orgUuid := some "o2"
  credentials := { accessToken := "at-b", refreshToken := some "rt-b" }

theorem started_file {file : List Value} (h : Keyed entryKey file) :
    Started { file := file } :=
  ⟨h, fun _ _ _ _ _ hw => (nomatch hw), fun _ => rfl⟩

theorem keyed_alice : Keyed entryKey [alice.toEntry] :=
  ⟨by decide, by decide⟩

theorem keyed_alice_bob : Keyed entryKey [alice.toEntry, bob.toEntry] :=
  ⟨by decide, by decide⟩

/-- An edit loaded after both writes of others reached the file costs nothing. -/
theorem snapshots_cost_nothing_edit :
    EachStep step (fun s l => (s.step l).CredentialsKept ∧ s.AccountsStay l)
      { file := [alice.toEntry] } [.load 0 [], .saveTokens 0 0 { accessToken := "at-a2" },
        .saveAccount bob, .load 1 [], .editRemove 1 0, .saveSettings 1] := by
  refine (snapshots_cost_nothing _ (started_file keyed_alice) _ ?_).mpr ?_
  · intro l hl
    simp only [List.mem_cons, List.not_mem_nil, or_false] at hl
    rcases hl with rfl | rfl | rfl | rfl | rfl | rfl <;> trivial
  · simp only [each_step_cons]
    have hother : ∀ s l, (∀ p, l ≠ .saveSettings p) → NotStale s l :=
      fun s l hl p c hp => absurd hp (hl p)
    refine ⟨hother _ _ (by simp), hother _ _ (by simp), hother _ _ (by simp),
      hother _ _ (by simp), hother _ _ (by simp), ?_, each_step_nil⟩
    intro p c hp hc
    cases hp
    cases hc
    constructor
    · rintro k ⟨e, he, hk⟩
      rw [← hk]
      clear hk
      revert e
      decide
    · intro a ha k _ hk hout
      refine absurd ?_ hout
      show ∃ e ∈ _, entryKey e = some k
      rw [← hk]
      clear hk hout
      revert a
      decide

/-- A settings write loses an account that joined the file after its load, and brings one that left
it back with credentials that were overwritten. -/
theorem stale_snapshots_lose :
    (Started { file := [alice.toEntry] } ∧
      ¬ EachStep step (fun s l => (s.step l).CredentialsKept ∧ s.AccountsStay l)
        { file := [alice.toEntry] } [.load 0 [], .saveAccount bob, .saveSettings 0]) ∧
    (Started { file := [alice.toEntry, bob.toEntry] } ∧
      ¬ EachStep step (fun s l => (s.step l).CredentialsKept ∧ s.AccountsStay l)
        { file := [alice.toEntry, bob.toEntry] }
        [.load 0 [], .load 1 [], .saveTokens 1 0 { accessToken := "at-a2" }, .editRemove 1 0,
          .saveSettings 1, .saveSettings 0]) := by
  refine ⟨⟨started_file keyed_alice, fun h => ?_⟩, started_file keyed_alice_bob, fun h => ?_⟩
  · simp only [each_step_cons] at h
    obtain ⟨-, -, ⟨-, hstay⟩, -⟩ := h
    obtain ⟨p, c, hp, hc, ⟨a, ha, hk⟩, -⟩ := hstay (.anthropic, "u2", "o2") (by decide) (by decide)
    cases hp
    cases hc
    revert hk
    revert a
    decide
  · simp only [each_step_cons] at h
    obtain ⟨-, -, -, -, -, ⟨hkept, -⟩, -⟩ := h
    have htoken := fun e he hk => (hkept e he (.anthropic, "u1", "o1")
      { accessToken := "at-a2" } hk (by decide)).accessToken
    revert htoken
    decide

end FileState

end TeamClaude
