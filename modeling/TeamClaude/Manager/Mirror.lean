import TeamClaude.Lib.Aligned
import TeamClaude.Manager.Roster

/-!
# The fleet and its file

After a reload the listed rows correspond one to one to the accounts of the file, as long as the
tolerant identity leaves no choice, and a row the file lost is parked. The rows and the entries in
memory grow together, and every slot keeps the account it was given.
-/

namespace TeamClaude

/-! ## A row against the file -/

theorem filled_in_from_config (account : Account) :
    account.FilledIn (AccountRuntime.fromConfig account).probe :=
  ⟨rfl, rfl, fun _ => rfl, fun _ => rfl, fun _ => rfl⟩

namespace Manager

def rowOwns (row : AccountRuntime) (account : Account) : Bool :=
  sameIdentity row.probe account

/-- The row as a reload leaves it, which does not depend on its slot. -/
def reloadedRow (file : Config) (row : AccountRuntime) : AccountRuntime :=
  (reloadRow file 0 row none).1

section ReloadRow

variable (file : Config) (idx : Nat) (row : AccountRuntime) (control : Option Nat)

theorem reload_row_fst : (reloadRow file idx row control).1 = reloadedRow file row := by
  unfold reloadedRow reloadRow
  split
  · split <;> rfl
  · dsimp only
    split <;> rfl

@[simp] theorem reloaded_probe : (reloadedRow file row).probe = row.probe := by
  unfold reloadedRow reloadRow
  split
  · split <;> rfl
  · dsimp only
    split <;> rfl

/-- A row is listed after a reload exactly when it owns an account of the file. -/
theorem reloaded_removed :
    (reloadedRow file row).removed = !file.accounts.any (rowOwns row) := by
  unfold reloadedRow reloadRow
  split
  · rename_i hnone
    have : file.accounts.any (rowOwns row) = false := by
      simpa [rowOwns] using hnone
    rw [this]
    split
    · assumption
    · rfl
  · rename_i found hsome
    have : file.accounts.any (rowOwns row) = true :=
      List.any_eq_true.mpr ⟨found, List.mem_of_find?_eq_some hsome,
        List.find?_some (p := sameIdentity row.probe) hsome⟩
    rw [this]
    dsimp only
    split
    · rfl
    · rename_i hlisted
      simpa using hlisted

/-- A row the file does not hold is disabled, and was parked already or is parked now. -/
theorem reloaded_disabled (hparked : row.removed = true → row.disabled = true)
    (h : (reloadedRow file row).removed = true) : (reloadedRow file row).disabled = true := by
  rw [reloaded_removed] at h
  have hnone : file.accounts.find? (sameIdentity row.probe) = none := by
    simpa [rowOwns] using h
  unfold reloadedRow reloadRow
  rw [hnone]
  dsimp only
  split
  · rename_i hr
    exact hparked hr
  · rfl

/-- A reload gives the control role to the row's own slot or to none. -/
theorem reload_row_control {j : Nat} (h : (reloadRow file idx row control).2 = some j) :
    control = some j ∨ j = idx := by
  unfold reloadRow at h
  split at h
  · split at h
    · exact .inl h
    · split at h
      · cases h
      · exact .inl h
  · dsimp only at h
    split at h
    · split at h
      · cases h
        exact .inr rfl
      · exact .inl h
    · exact .inl h

/-- A row parked after the step holds the control role only if it was parked and held it before. -/
theorem reload_row_parked (h : (reloadRow file idx row control).2 = some idx)
    (hr : (reloadedRow file row).removed = true) : row.removed = true ∧ control = some idx := by
  rw [reloaded_removed] at hr
  have hnone : file.accounts.find? (sameIdentity row.probe) = none := by
    simpa [rowOwns] using hr
  unfold reloadRow at h
  rw [hnone] at h
  dsimp only at h
  split at h
  · rename_i hrem
    exact ⟨hrem, h⟩
  · split at h
    · cases h
    · rename_i hne
      exact absurd h hne

end ReloadRow

theorem reload_rows_fst (file : Config) (idx : Nat) (rows : List AccountRuntime)
    (control : Option Nat) :
    (reloadRows file idx rows control).1 = rows.map (reloadedRow file) := by
  induction rows generalizing idx control with
  | nil => rfl
  | cons row rest ih => simp [reloadRows, reload_row_fst, ih]

/-- No slot before the rows under way is given the control role. -/
theorem reload_rows_control {file : Config} {idx : Nat} {rows : List AccountRuntime}
    {control : Option Nat} {j : Nat} (h : (reloadRows file idx rows control).2 = some j)
    (hj : j < idx) : control = some j := by
  induction rows generalizing idx control with
  | nil => exact h
  | cons row rest ih =>
    rcases reload_row_control file idx row control (ih h (Nat.lt_succ_of_lt hj)) with h | rfl
    · exact h
    · exact absurd hj (Nat.lt_irrefl _)

/-- A parked slot holds the control role after a reload only if it did before, parked already. -/
theorem reload_rows_parked {file : Config} {idx : Nat} {rows : List AccountRuntime}
    {control : Option Nat} {j : Nat} {row : AccountRuntime} (hget : rows[j]? = some row)
    (hr : (reloadedRow file row).removed = true)
    (h : (reloadRows file idx rows control).2 = some (idx + j)) :
    row.removed = true ∧ control = some (idx + j) := by
  induction rows generalizing idx control j with
  | nil => cases hget
  | cons head rest ih =>
    cases j with
    | zero =>
      obtain rfl : head = row := by simpa using hget
      exact reload_row_parked file idx head control
        (reload_rows_control h (Nat.lt_succ_self idx)) hr
    | succ j =>
      have hidx : idx + (j + 1) = idx + 1 + j := by omega
      rw [hidx] at h ⊢
      obtain ⟨hrem, hcontrol⟩ := ih hget h
      rcases reload_row_control file idx head control hcontrol with hc | hc
      · exact ⟨hrem, hc⟩
      · omega

/-- The accounts of the file that no row owned become rows and entries alike. -/
theorem admit_rows_eq (file : List Account) (rows : List AccountRuntime) (entries : List Account) :
    admitRows file (rows, entries) =
      (rows ++ (Lib.admitted rowOwns .fromConfig rows file).map .fromConfig,
        entries ++ Lib.admitted rowOwns .fromConfig rows file) := by
  induction file generalizing rows entries with
  | nil => simp [admitRows, Lib.admitted]
  | cons account file ih =>
    unfold Lib.admitted
    by_cases hown : rows.any (rowOwns · account) = true
    · rw [if_pos hown, ← ih]
      exact congrArg (admitRows file) (if_pos hown)
    · rw [if_neg hown, List.map_cons, List.append_cons, List.append_cons entries, ← ih]
      exact congrArg (admitRows file) (if_neg hown)

end Manager

/-! ## A login on an existing row -/

section Relogin

variable {entry account : Account} {row : AccountRuntime}

theorem probe_relogin (row : AccountRuntime) (account : Account) :
    (row.relogin account).probe = (row.backfill account).probe := by
  unfold AccountRuntime.relogin
  dsimp only
  split <;> split <;> rfl

theorem filled_in_relogin (row : AccountRuntime) (account : Account) :
    row.probe.FilledIn (row.relogin account).probe := by
  rw [probe_relogin]
  refine ⟨rfl, rfl, fun h => ?_, fun h => ?_, fun h => ?_⟩ <;>
    exact Option.or_of_isSome h

/-- A row keeps the identity of its entry through a login that names its own id whenever it names
its organisation by id. -/
theorem same_identity_relogin (hfill : entry.FilledIn row.probe)
    (hsame : sameIdentity row.probe entry = true) (hmatch : sameIdentity account row.probe = true)
    (hnames : account.NamesItsUuid) : sameIdentity (row.relogin account).probe entry = true := by
  have hfilled := hfill.trans (filled_in_relogin row account)
  refine hfilled.same_identity fun u k k' hu hk hk' => ?_
  have hrow : uuidKey row.probe = some u := hfill.uuidKey hu
  cases hy : presentKey (row.relogin account).probe.orgUuid with
  | none => exact Option.some_injective _ (hk'.symm.trans (hfilled.orgKey hk hy))
  | some y =>
    have hkey : k' = y := by
      rw [orgKey, hy, Option.some_or, Option.some.injEq] at hk'
      exact hk'.symm
    rw [hkey]
    have hor : (row.relogin account).probe.orgUuid = row.orgUuid.or account.orgUuid := by
      rw [probe_relogin]
      rfl
    rw [hor] at hy
    cases ho : row.orgUuid with
    | some id =>
      rw [ho, Option.some_or] at hy
      have hkrow : orgKey row.probe = some y := by
        simp [orgKey, AccountRuntime.probe, ho, hy]
      exact same_identity_org hsame hrow hu hkrow hk
    | none =>
      -- the organisation id comes from the login, which is the same account under its own id
      rw [ho, Option.none_or] at hy
      obtain ⟨ua, hua⟩ := Option.isSome_iff_exists.mp (hnames (by simp [hy]))
      have hkrow : orgKey row.probe = some k :=
        hfill.orgKey hk (by simp [AccountRuntime.probe, ho, presentKey])
      exact same_identity_org hmatch hua hrow (by simp [orgKey, hy]) hkrow

end Relogin

namespace Manager

/-! ## What a login does to the roster -/

/-- The entries in memory are kept, or one of an identity that no entry carries is appended. -/
theorem persist_replaced_cases (entries : List Account) (target : Account) (save : SaveAttempt) :
    persistReplaced entries target save = entries ∨ resolve entries target = .none ∧
      persistReplaced entries target save = entries ++ [target] := by
  unfold persistReplaced
  split
  any_goals split
  any_goals exact .inl rfl
  all_goals
    rename_i hnone
    exact .inr ⟨hnone, rfl⟩

theorem lands_on_some {m : Manager} {account : Account} {idx : Nat} {row : AccountRuntime}
    (h : m.landsOn account = some (idx, row)) :
    m.account idx = some row ∧ sameIdentity account row.probe = true := by
  unfold landsOn at h
  split at h
  · rename_i only hone
    obtain ⟨found, hget, heq⟩ := Option.map_eq_some_iff.mp h
    cases heq
    obtain ⟨record, hrecord, hsame⟩ := resolve_one hone
    rw [List.getElem?_map, hget] at hrecord
    cases hrecord
    exact ⟨hget, hsame⟩
  · cases h
  · cases h

/-- A login changes nothing, appends a row and its entry, or replaces one row of its identity and at
most appends the entry of that row. -/
theorem add_or_update_cases (m : Manager) (account : Account) (save : SaveAttempt) :
    (m.addOrUpdateAccount account save).1 = m ∨
    (∃ priority, (m.addOrUpdateAccount account save).1 =
      m.appendAccount { account with priority := priority }) ∨
    ∃ idx row pin, m.account idx = some row ∧ sameIdentity account row.probe = true ∧
      (m.addOrUpdateAccount account save).1 = { m with
        accounts := m.accounts.set idx (row.relogin account)
        config := { m.config with
          accounts := persistReplaced m.config.accounts
            ((row.relogin account).durable account.provider pin) save } } := by
  unfold addOrUpdateAccount
  split
  · exact .inl rfl
  · split
    · rename_i idx row hlands
      obtain ⟨hget, hsame⟩ := lands_on_some hlands
      exact .inr (.inr ⟨idx, row, existingPin m.config.accounts account, hget, hsame, rfl⟩)
    · exact .inr (.inl ⟨_, rfl⟩)

/-- The bench switch changes nothing, or sets one listed row and at most the flag of one entry. -/
theorem set_disabled_cases (m : Manager) (idx : Nat) (disabled wrote : Bool) :
    m.setDisabled idx disabled wrote = m ∨
    ∃ row benched entries, m.account idx = some row ∧ benched.removed = false ∧
      benched.probe = row.probe ∧
      (entries = m.config.accounts ∨ ∃ position flag, entries =
        m.config.accounts.modify position fun entry => { entry with disabled := flag }) ∧
      m.setDisabled idx disabled wrote = { m with
        accounts := m.accounts.set idx benched
        config := { m.config with accounts := entries } } := by
  unfold setDisabled
  split
  · exact .inl rfl
  · rename_i row hget
    split
    · exact .inl rfl
    · rename_i hlisted
      refine .inr ⟨row, _, _, hget, ?_, ?_, ?_, rfl⟩
      · dsimp only
        split <;> simpa using hlisted
      · dsimp only
        split <;> rfl
      · split
        · exact .inr ⟨_, _, rfl⟩
        · exact .inl rfl

/-! ## What every operation keeps -/

/-- A deleted row is disabled and is not the control account. -/
def Parked (m : Manager) : Prop :=
  ∀ idx row, m.account idx = some row → row.removed = true →
    row.disabled = true ∧ m.controlIdx ≠ some idx

/-- Each row is its entry with unknown identity fields filled in, and still of its identity. -/
def Paired (m : Manager) : Prop :=
  List.Forall₂ (fun row entry => entry.FilledIn row.probe ∧ sameIdentity row.probe entry = true)
    m.accounts m.config.accounts

/-- The control role is only stored at a slot that is listed. -/
def StoresListed (m : Manager) : FleetOp → Prop
  | .setControl (some idx) _ => (m.account idx).all (fun row => !row.removed) = true
  | _ => True

instance (m : Manager) : (op : FleetOp) → Decidable (m.StoresListed op)
  | .setControl (some _) _ => inferInstanceAs (Decidable (_ = true))
  | .setControl none _ | .reload _ | .addOrUpdate _ _ | .setDisabled _ _ _ => .isTrue trivial

/-- The slot a query resolves to is listed, until a reload comes between. -/
theorem resolve_control_stores_listed {m : Manager} {query : String} {idx : Nat}
    (h : m.resolveControl query = some idx) (wrote : Bool) :
    m.StoresListed (.setControl (some idx) wrote) := by
  unfold resolveControl at h
  split at h
  · rename_i only hone
    split at h
    · cases h
      have hmem : idx ∈ (m.accounts.zipIdx.filter fun x =>
          decide (x.1.name = query) && !x.1.removed).map Prod.snd := by
        rw [hone]
        exact List.mem_singleton_self idx
      obtain ⟨⟨row, slot⟩, hrow, rfl⟩ := List.mem_map.mp hmem
      obtain ⟨hget, hlisted⟩ := List.mem_filter.mp hrow
      have hat : m.account slot = some row := List.mem_zipIdx_iff_getElem?.mp hget
      simp only [Bool.and_eq_true] at hlisted
      simp [StoresListed, hat, hlisted.2]
    · cases h
  · cases h

/-- A login that names its organisation by id names its own id too. -/
def FleetOp.NamesItsUuid : FleetOp → Prop
  | .addOrUpdate account _ => account.NamesItsUuid
  | _ => True

variable {m : Manager}

theorem account_append {m : Manager} {account : Account} {idx : Nat} {row : AccountRuntime}
    (h : (m.appendAccount account).account idx = some row) :
    m.account idx = some row ∨ row = .fromConfig account := by
  simp only [Manager.account, appendAccount, List.getElem?_append] at h
  split at h
  · exact .inl h
  · rw [List.getElem?_singleton] at h
    split at h
    · exact .inr (Option.some_injective _ h).symm
    · cases h

/-- A row of the reloaded fleet is a row of the fleet after the file, or a row admitted of it. -/
theorem account_reload {file : Config} {idx : Nat} {row : AccountRuntime}
    (h : (m.applyGroupReload file).account idx = some row) :
    (∃ old, m.account idx = some old ∧ row = reloadedRow file old) ∨
      ∃ account ∈ file.accounts, row = .fromConfig account := by
  simp only [Manager.account, applyGroupReload, admit_rows_eq, reload_rows_fst] at h
  rcases Lib.admit_cases h with h | ⟨-, account, haccount, rfl⟩
  · rw [List.getElem?_map, Option.map_eq_some_iff] at h
    obtain ⟨old, hold, rfl⟩ := h
    exact .inl ⟨old, hold, rfl⟩
  · exact .inr ⟨account,
      (Lib.admitted_sublist _ _ _ _).subset (List.mem_of_getElem? haccount), rfl⟩

theorem parked_reload (h : m.Parked) (file : Config) : (m.applyGroupReload file).Parked := by
  intro idx row hrow hr
  rcases account_reload hrow with ⟨old, hold, rfl⟩ | ⟨account, -, rfl⟩
  · refine ⟨reloaded_disabled file old (fun hrem => (h idx old hold hrem).1) hr, fun hc => ?_⟩
    have hc : (reloadRows file 0 m.accounts m.controlIdx).2 = some (0 + idx) := by
      rw [Nat.zero_add]
      exact hc
    obtain ⟨hrem, hcontrol⟩ := reload_rows_parked hold hr hc
    exact (h idx old hold hrem).2 (by simpa using hcontrol)
  · cases hr

/-- Setting one row to a listed one keeps the deleted rows parked. -/
theorem Parked.set {m m' : Manager} (h : m.Parked) {idx : Nat} {row : AccountRuntime}
    (hlisted : row.removed = false) (hrows : m'.accounts = m.accounts.set idx row)
    (hcontrol : m'.controlIdx = m.controlIdx) : m'.Parked := by
  intro j other hj hr
  rw [Manager.account, hrows, List.getElem?_set] at hj
  rw [hcontrol]
  split at hj
  · split at hj
    · obtain rfl := Option.some_injective _ hj
      rw [hlisted] at hr
      cases hr
    · cases hj
  · exact h j other hj hr

theorem removed_relogin (row : AccountRuntime) (account : Account) :
    (row.relogin account).removed = false := by
  unfold AccountRuntime.relogin AccountRuntime.backfill
  dsimp only
  split <;> split <;> simp_all

theorem parked_step (h : m.Parked) {op : FleetOp} (hstore : m.StoresListed op) :
    (m.fleetStep op).Parked := by
  cases op with
  | reload file => exact parked_reload h file
  | addOrUpdate account save =>
    show (m.addOrUpdateAccount account save).1.Parked
    rcases m.add_or_update_cases account save with heq | ⟨priority, heq⟩ |
      ⟨idx, row, pin, hget, -, heq⟩
    · rw [heq]
      exact h
    · rw [heq]
      intro j other hj hr
      rcases account_append hj with hj | rfl
      · exact h j other hj hr
      · cases hr
    · rw [heq]
      exact h.set (removed_relogin row account) rfl rfl
  | setDisabled idx disabled wrote =>
    show (m.setDisabled idx disabled wrote).Parked
    rcases m.set_disabled_cases idx disabled wrote with heq |
      ⟨row, benched, entries, -, hlisted, -, -, heq⟩
    · rw [heq]
      exact h
    · rw [heq]
      exact h.set hlisted rfl rfl
  | setControl idx wrote =>
    intro j other hj hr
    refine ⟨(h j other hj hr).1, fun hc => ?_⟩
    obtain rfl : idx = some j := hc
    have hlisted : (m.account j).all (fun row => !row.removed) = true := hstore
    have hget : m.account j = some other := hj
    rw [hget] at hlisted
    simp [hr] at hlisted

/-! ## Rows and entries -/

theorem paired_reload (h : m.Paired) (file : Config) : (m.applyGroupReload file).Paired := by
  simp only [Paired, applyGroupReload, admit_rows_eq, reload_rows_fst]
  refine List.rel_append ?_ ?_
  · exact List.forall₂_map_left_iff.mpr (h.imp fun row entry hrow => by simpa using hrow)
  · rw [List.forall₂_map_left_iff, List.forall₂_same]
    exact fun account _ => ⟨filled_in_from_config account, same_identity_refl account⟩

theorem paired_append (h : m.Paired) (account : Account) : (m.appendAccount account).Paired :=
  List.rel_append h
    (.cons ⟨filled_in_from_config account, same_identity_refl account⟩ .nil)

/-- The entry of a row answers for its identity, so a login that lands on it appends none. -/
theorem persist_replaced_paired (h : m.Paired) {idx : Nat} {row : AccountRuntime}
    (hget : m.account idx = some row) {target : Account}
    (htarget : ∀ entry, entry.FilledIn row.probe → sameIdentity row.probe entry = true →
      sameIdentity target entry = true) (save : SaveAttempt) :
    persistReplaced m.config.accounts target save = m.config.accounts := by
  rcases persist_replaced_cases m.config.accounts target save with heq | ⟨hnone, -⟩
  · exact heq
  · have hlt : idx < m.config.accounts.length :=
      h.length_eq ▸ (List.getElem?_eq_some_iff.mp hget).1
    have hentry := List.getElem?_eq_getElem hlt
    obtain ⟨hfill, hsame⟩ := Lib.aligned_get h hget hentry
    exact absurd hnone (resolve_ne_none (List.mem_of_getElem? hentry) (htarget _ hfill hsame))

theorem paired_step (h : m.Paired) {op : FleetOp} (hnames : op.NamesItsUuid) :
    (m.fleetStep op).Paired := by
  cases op with
  | reload file => exact paired_reload h file
  | addOrUpdate account save =>
    show (m.addOrUpdateAccount account save).1.Paired
    rcases m.add_or_update_cases account save with heq | ⟨priority, heq⟩ |
      ⟨idx, row, pin, hget, hmatch, heq⟩
    · rw [heq]
      exact h
    · rw [heq]
      exact paired_append h _
    · have hrelogin : ∀ entry : Account, entry.FilledIn row.probe →
          sameIdentity row.probe entry = true →
          sameIdentity (row.relogin account).probe entry = true :=
        fun entry hfill hsame => same_identity_relogin hfill hsame hmatch hnames
      have hprovider : (row.relogin account).probe.provider = account.provider :=
        (filled_in_relogin row account).provider.trans (same_identity_provider hmatch).symm
      have hdurable : ∀ entry, sameIdentity
          ((row.relogin account).durable account.provider pin) entry =
            sameIdentity (row.relogin account).probe entry := by
        intro entry
        rw [← hprovider]
        rfl
      rw [heq, Paired, persist_replaced_paired h hget
        (fun entry hfill hsame => (hdurable entry).trans (hrelogin entry hfill hsame)) save]
      refine Lib.aligned_set h fun old entry hold _ hrow => ?_
      rw [Manager.account, hold] at hget
      obtain rfl := Option.some_injective _ hget
      exact ⟨hrow.1.trans (filled_in_relogin old account), hrelogin entry hrow.1 hrow.2⟩
  | setDisabled idx disabled wrote =>
    show (m.setDisabled idx disabled wrote).Paired
    rcases m.set_disabled_cases idx disabled wrote with heq |
      ⟨row, benched, entries, hget, -, hprobe, hentries, heq⟩
    · rw [heq]
      exact h
    · have hrows : List.Forall₂ (fun row entry => entry.FilledIn row.probe ∧
          sameIdentity row.probe entry = true) (m.accounts.set idx benched) m.config.accounts := by
        refine Lib.aligned_set h fun old entry hold _ hrow => ?_
        rw [Manager.account, hold] at hget
        obtain rfl := Option.some_injective _ hget
        rw [hprobe]
        exact hrow
      rw [heq]
      rcases hentries with rfl | ⟨position, flag, rfl⟩
      · exact hrows
      · refine Lib.aligned_modify (f := fun entry => { entry with disabled := flag }) hrows ?_
          position
        rintro row entry ⟨hfill, hsame⟩
        exact ⟨⟨hfill.provider, hfill.name, hfill.accountUuid, hfill.orgUuid, hfill.orgName⟩, hsame⟩
  | setControl idx wrote => exact h

/-- Every slot of the first fleet is a slot of the second, with the same account. -/
def KeepsSlots (m m' : Manager) : Prop :=
  Lib.Extends (fun row row' : AccountRuntime => row.probe.FilledIn row'.probe)
      m.accounts m'.accounts ∧
    Lib.Extends Account.FilledIn m.config.accounts m'.config.accounts

theorem keeps_slots_refl (m : Manager) : m.KeepsSlots m :=
  ⟨.refl (fun row => .refl row.probe) _, .refl .refl _⟩

theorem KeepsSlots.trans {m m' m'' : Manager} (h : m.KeepsSlots m') (h' : m'.KeepsSlots m'') :
    m.KeepsSlots m'' :=
  ⟨Lib.Extends.trans (fun _ _ _ => Account.FilledIn.trans) h.1 h'.1,
    Lib.Extends.trans (fun _ _ _ => Account.FilledIn.trans) h.2 h'.2⟩

theorem keeps_slots_step (m : Manager) (op : FleetOp) : m.KeepsSlots (m.fleetStep op) := by
  have hrefl : ∀ row : AccountRuntime, row.probe.FilledIn row.probe := fun row => .refl row.probe
  cases op with
  | reload file =>
    simp only [fleetStep, KeepsSlots, applyGroupReload, admit_rows_eq, reload_rows_fst]
    refine ⟨Lib.Extends.append (Lib.Extends.map (fun row => ?_) _) _,
      Lib.Extends.append (.refl .refl _) _⟩
    rw [reloaded_probe]
  | addOrUpdate account save =>
    show m.KeepsSlots (m.addOrUpdateAccount account save).1
    rcases m.add_or_update_cases account save with heq | ⟨priority, heq⟩ |
      ⟨idx, row, pin, hget, -, heq⟩
    · rw [heq]
      exact keeps_slots_refl m
    · rw [heq]
      exact ⟨.append (.refl hrefl _) _, .append (.refl .refl _) _⟩
    · rw [heq]
      refine ⟨.set hrefl fun old hold => ?_, ?_⟩
      · rw [Manager.account, hold] at hget
        obtain rfl := Option.some_injective _ hget
        exact filled_in_relogin old account
      · rcases persist_replaced_cases m.config.accounts
            ((row.relogin account).durable account.provider pin) save with hsave | ⟨-, hsave⟩
        · simp only [hsave]
          exact .refl .refl _
        · simp only [hsave]
          exact .append (.refl .refl _) _
  | setDisabled idx disabled wrote =>
    show m.KeepsSlots (m.setDisabled idx disabled wrote)
    rcases m.set_disabled_cases idx disabled wrote with heq |
      ⟨row, benched, entries, hget, -, hprobe, hentries, heq⟩
    · rw [heq]
      exact keeps_slots_refl m
    · rw [heq]
      refine ⟨.set hrefl fun old hold => ?_, ?_⟩
      · rw [Manager.account, hold] at hget
        obtain rfl := Option.some_injective _ hget
        rw [hprobe]
      · rcases hentries with rfl | ⟨position, flag, rfl⟩
        · exact .refl .refl _
        · exact .modify .refl
            (fun entry => ⟨rfl, rfl, fun _ => rfl, fun _ => rfl, fun _ => rfl⟩) _ _
  | setControl idx wrote => exact keeps_slots_refl m

/-! ## The fleet against its file -/

def Listed (m : Manager) (idx : Nat) : Prop :=
  ∃ row, m.account idx = some row ∧ row.removed = false

/-- The accounts of the file correspond one to one to the listed rows, each to a row of its
identity. -/
def Mirrors (m : Manager) (file : List Account) : Prop :=
  ∃ slot : Nat → Nat, Set.BijOn slot {i | i < file.length} {idx | m.Listed idx} ∧
    ∀ i account, file[i]? = some account →
      ∃ row, m.account (slot i) = some row ∧ sameIdentity row.probe account = true

/-- A row with no account in the file is deleted, disabled and not the control account. -/
def ParksTheRest (m : Manager) (file : List Account) : Prop :=
  ∀ idx row, m.account idx = some row →
    (∀ account ∈ file, sameIdentity row.probe account = false) →
    row.removed = true ∧ row.disabled = true ∧ m.controlIdx ≠ some idx

/-- As many rows as entries, and the row and the entry of a slot are the same account. -/
def Aligned (m : Manager) : Prop :=
  m.accounts.length = m.config.accounts.length ∧
    ∀ idx row entry, m.account idx = some row → m.config.accounts[idx]? = some entry →
      sameIdentity row.probe entry = true

/-- The tolerant identity leaves no choice: no two accounts of the file are the same account, no row
is two accounts of the file, and no two rows are one account of it. -/
structure Unambiguous (m : Manager) (file : List Account) : Prop where
  accounts : file.Pairwise fun a b => ¬sameIdentity a b = true
  matching : Lib.OneToOne rowOwns m.accounts file

instance (m : Manager) (file : List Account) : Decidable (m.Unambiguous file) :=
  decidable_of_iff (_ ∧ _) ⟨fun h => ⟨h.1, h.2⟩, fun h => ⟨h.1, h.2⟩⟩

/-- A slot is listed after a reload exactly when its row owns an account of the file. -/
theorem listed_reload (m : Manager) (file : Config) (idx : Nat) :
    (m.applyGroupReload file).Listed idx ↔
      ∃ row, (m.applyGroupReload file).account idx = some row ∧
        ∃ account ∈ file.accounts, rowOwns row account = true := by
  refine exists_congr fun row => and_congr_right fun hrow => ?_
  rcases account_reload hrow with ⟨old, -, rfl⟩ | ⟨account, haccount, rfl⟩
  · rw [reloaded_removed, Bool.not_eq_false', List.any_eq_true]
    simp only [rowOwns, reloaded_probe]
  · exact iff_of_true rfl ⟨account, haccount, same_identity_refl account⟩

theorem mirrors_reload {file : Config} (h : m.Unambiguous file.accounts) :
    (m.applyGroupReload file).Mirrors file.accounts := by
  have hself : ∀ account : Account, rowOwns (.fromConfig account) account = true :=
    same_identity_refl
  have hrows : (m.applyGroupReload file).accounts = m.accounts.map (reloadedRow file) ++
      (Lib.admitted rowOwns .fromConfig (m.accounts.map (reloadedRow file)) file.accounts).map
        .fromConfig := by
    simp only [applyGroupReload, admit_rows_eq, reload_rows_fst]
  have hreloaded : Lib.OneToOne rowOwns (m.accounts.map (reloadedRow file)) file.accounts := by
    constructor
    · intro row hrow
      obtain ⟨old, hold, rfl⟩ := List.mem_map.mp hrow
      simpa [rowOwns] using h.matching.row_once old hold
    · intro account haccount
      rw [List.pairwise_map]
      simpa [rowOwns] using h.matching.entry_once account haccount
  have hapart := (Lib.pairwise_not_iff fun a b hab => (same_identity_comm b a).trans hab).mp
    h.accounts
  have hmatching := hreloaded.append_admitted hself hapart
  rw [← hrows] at hmatching
  obtain ⟨slot, hbij, hsame⟩ := hmatching.correspondence fun account haccount => by
    rw [hrows]
    exact Lib.owned_of_admitted hself haccount
  refine ⟨slot, ?_, hsame⟩
  have hset : {idx | (m.applyGroupReload file).Listed idx} = {idx | ∃ row,
      (m.applyGroupReload file).accounts[idx]? = some row ∧
        ∃ account ∈ file.accounts, rowOwns row account = true} :=
    Set.ext (m.listed_reload file)
  rw [hset]
  exact hbij

theorem parks_the_rest_reload (h : m.Parked) (file : Config) :
    (m.applyGroupReload file).ParksTheRest file.accounts := by
  intro idx row hrow hnone
  have hr : row.removed = true := by
    by_contra hlisted
    obtain ⟨other, hother, account, haccount, hown⟩ :=
      (m.listed_reload file idx).mp ⟨row, hrow, by simpa using hlisted⟩
    rw [hrow] at hother
    obtain rfl := Option.some_injective _ hother
    rw [rowOwns, hnone account haccount] at hown
    cases hown
  exact ⟨hr, parked_reload h file idx row hrow hr⟩

theorem parked_new (config : Config) : (Manager.new config).Parked := by
  intro idx row hrow hr
  simp only [Manager.account, Manager.new, assemble, List.getElem?_map,
    Option.map_eq_some_iff] at hrow
  obtain ⟨account, -, rfl⟩ := hrow
  cases hr

theorem paired_new (config : Config) : (Manager.new config).Paired := by
  refine List.forall₂_map_left_iff.mpr (List.forall₂_same.mpr fun account _ => ?_)
  exact ⟨filled_in_from_config account, same_identity_refl account⟩

theorem Paired.aligned (h : m.Paired) : m.Aligned :=
  ⟨h.length_eq, fun _ _ _ hrow hentry => (Lib.aligned_get h hrow hentry).2⟩

theorem keeps_slots_run (m : Manager) (ops : List FleetOp) :
    m.KeepsSlots (Lib.exec fleetStep m ops) := by
  induction ops generalizing m with
  | nil => exact keeps_slots_refl m
  | cons op ops ih => exact (keeps_slots_step m op).trans (ih (m.fleetStep op))

/-- After a reload of a running fleet, its listed rows correspond one to one to the accounts of the
file, where their identities leave no choice, and every other row is parked. Its rows and entries
are aligned as long as no login names an organisation by id without naming its own id, and no slot
ever changes its account. -/
theorem fleet_mirrors_file (config : Config) (ops : List FleetOp) (file : Config)
    (hstore : Lib.EachStep fleetStep StoresListed (Manager.new config) ops) :
    ((Lib.exec fleetStep (Manager.new config) ops).Unambiguous file.accounts →
      ((Lib.exec fleetStep (Manager.new config) ops).applyGroupReload file).Mirrors
        file.accounts) ∧
    ((Lib.exec fleetStep (Manager.new config) ops).applyGroupReload file).ParksTheRest
      file.accounts ∧
    ((∀ op ∈ ops, op.NamesItsUuid) → (Lib.exec fleetStep (Manager.new config) ops).Aligned) ∧
    ∀ later, (Lib.exec fleetStep (Manager.new config) ops).KeepsSlots
      (Lib.exec fleetStep (Manager.new config) (ops ++ later)) := by
  refine ⟨mirrors_reload, parks_the_rest_reload ?_ file, fun hnames => Paired.aligned ?_,
    fun later => ?_⟩
  · exact Lib.exec_invariant (I := Parked) (fun s op hs hop => parked_step hs hop)
      (parked_new config) hstore ops List.prefix_rfl
  · refine Lib.exec_invariant (I := Paired) (A := fun _ op => op.NamesItsUuid)
      (fun s op hs hop => paired_step hs hop) (paired_new config) ?_ ops List.prefix_rfl
    exact fun pre op hpre => hnames op (hpre.subset (by simp))
  · rw [Lib.exec_append]
    exact keeps_slots_run _ later

/-- An account of one person in one organisation. -/
def inOrg (name uuid org : String) : Account :=
  { name := name, provider := .anthropic, accountUuid := some uuid, orgUuid := some org }

/-- The file loses one of two accounts and gains a third. -/
theorem edited_file_mirrored :
    let m := Lib.exec fleetStep (Manager.new { accounts := [inOrg "ada" "u1" "lab"] })
      [.addOrUpdate (inOrg "bob" "u2" "lab") (some (.ok .added)), .setControl (some 0) true]
    let file : Config := { accounts := [inOrg "bob" "u2" "lab", inOrg "ada/corp" "u1" "corp"] }
    (m.applyGroupReload file).Mirrors file.accounts ∧
      (m.applyGroupReload file).ParksTheRest file.accounts ∧ m.Aligned := by
  have h := fleet_mirrors_file { accounts := [inOrg "ada" "u1" "lab"] }
    [.addOrUpdate (inOrg "bob" "u2" "lab") (some (.ok .added)), .setControl (some 0) true]
    { accounts := [inOrg "bob" "u2" "lab", inOrg "ada/corp" "u1" "corp"] }
    (Lib.each_step_cons.mpr
      ⟨trivial, Lib.each_step_cons.mpr ⟨by decide +kernel, Lib.each_step_nil⟩⟩)
  refine ⟨h.1 (by decide +kernel), h.2.1, h.2.2.1 ?_⟩
  intro op hop
  simp only [List.mem_cons, List.not_mem_nil, or_false] at hop
  rcases hop with rfl | rfl
  · show (inOrg "bob" "u2" "lab").NamesItsUuid
    decide +kernel
  · trivial

/-- A row without an organisation takes both of its person's accounts in the file, so one of them is
never served. A login that names its organisation by id and itself by name alone leaves the row
under an identity its entry does not have, and a second entry is appended. A control choice stored
after the reload that deleted its row is kept by the next reload. -/
theorem two_orgs_share_row :
    let ada : Account := { name := "ada", provider := .anthropic, accountUuid := some "u1" }
    let file : Config := { accounts := [inOrg "ada/lab" "u1" "lab", inOrg "ada/corp" "u1" "corp"] }
    let bob : Account :=
      { name := "bob", provider := .anthropic, accountUuid := some "u2", orgName := some "Lab" }
    let login : Account := { name := "bob", provider := .anthropic, orgUuid := some "lab" }
    (file.accounts.map fun a => (a.provider, a.accountUuid, orgKey a)).Nodup ∧
      (file.accounts.map Account.name).Nodup ∧
      ¬((Manager.new { accounts := [ada] }).applyGroupReload file).Mirrors file.accounts ∧
      ¬(Lib.exec fleetStep (Manager.new { accounts := [bob] })
        [.addOrUpdate login (some (.ok .added))]).Aligned ∧
      ¬((Lib.exec fleetStep (Manager.new { accounts := [ada] })
        [.reload {}, .setControl (some 0) true]).applyGroupReload {}).ParksTheRest [] := by
  refine ⟨by decide +kernel, by decide +kernel, ?_, ?_, ?_⟩
  · rintro ⟨slot, ⟨hmaps, hinj, -⟩, -⟩
    have hone : ∀ i ∈ ({i | i < 2} : Set Nat), slot i = 0 := by
      intro i hi
      obtain ⟨row, hrow, -⟩ := hmaps hi
      exact Nat.lt_one_iff.mp (List.getElem?_eq_some_iff.mp hrow).1
    exact absurd (hinj (show 0 < 2 by decide) (show 1 < 2 by decide)
      ((hone 0 (by decide)).trans (hone 1 (by decide)).symm)) (by decide)
  · intro h
    exact absurd h.1 (by decide +kernel)
  · intro h
    exact (h 0 _ rfl (by simp)).2.2 rfl

end Manager

end TeamClaude
