import TeamClaude.Manager.Calls

/-!
# Select ticks

Every stamp of a row is below the manager's next tick. The reload leaves the stamps alone and
admits rows unstamped; a call stamps only the account it answers with.
-/

namespace TeamClaude

namespace Manager

/-- The tick of a slot's last pick, zero for a slot never picked or not there. -/
def seqOf (m : Manager) (idx : Nat) : Nat :=
  ((m.account idx).map AccountRuntime.lastSelectedSeq).getD 0

/-- Nothing was picked between the two states. -/
def SameTicks (m m' : Manager) : Prop :=
  m'.selectSeq = m.selectSeq ∧ ∀ idx, m'.seqOf idx = m.seqOf idx

theorem SameTicks.trans {m m' m'' : Manager} (h : SameTicks m m') (h' : SameTicks m' m'') :
    SameTicks m m'' :=
  ⟨h'.1.trans h.1, fun idx => (h'.2 idx).trans (h.2 idx)⟩

/-- Every stamp is below the next tick. -/
def TicksFresh (m : Manager) : Prop :=
  ∀ idx, m.seqOf idx < m.selectSeq

theorem TicksFresh.same {m m' : Manager} (h : m.TicksFresh) (hs : SameTicks m m') :
    m'.TicksFresh := by
  intro idx
  rw [hs.1, hs.2]
  exact h idx

theorem seq_of_account {m : Manager} {idx : Nat} {a : AccountRuntime}
    (h : m.account idx = some a) : m.seqOf idx = a.lastSelectedSeq := by
  simp [seqOf, h]

/-! ## The reload -/

/-- What the reload of one row keeps, the reload of the rows keeps at every slot. -/
theorem reload_rows_map {α : Type*} (f : AccountRuntime → α)
    (keep : ∀ fresh idx a control, f (reloadRow fresh idx a control).1 = f a) (fresh : Config)
    (accounts : List AccountRuntime) :
    ∀ (start : Nat) (control : Option Nat),
      (reloadRows fresh start accounts control).1.map f = accounts.map f := by
  induction accounts with
  | nil => intro start control; rfl
  | cons a rest ih =>
    intro start control
    simp only [reloadRows, List.map_cons, keep, ih]

theorem reload_row_seq (fresh : Config) (idx : Nat) (a : AccountRuntime) (control : Option Nat) :
    (reloadRow fresh idx a control).1.lastSelectedSeq = a.lastSelectedSeq := by
  unfold reloadRow
  split
  · split <;> rfl
  · simp only
    split <;> rfl

theorem reload_rows_seq (fresh : Config) (accounts : List AccountRuntime) (start : Nat)
    (control : Option Nat) : (reloadRows fresh start accounts control).1.map
      AccountRuntime.lastSelectedSeq = accounts.map AccountRuntime.lastSelectedSeq :=
  reload_rows_map _ reload_row_seq fresh accounts start control

/-- Admission appends, and what it appends was never picked. -/
theorem admit_rows_append (candidates : List Account) :
    ∀ rows : List AccountRuntime × List Account, ∃ extra,
      (admitRows candidates rows).1 = rows.1 ++ extra ∧ ∀ a ∈ extra, a.lastSelectedSeq = 0 := by
  induction candidates with
  | nil => intro rows; exact ⟨[], by simp [admitRows], by simp⟩
  | cons c candidates ih =>
    intro rows
    simp only [admitRows, List.foldl_cons]
    split
    · exact ih rows
    · obtain ⟨extra, he, hz⟩ := ih (rows.1 ++ [.fromConfig c], rows.2 ++ [c])
      refine ⟨.fromConfig c :: extra, ?_, ?_⟩
      · rw [admitRows] at he
        rw [he]
        simp
      · intro a ha
        rcases List.mem_cons.mp ha with rfl | ha
        · rfl
        · exact hz a ha

theorem reload_same_ticks (m : Manager) (disk : Option Config) :
    SameTicks m (m.reloadGroupsIfChanged disk) := by
  cases disk with
  | none => exact ⟨rfl, fun _ => rfl⟩
  | some fresh =>
    refine ⟨rfl, fun idx => ?_⟩
    obtain ⟨extra, he, hz⟩ := admit_rows_append fresh.accounts
      ((reloadRows fresh 0 m.accounts m.controlIdx).1, m.config.accounts)
    have hmap := reload_rows_seq fresh m.accounts 0 m.controlIdx
    have hlen : (reloadRows fresh 0 m.accounts m.controlIdx).1.length = m.accounts.length := by
      simpa using congrArg List.length hmap
    have hacc : (m.reloadGroupsIfChanged (some fresh)).accounts =
        (reloadRows fresh 0 m.accounts m.controlIdx).1 ++ extra := he
    simp only [seqOf, account, hacc, ← List.getElem?_map, List.map_append, hmap]
    rcases Nat.lt_or_ge idx m.accounts.length with hlt | hge
    · rw [List.getElem?_append_left (by simpa using hlt)]
    · rw [List.getElem?_append_right (by simpa using hge)]
      have hnone : (m.accounts.map AccountRuntime.lastSelectedSeq)[idx]? = none := by
        simpa using hge
      rw [hnone, List.getElem?_map]
      cases hx : extra[idx - (m.accounts.map AccountRuntime.lastSelectedSeq).length]? with
      | none => rfl
      | some a => simp [hz a (List.mem_of_getElem? hx)]

theorem swept_same_ticks (m : Manager) (c : Call) : SameTicks m (m.swept c) := by
  obtain ⟨_, h⟩ := m.swept_eq c
  rw [h]
  exact m.reload_same_ticks c.disk

/-! ## Stamps -/

theorem seq_of_congr {m m' : Manager} (h : m'.accounts = m.accounts) (idx : Nat) :
    m'.seqOf idx = m.seqOf idx := by
  simp [seqOf, account, h]

theorem seq_of_stamp_ne {m : Manager} {idx j : Nat} (h : j ≠ idx) :
    (m.stamp idx).seqOf j = m.seqOf j := by
  rw [seqOf, account_stamp_ne m idx h, seqOf]

theorem seq_of_stamp_self {m : Manager} {idx : Nat} {a : AccountRuntime}
    (h : m.account idx = some a) : (m.stamp idx).seqOf idx = m.selectSeq := by
  rw [seq_of_account (account_stamp_self m idx h)]

theorem Write.ticks_fresh {m m' : Manager} (h : Write m m') (hf : m.TicksFresh) :
    m'.TicksFresh := by
  cases h with
  | stamp idx =>
    intro j
    rw [stamp_select_seq]
    by_cases hj : j = idx
    · subst hj
      cases ha : m.account j with
      | none => simp [seqOf, account_stamp, ha]
      | some a =>
        rw [seq_of_stamp_self ha]
        omega
    · rw [seq_of_stamp_ne hj]
      have := hf j
      omega
  | pin key idx nowMs => exact hf
  | conn key idx nowMs => exact hf
  | divert key kept dest =>
    exact hf.same ⟨m.record_divert_select_seq key kept dest,
      seq_of_congr (m.record_divert_accounts key kept dest)⟩
  | spend provider nowMs => cases provider <;> exact hf

theorem Writes.ticks_fresh {m m' : Manager} (h : Writes m m') (hf : m.TicksFresh) :
    m'.TicksFresh := by
  induction h with
  | refl => exact hf
  | tail _ hw ih => exact hw.ticks_fresh ih

theorem next_ticks_fresh {m : Manager} (c : Call) (hf : m.TicksFresh) : (m.next c).TicksFresh :=
  (m.next_writes c).ticks_fresh (hf.same (m.swept_same_ticks c))

/-! ## Reachable states -/

/-- The states of a running manager: booted from a file, then calls, between which anything that
picks nothing may happen. -/
inductive Reachable : Manager → Prop
  | boot (config : Config) : Reachable (new config)
  | call {m : Manager} (h : Reachable m) (c : Call) : Reachable (m.next c)
  | env {m m' : Manager} (h : Reachable m) (hs : SameTicks m m') : Reachable m'

theorem boot_ticks_fresh (config : Config) : (new config).TicksFresh := by
  intro idx
  have hzero : (new config).seqOf idx = 0 := by
    simp only [new, assemble, seqOf, account, List.getElem?_map, Option.map_map]
    cases config.accounts[idx]? <;> rfl
  rw [hzero]
  exact Nat.one_pos

theorem Reachable.ticks_fresh {m : Manager} (h : Reachable m) : m.TicksFresh := by
  induction h with
  | boot config => exact boot_ticks_fresh config
  | call _ c ih => exact next_ticks_fresh c ih
  | env _ hs ih => exact ih.same hs

end Manager

end TeamClaude
