import TeamClaude.Manager.Calls

/-!
# Refused calls

A call that comes up empty after its pick has written nothing: every stamp, pin, episode and
connection record of a call is made for the account it answers with. A caller may therefore probe
with a narrowed `tried` and select again.
-/

namespace TeamClaude

namespace Manager

variable {m : Manager} {r : Request}

theorem settle_refused {kept : Option Kept} {best : Option Nat}
    (h : (m.settle r kept best).1 = none) : (m.settle r kept best).2 = m := by
  cases best with
  | none => rfl
  | some idx => cases h

/-- Off its pin a selection writes in the overlay, which answers, or once it settles on a pick. -/
theorem select_off_pin_refused {kept : Option Kept} (h : (m.selectOffPin r kept).1 = none) :
    (m.selectOffPin r kept).2 = m := by
  unfold selectOffPin at h ⊢
  cases kept with
  | none =>
    cases ho : m.overlay r with
    | some served =>
      simp only [ho] at h
      cases h
    | none =>
      simp only [ho] at h ⊢
      exact settle_refused h
  | some k => exact settle_refused h

theorem select_core_refused (h : (m.selectCore r).1 = none) : (m.selectCore r).2 = m := by
  unfold selectCore at h ⊢
  cases hl : m.lockedAccountFor r.provider with
  | some idx => rfl
  | none =>
    simp only [hl] at h ⊢
    cases hf : m.affinityFastPath r with
    | served idx m' =>
      simp only [hf] at h
      cases h
    | fall kept =>
      simp only [hf] at h ⊢
      exact select_off_pin_refused h

/-- The throttle refuses before the window is spent. -/
theorem revalidation_core_refused (h : (m.revalidationCore r).1 = none) :
    (m.revalidationCore r).2 = m := by
  unfold revalidationCore at h ⊢
  cases hp : m.pinHonor r with
  | some idx =>
    simp only [hp] at h
    cases h
  | none =>
    simp only [hp] at h ⊢
    unfold revalidationFallback at h ⊢
    split at h
    · rfl
    · split at h
      · rename_i hearly
        simp [hearly]
      · cases h

/-- A refused call of either kind leaves what the reload and the sweep left. -/
theorem refused_next {c : Call} (h : m.answer c = none) : m.next c = m.swept c := by
  cases c with
  | select disk r => exact select_core_refused h
  | revalidate disk r => exact revalidation_core_refused h

/-- With the file unchanged and no unsupported exit there is nothing to reload or to sweep. -/
theorem swept_quiet {c : Call} (hdisk : c.disk = none)
    (hexit : m.codexAccountsWithUnsupportedExit = ∅) : m.swept c = m := by
  have hlive : m.live c = m := by
    rw [live, hdisk]
    rfl
  rw [swept, hlive]
  cases c.request.provider with
  | anthropic => rfl
  | codex => simp [excludeUnsupportedCodexExits, hexit]

theorem unsupported_exits_empty
    (h : ∀ a ∈ m.config.accounts, a.hasUnsupportedStrictPeerExit = false) :
    m.codexAccountsWithUnsupportedExit = ∅ := by
  have hnone : (m.config.accounts.zipIdx.filter fun x => x.1.hasUnsupportedStrictPeerExit) = [] := by
    rw [List.filter_eq_nil_iff]
    intro x hx
    simp [h x.1 (List.fst_mem_of_mem_zipIdx hx)]
  rw [codexAccountsWithUnsupportedExit, hnone]
  rfl

/-- A selection that answers no account, over an unchanged file and without an unsupported exit,
leaves every pin, episode and stamp as it was, and any call after it answers as it would have. -/
theorem refused_selection_leaves_no_trace
    (hexit : ∀ a ∈ m.config.accounts, a.hasUnsupportedStrictPeerExit = false)
    (hnone : (m.selectWithGroup none r).1 = none) :
    (m.selectWithGroup none r).2.affinity = m.affinity ∧
    (m.selectWithGroup none r).2.divertLedger = m.divertLedger ∧
    (m.selectWithGroup none r).2.connAffinity = m.connAffinity ∧
    (m.selectWithGroup none r).2.selectSeq = m.selectSeq ∧
    (m.selectWithGroup none r).2.accounts = m.accounts ∧
    ∀ c, (m.selectWithGroup none r).2.run c = m.run c := by
  have hquiet : m.swept (.select none r) = m := swept_quiet rfl (unsupported_exits_empty hexit)
  have hsame : (m.selectWithGroup none r).2 = m :=
    (refused_next (c := .select none r) hnone).trans hquiet
  rw [hsame]
  exact ⟨rfl, rfl, rfl, rfl, rfl, fun _ => rfl⟩

/-- A session pinned to the first of two rows. -/
def pinnedFleet : Manager :=
  (new { accounts := [{ name := "a", provider := .anthropic },
    { name := "b", provider := .anthropic }] }).restoreAffinity [(1, (0, 0))] ∅

/-- A turn of that session that may not use the rows in `tried`. -/
def pinnedTurn (tried : Finset Nat) : Request :=
  { now := 0, path := "/v1/messages", affinity := some 1, tried }

/-- A probe that excludes both rows finds nothing, and the turn after it is served on the pin. -/
theorem probe_then_select :
    (pinnedFleet.selectWithGroup none (pinnedTurn {0, 1})).2.affinity.get 1 = some (0, 0) ∧
    (pinnedFleet.selectWithGroup none (pinnedTurn {0, 1})).2.answer (.select none (pinnedTurn ∅)) =
      some 0 := by
  obtain ⟨hpins, -, -, -, -, hrun⟩ := refused_selection_leaves_no_trace (m := pinnedFleet)
    (r := pinnedTurn {0, 1}) (by decide +kernel) (by decide +kernel)
  rw [hpins, answer, hrun]
  exact ⟨by decide +kernel, by decide +kernel⟩

end Manager

end TeamClaude
