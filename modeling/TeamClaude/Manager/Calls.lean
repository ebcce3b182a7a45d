import TeamClaude.Lib.Exec
import TeamClaude.Manager.Frame

/-!
# Runs of selection calls

A call is a selection or a revalidation with the config file it finds. A run is a list of calls,
and everything proved of a run goes through one step.
-/

namespace TeamClaude

/-- One call of either kind, with the config file when a reload picks it up. -/
inductive Call
  | select (disk : Option Config) (r : Request)
  | revalidate (disk : Option Config) (r : Request)

namespace Call

def request : Call → Request
  | select _ r => r
  | revalidate _ r => r

def disk : Call → Option Config
  | select disk _ => disk
  | revalidate disk _ => disk

/-- The reservation group the account-level gate sees: a revalidation carries none. -/
def group : Call → Option String
  | select _ r => r.group
  | revalidate _ _ => none

end Call

namespace Manager

/-- The answer of a call and the state after it. -/
def run (m : Manager) : Call → Option Nat × Manager
  | .select disk r => m.selectWithGroup disk r
  | .revalidate disk r => m.selectRevalidation disk r

def answer (m : Manager) (c : Call) : Option Nat :=
  (m.run c).1

def next (m : Manager) (c : Call) : Manager :=
  (m.run c).2

/-- The state a call's gates read: the file reloaded, nothing picked yet. -/
def live (m : Manager) (c : Call) : Manager :=
  m.reloadGroupsIfChanged c.disk

/-- The live state without the pins of excluded Codex rows. -/
def swept (m : Manager) (c : Call) : Manager :=
  ((m.live c).excludeUnsupportedCodexExits c.request.tried c.request.provider).2

/-- The request with the excluded Codex rows among `tried`. -/
def screened (m : Manager) (c : Call) : Request :=
  { c.request with
    tried := ((m.live c).excludeUnsupportedCodexExits c.request.tried c.request.provider).1 }

theorem run_select (m : Manager) (disk : Option Config) (r : Request) :
    m.run (.select disk r) =
      (m.swept (.select disk r)).selectCore (m.screened (.select disk r)) := rfl

theorem run_revalidate (m : Manager) (disk : Option Config) (r : Request) :
    m.run (.revalidate disk r) =
      (m.swept (.revalidate disk r)).revalidationCore (m.screened (.revalidate disk r)) := rfl

/-- After the reload and the sweep a call only writes. -/
theorem next_writes (m : Manager) (c : Call) : Writes (m.swept c) (m.next c) := by
  cases c with
  | select disk r => exact select_core_writes _ _
  | revalidate disk r => exact revalidation_core_writes _ _

/-- The sweep touches the pin map and nothing else. -/
theorem swept_eq (m : Manager) (c : Call) : ∃ affinity, m.swept c = { m.live c with affinity } :=
  (m.live c).exclude_state _ _

section Swept

variable (m : Manager) (c : Call)

@[simp] theorem swept_accounts : (m.swept c).accounts = (m.live c).accounts := by
  obtain ⟨_, h⟩ := m.swept_eq c
  rw [h]

@[simp] theorem swept_account (idx : Nat) : (m.swept c).account idx = (m.live c).account idx := by
  simp [account]

@[simp] theorem swept_groups : (m.swept c).groups = (m.live c).groups := by
  obtain ⟨_, h⟩ := m.swept_eq c
  rw [h]

@[simp] theorem swept_config : (m.swept c).config = (m.live c).config := by
  obtain ⟨_, h⟩ := m.swept_eq c
  rw [h]

@[simp] theorem swept_control_idx : (m.swept c).controlIdx = (m.live c).controlIdx := by
  obtain ⟨_, h⟩ := m.swept_eq c
  rw [h]

@[simp] theorem swept_divert_ledger : (m.swept c).divertLedger = m.divertLedger := by
  obtain ⟨_, h⟩ := m.swept_eq c
  rw [h]
  exact m.reload_divert_ledger c.disk

@[simp] theorem swept_warm_window (key : Option Key) :
    (m.swept c).warmWindow key = (m.live c).warmWindow key := by
  obtain ⟨_, h⟩ := m.swept_eq c
  rw [h]
  rfl

/-- The gates of a call read the reloaded state and the request, never the pins. -/
@[simp] theorem swept_gates : (m.swept c).gates (m.screened c) = (m.live c).gates c.request := by
  obtain ⟨_, h⟩ := m.swept_eq c
  rw [h]
  rfl

@[simp] theorem swept_strict_group (group : Option String) :
    (m.swept c).strictGroup group = (m.live c).strictGroup group := by
  simp [strictGroup]

@[simp] theorem screened_affinity : (m.screened c).affinity = c.request.affinity := rfl

@[simp] theorem screened_group : (m.screened c).group = c.request.group := rfl

@[simp] theorem screened_request_class :
    (m.screened c).requestClass = c.request.requestClass := rfl

@[simp] theorem screened_provider : (m.screened c).provider = c.request.provider := rfl

@[simp] theorem screened_tried :
    (m.screened c).tried = c.request.tried ∪ (m.live c).unsupportedFor c.request.provider :=
  (m.live c).exclude_tried _ _

@[simp] theorem live_load_balance_migration :
    (m.live c).config.loadBalanceMigration = m.config.loadBalanceMigration := by
  unfold live
  cases c.disk <;> rfl

end Swept

/-- A pin survives the sweep unless it sits on an excluded row of a Codex path. -/
theorem swept_get {m : Manager} {c : Call} {key : Key}
    (h : ∀ pin, m.affinity.get key = some pin →
      pin.1 ∉ (m.live c).unsupportedFor c.request.provider) :
    (m.swept c).affinity.get key = m.affinity.get key := by
  have hlive : (m.live c).affinity = m.affinity := m.reload_affinity c.disk
  rw [swept, exclude_get, hlive]
  rwa [hlive]

theorem swept_get_dropped {m : Manager} {c : Call} {key : Key} {pin : Pin}
    (hp : m.affinity.get key = some pin)
    (hin : pin.1 ∈ (m.live c).unsupportedFor c.request.provider) :
    (m.swept c).affinity.get key = none := by
  have hlive : (m.live c).affinity = m.affinity := m.reload_affinity c.disk
  exact exclude_get_dropped _ key (by rwa [hlive]) hin

theorem swept_get_some {m : Manager} {c : Call} {key : Key} {pin : Pin}
    (h : (m.swept c).affinity.get key = some pin) : m.affinity.get key = some pin := by
  have hlive : (m.live c).affinity = m.affinity := m.reload_affinity c.disk
  rcases (m.live c).exclude_cases c.request.tried c.request.provider with he | ⟨-, he⟩
  · rw [swept, he, hlive] at h
    exact h
  · rw [swept, he] at h
    rw [← hlive]
    exact (CappedMap.get_retain_some.mp h).1

end Manager

end TeamClaude
