import TeamClaude.Manager.RefreshRace

/-!
# A forced refresh of a dead token

The cooldown is tested twice. The plan of a forced refresh of a hard-expired token passes over it;
the test under the refresh lock does not. Such a refresh is therefore always planned, and posts
exactly when no cooldown is running as it gets the lock. A cooldown ends a fixed time after the
outcome that stamped it, so that it holds no token back for longer.
-/

namespace TeamClaude

open Lib

namespace CredentialRow

/-- The folder a Codex login was imported from. -/
def importedHome (row : CredentialRow) : Option String :=
  match row.provider with
  | .anthropic => none
  | .codex => row.codexHome

/-- The refresh token that is posted once a refresh is past its checks, where `inFile` is the newer
pair that the folder's file holds. A pair that is still live is taken over without a POST. -/
def postedToken (row : CredentialRow) (planned : String) (inFile : Option Tokens) (nowMs : Int) :
    Option String :=
  match row.importedHome.bind fun _ => inFile with
  | some tokens =>
    if nowMs < tokens.expiresAtMs then none else some (tokens.refreshToken.getD planned)
  | none => some planned

theorem posted_token_anthropic {row : CredentialRow} (h : row.provider = .anthropic)
    (planned : String) (inFile : Option Tokens) (nowMs : Int) :
    row.postedToken planned inFile nowMs = some planned := by
  simp [postedToken, importedHome, h]

/-- The plan of a forced refresh of a hard-expired token takes no account of the cooldown. -/
theorem forced_plan {row : CredentialRow} {token : String} {nowMs : Int}
    (hoauth : row.isOauth = true) (hpresent : row.removed = false)
    (htoken : row.refreshToken = some token) (hexpired : row.isExpired nowMs = true) :
    row.refreshPlan false true nowMs = some (token, row.accessToken) := by
  simp [refreshPlan, hoauth, hpresent, htoken, hexpired]

end CredentialRow

namespace RowRace

/-- The refresh token that the refresh posts when it gets the lock at `lockMs`; none where it ends
there. -/
def postsAtLock (s : RowRace) (id : Nat) (lockMs : Int) (inFile : Option Tokens) (fileMs : Int) :
    Option String :=
  ((s.step (.check id lockMs)).runs id).bind fun run =>
    if run.phase = .posting then s.row.postedToken run.refreshToken inFile fileMs else none

section Steps

variable {s s' : RowRace} {id : Nat} {run : RefreshRun} {event : RaceEvent}

/-- A step of another refresh, or of a login, leaves the run alone. -/
theorem runs_moved (hmoved : s.Moved event s') (hother : event.refresh ≠ some id) :
    s'.runs id = s.runs id := by
  have hne : ∀ other, some other ≠ some id → id ≠ other := fun other h he => h (by rw [he])
  cases hmoved with
  | idle event => rfl
  | login login => rfl
  | planned hphase => exact Function.update_of_ne (hne _ hother) _ _
  | dropped => exact Function.update_of_ne (hne _ hother) _ _
  | posted hget hphase hfree hsame => exact Function.update_of_ne (hne _ hother) _ _
  | answered hget hphase => exact Function.update_of_ne (hne _ hother) _ _
  | adopted hget hphase => exact Function.update_of_ne (hne _ hother) _ _
  | succeeded hget hphase => exact Function.update_of_ne (hne _ hother) _ _
  | deferred hget hphase => exact Function.update_of_ne (hne _ hother) _ _
  | rejected hget hphase => exact Function.update_of_ne (hne _ hother) _ _
  | backedOff hget hphase => exact Function.update_of_ne (hne _ hother) _ _

theorem runs_kept {events : List RaceEvent} (h : ∀ event ∈ events, event.refresh ≠ some id) :
    (exec step s events).runs id = s.runs id := by
  induction events generalizing s with
  | nil => rfl
  | cons event events ih =>
    obtain ⟨hevent, hrest⟩ := List.forall_mem_cons.mp h
    rw [exec_cons, ih hrest, runs_moved (s.step_moved event) hevent]

/-- A cooldown of the row was stamped by an outcome among the events. -/
def CooldownFrom (s : RowRace) (events : List RaceEvent) : Prop :=
  ∀ deadline, s.row.refreshRetryAfterMs = some deadline →
    ∃ other nowMs, .outcome other nowMs ∈ events ∧ deadline = cooldownDeadline nowMs

theorem cooldown_moved {events : List RaceEvent} (h : s.CooldownFrom events)
    (hmoved : s.Moved event s') : s'.CooldownFrom (events ++ [event]) := by
  have hkeep : s'.row.refreshRetryAfterMs = s.row.refreshRetryAfterMs →
      s'.CooldownFrom (events ++ [event]) := by
    intro hsame deadline hdeadline
    obtain ⟨other, nowMs, hmem, heq⟩ := h deadline (hsame ▸ hdeadline)
    exact ⟨other, nowMs, List.mem_append_left _ hmem, heq⟩
  cases hmoved with
  | idle event => exact hkeep rfl
  | login login => exact hkeep rfl
  | planned hphase => exact hkeep rfl
  | dropped => exact hkeep rfl
  | posted hget hphase hfree hsame => exact hkeep rfl
  | answered hget hphase => exact hkeep rfl
  | @adopted id adopted newer run tokens hget hphase =>
    cases adopted with
    | none => exact hkeep rfl
    | some tokens => nofun
  | @succeeded id nowMs run tokens hget hphase =>
    intro deadline hdeadline
    have hstamp : (if run.force then some (cooldownDeadline nowMs) else none) = some deadline :=
      hdeadline
    split at hstamp
    · exact ⟨id, nowMs, List.mem_append_right _ (List.mem_singleton_self _),
        (Option.some_injective _ hstamp).symm⟩
    · cases hstamp
  | @deferred id nowMs run hget hphase =>
    intro deadline hdeadline
    exact ⟨id, nowMs, List.mem_append_right _ (List.mem_singleton_self _),
      (Option.some_injective _ hdeadline).symm⟩
  | rejected hget hphase => exact hkeep rfl
  | backedOff hget hphase => exact hkeep rfl

/-- In a run from a row without a cooldown, every cooldown was stamped by an outcome of the run. -/
theorem cooldown_run {row : CredentialRow} (hnone : row.refreshRetryAfterMs = none)
    (events : List RaceEvent) : (exec step { row := row } events).CooldownFrom events := by
  induction events using List.reverseRecOn with
  | nil =>
    intro deadline hdeadline
    exact absurd (hnone.symm.trans hdeadline) nofun
  | append_singleton events event ih =>
    rw [exec_snoc]
    exact cooldown_moved ih (step_moved _ event)

theorem released_moved (hmoved : s.Moved event s') : s'.released = s.released := by
  cases hmoved <;> rfl

theorem released_run (events : List RaceEvent) :
    (exec step s events).released = s.released := by
  refine exec_unchanged fun pre event _ => ?_
  exact released_moved (step_moved _ event)

/-- A queued refresh that gets the lock on an unchanged access token posts, unless a cooldown is
running. -/
theorem posts_at_lock (hget : s.runs id = some run) (hphase : run.phase = .queued)
    (hfree : s.lock = none) (hsame : s.row.accessToken = run.accessBefore) (lockMs : Int)
    (inFile : Option Tokens) (fileMs : Int) :
    s.postsAtLock id lockMs inFile fileMs =
      if s.row.inCooldown lockMs then none
      else s.row.postedToken run.refreshToken inFile fileMs := by
  unfold postsAtLock
  simp only [step, hget, hphase, if_true, check, hfree, Option.isSome_none, Bool.false_eq_true,
    if_false, hsame, ne_eq, not_true_eq_false, false_or]
  split
  · simp [setRun]
  · simp [setRun]

/-- Past the cooldown of the last outcome nothing holds a refresh back. -/
theorem cooldown_over {events : List RaceEvent} (h : s.CooldownFrom events) {lockMs : Int}
    (hlate : ∀ other nowMs, .outcome other nowMs ∈ events → cooldownDeadline nowMs ≤ lockMs) :
    s.row.inCooldown lockMs = false := by
  cases hretry : s.row.refreshRetryAfterMs with
  | none => simp [CredentialRow.inCooldown, hretry]
  | some deadline =>
    obtain ⟨other, nowMs, hmem, rfl⟩ := h deadline hretry
    simpa [CredentialRow.inCooldown, hretry] using hlate other nowMs hmem

end Steps

/-- A forced refresh of a hard-expired token is planned whatever cooldown the row has. If no other
refresh overtakes it, it posts when it gets the lock unless a cooldown is running then, and the
cooldown is that of an outcome whose deadline is still ahead. -/
theorem forced_refresh_posts {row : CredentialRow} (hnone : row.refreshRetryAfterMs = none)
    (before between : List RaceEvent) (id : Nat) (token : String) (planMs : Int)
    (hnew : (exec step { row := row } before).runs id = none)
    (hoauth : (exec step { row := row } before).row.isOauth = true)
    (hpresent : (exec step { row := row } before).row.removed = false)
    (htoken : (exec step { row := row } before).row.refreshToken = some token)
    (hexpired : (exec step { row := row } before).row.isExpired planMs = true)
    (hothers : ∀ event ∈ between, event.refresh ≠ some id) :
    let s := exec step { row := row } before
    let atLock := exec step s (.plan id true planMs :: between)
    (∃ run, (s.step (.plan id true planMs)).runs id = some run ∧ run.phase = .queued ∧
        run.refreshToken = token) ∧
      (atLock.lock = none → atLock.row.accessToken = s.row.accessToken →
        ∀ lockMs inFile fileMs,
          atLock.postsAtLock id lockMs inFile fileMs =
              (if atLock.row.inCooldown lockMs then none
                else atLock.row.postedToken token inFile fileMs) ∧
            ((∀ other nowMs, .outcome other nowMs ∈ before ++ between →
                cooldownDeadline nowMs ≤ lockMs) →
              atLock.row.inCooldown lockMs = false)) := by
  intro s atLock
  have hplan : s.row.refreshPlan s.released true planMs = some (token, s.row.accessToken) := by
    have hreleased : s.released = false := released_run before
    rw [hreleased]
    exact CredentialRow.forced_plan hoauth hpresent htoken hexpired
  have hstep : s.step (.plan id true planMs) = s.setRun id (some
      { force := true, refreshToken := token, accessBefore := s.row.accessToken,
        plannedAt := s.logins }) := by
    have hfree : s.runs id = none := hnew
    simp only [step, plan, hplan, hfree]
  have hget : (s.step (.plan id true planMs)).runs id = some
      { force := true, refreshToken := token, accessBefore := s.row.accessToken,
        plannedAt := s.logins } := by
    rw [hstep]
    exact Function.update_self _ _ _
  refine ⟨⟨_, hget, rfl, rfl⟩, fun hlock hsame lockMs inFile fileMs => ⟨?_, fun hlate => ?_⟩⟩
  · have hrun := (runs_kept hothers).trans hget
    exact posts_at_lock hrun rfl hlock hsame lockMs inFile fileMs
  · have hfrom := cooldown_run hnone (before ++ .plan id true planMs :: between)
    rw [exec_append] at hfrom
    refine cooldown_over hfrom fun other nowMs hmem => hlate other nowMs ?_
    simpa using hmem

/-- A refresh of the expired row fails for the moment and stamps a cooldown. -/
def failedRefresh : List RaceEvent :=
  [.plan 0 true 1700000000000, .check 0 1700000000000, .answer 0 .transient,
    .outcome 0 1700000001000]

/-- Two seconds after the failure the next forced refresh posts. -/
theorem forced_refresh_posts_late :
    let s := exec step { row := adaRow } failedRefresh
    let atLock := exec step s [.plan 1 true 1700000001500]
    atLock.postsAtLock 1 1700000003000 none 1700000003000 = some "rt-boot" := by
  intro s atLock
  have hnone : adaRow.refreshRetryAfterMs = none := rfl
  obtain ⟨hposts, hover⟩ := (forced_refresh_posts hnone failedRefresh [] 1 "rt-boot" 1700000001500
    (by decide +kernel) (by decide +kernel) (by decide +kernel) (by decide +kernel)
    (by decide +kernel) (by simp)).2 (by decide +kernel) (by decide +kernel) 1700000003000 none
    1700000003000
  have hlate : ∀ other nowMs, .outcome other nowMs ∈ failedRefresh ++ [] →
      cooldownDeadline nowMs ≤ 1700000003000 := by
    intro other nowMs hmem
    simp only [failedRefresh, List.append_nil, List.mem_cons, reduceCtorEq, false_or,
      RaceEvent.outcome.injEq, List.not_mem_nil, or_false] at hmem
    rw [hmem.2]
    decide
  rw [hover hlate, if_neg Bool.false_ne_true] at hposts
  exact hposts.trans (CredentialRow.posted_token_anthropic (by decide +kernel) _ _ _)

/-- Half a second after the failure the forced refresh of the dead token is planned, gets the lock on
an unchanged access token and stands down. A Codex refresh that finds a live pair in the folder does
not post either. -/
theorem dead_token_held_back :
    let s := exec step { row := adaRow } failedRefresh
    let atLock := s.step (.plan 1 true 1700000001500)
    s.row.isExpired 1700000001500 = true ∧
      s.row.refreshPlan false true 1700000001500 = some ("rt-boot", "at-boot") ∧
      atLock.lock = none ∧ atLock.row.accessToken = s.row.accessToken ∧
      atLock.postsAtLock 1 1700000001500 none 1700000001500 = none ∧
      { adaRow with provider := .codex, codexHome := some "/home/ada/.codex" }.postedToken "rt-boot"
        (some ⟨"at-file", some "rt-file", 1700003600000⟩) 1700000001500 = none := by
  decide +kernel

end RowRace

end TeamClaude
