import TeamClaude.Manager.Refresh

/-!
# A login during a refresh

The check of the access token under the refresh lock stops a refresh whose row has taken a login
since the snapshot. A login that lands after the check is not seen: the outcome is written over it.
These results name what keeps the credentials of a login, and show that it is enough over every
interleaving.
-/

namespace TeamClaude

namespace CredentialRow

/-- The credentials and the hard state of the row are those of the other. -/
structure SameCredential (row row' : CredentialRow) : Prop where
  accessToken : row'.accessToken = row.accessToken
  refreshToken : row'.refreshToken = row.refreshToken
  expiresAtMs : row'.expiresAtMs = row.expiresAtMs
  status : row'.status = row.status

@[refl] theorem SameCredential.refl (row : CredentialRow) : row.SameCredential row :=
  ⟨rfl, rfl, rfl, rfl⟩

theorem same_credential_grow_backoff (row : CredentialRow) (nowMs : Int) :
    row.SameCredential (row.growErrorBackoff nowMs) :=
  ⟨rfl, rfl, rfl, rfl⟩

theorem same_credential_cooldown (row : CredentialRow) (deadline : Option Int) :
    row.SameCredential { row with refreshRetryAfterMs := deadline } :=
  ⟨rfl, rfl, rfl, rfl⟩

end CredentialRow

namespace RowRace

/-- The row has taken a login since the refresh took its snapshot. -/
def Stale (s : RowRace) (id : Nat) : Prop :=
  ∃ run, s.runs id = some run ∧ run.plannedAt < s.logins

/-- A stale refresh leaves the credentials and the status of the row alone. -/
def KeepsLogin (s : RowRace) (event : RaceEvent) : Prop :=
  ∀ id, event.refresh = some id → s.Stale id → s.row.SameCredential (s.step event).row

/-- A refresh past its check that a login overtakes fails for the moment only, no success or
rejection is waiting to be written when a login lands, and a refresh checked after a login does not
see the access token of its snapshot again. -/
def Undisturbed (s : RowRace) : RaceEvent → Prop
  | .relogin _ => ∀ id run result, s.runs id = some run → run.phase = .answered result →
      result = .transient
  | .answer id result => ∀ run, s.runs id = some run → run.phase = .posting →
      run.checkedAt < s.logins → result = .transient
  | .check id _ => ∀ run, s.runs id = some run → run.phase = .queued → run.plannedAt < s.logins →
      s.row.accessToken ≠ run.accessBefore
  | _ => True

/-- A refresh past its check holds the lock, was not stale when it was checked, and carries a
success or a rejection only while it is not stale. -/
def RunOk (lock : Option Nat) (logins id : Nat) (run : RefreshRun) : Prop :=
  match run.phase with
  | .queued => True
  | .posting => lock = some id ∧ run.checkedAt ≤ run.plannedAt
  | .answered result => lock = some id ∧ (result = .transient ∨ logins ≤ run.plannedAt)
  | .rejected => lock = some id

def Guarded (s : RowRace) : Prop :=
  ∀ id run, s.runs id = some run → RunOk s.lock s.logins id run

section RunOk

variable {lock : Option Nat} {logins id : Nat} {run : RefreshRun}

theorem run_ok_queued (h : run.phase = .queued) : RunOk lock logins id run := by
  simp [RunOk, h]

/-- Only the holder of the lock is past its check. -/
theorem queued_of_run_ok (h : RunOk lock logins id run) (hlock : lock ≠ some id) :
    run.phase = .queued := by
  unfold RunOk at h
  split at h
  · assumption
  · exact absurd h.1 hlock
  · exact absurd h.1 hlock
  · exact absurd h hlock

end RunOk

variable {s : RowRace} {id : Nat} {run : RefreshRun}

/-- Changing one run keeps the others as they are. -/
theorem guarded_set_run (h : s.Guarded) {run' : Option RefreshRun}
    (hrun : ∀ run, run' = some run → RunOk s.lock s.logins id run) :
    (s.setRun id run').Guarded := by
  intro other run hget
  simp only [setRun, Function.update_apply] at hget
  split at hget
  · rename_i heq
    subst heq
    exact hrun run hget
  · exact h other run hget

/-- The holder of the lock ends, and every other refresh is still queued. -/
theorem guarded_finish (h : s.Guarded) (hlock : s.lock = some id) : (s.finish id).Guarded := by
  intro other run hget
  simp only [finish, setRun, Function.update_apply] at hget
  split at hget
  · cases hget
  · rename_i hne
    refine run_ok_queued (queued_of_run_ok (h other run hget) ?_)
    rw [hlock]
    exact fun heq => hne (Option.some_injective _ heq).symm

theorem Guarded.answered (h : s.Guarded) {result : RefreshResult} (hget : s.runs id = some run)
    (hphase : run.phase = .answered result) :
    s.lock = some id ∧ (result = .transient ∨ ¬s.Stale id) := by
  have hok := h id run hget
  simp only [RunOk, hphase] at hok
  refine ⟨hok.1, hok.2.imp_right ?_⟩
  rintro hle ⟨other, hother, hlt⟩
  rw [hget] at hother
  obtain rfl := Option.some_injective _ hother
  omega

/-- What a step can do; a refresh out of turn does nothing. -/
inductive Moved (s : RowRace) : RaceEvent → RowRace → Prop
  | idle (event : RaceEvent) : Moved s event s
  | login (login : Login) :
      Moved s (.relogin login) { s with row := s.row.relogin login, logins := s.logins + 1 }
  | planned {id force nowMs run} (hphase : run.phase = .queued) :
      Moved s (.plan id force nowMs) (s.setRun id (some run))
  | dropped {id nowMs} : Moved s (.check id nowMs) (s.setRun id none)
  | posted {id nowMs run} (hget : s.runs id = some run) (hphase : run.phase = .queued)
      (hfree : s.lock = none) (hsame : s.row.accessToken = run.accessBefore) :
      Moved s (.check id nowMs)
        { s.setRun id (some { run with phase := .posting, checkedAt := s.logins }) with
          lock := some id }
  | answered {id result run} (hget : s.runs id = some run) (hphase : run.phase = .posting) :
      Moved s (.answer id result) (s.setRun id (some { run with phase := .answered result }))
  | adopted {id adopted newer run tokens} (hget : s.runs id = some run)
      (hphase : run.phase = .answered (.success tokens)) :
      Moved s (.adopt id adopted newer)
        { s.setRun id (some { run with phase := .answered (.success (newer.getD tokens)) }) with
          row := adopted.elim s.row fun tokens => s.row.applyRefresh tokens none }
  | succeeded {id nowMs run tokens} (hget : s.runs id = some run)
      (hphase : run.phase = .answered (.success tokens)) :
      Moved s (.outcome id nowMs)
        { s.finish id with
          row := s.row.applyRefresh tokens
            (if run.force then some (cooldownDeadline nowMs) else none) }
  | deferred {id nowMs run} (hget : s.runs id = some run)
      (hphase : run.phase = .answered .transient) :
      Moved s (.outcome id nowMs)
        { s.finish id with
          row := { s.row with refreshRetryAfterMs := some (cooldownDeadline nowMs) } }
  | rejected {id nowMs run status code} (hget : s.runs id = some run)
      (hphase : run.phase = .answered (.authRejected status code)) :
      Moved s (.outcome id nowMs)
        { s.setRun id (some { run with phase := .rejected }) with
          row := s.row.rejected status code }
  | backedOff {id nowMs run} (hget : s.runs id = some run) (hphase : run.phase = .rejected) :
      Moved s (.backOff id nowMs) { s.finish id with row := s.row.growErrorBackoff nowMs }

theorem check_moved {nowMs : Int} (hget : s.runs id = some run) (hphase : run.phase = .queued) :
    s.Moved (.check id nowMs) (s.check id run nowMs) := by
  unfold check
  split
  · exact .idle _
  · rename_i hfree
    split
    · exact .dropped
    · rename_i hpass
      have hsame : s.row.accessToken = run.accessBefore := by
        by_contra hne
        exact hpass (.inl hne)
      exact .posted hget hphase (by simpa using hfree) hsame

theorem outcome_moved {result : RefreshResult} {nowMs : Int} (hget : s.runs id = some run)
    (hphase : run.phase = .answered result) :
    s.Moved (.outcome id nowMs) (s.outcome id run result nowMs) := by
  cases result with
  | success tokens => exact .succeeded hget hphase
  | authRejected status code => exact .rejected hget hphase
  | transient => exact .deferred hget hphase

theorem step_moved (s : RowRace) (event : RaceEvent) : s.Moved event (s.step event) := by
  cases event with
  | plan id force nowMs =>
    simp only [step, plan]
    split
    · exact .planned rfl
    · exact .idle _
  | relogin login => exact .login login
  | check id nowMs =>
    simp only [step]
    split
    · rename_i run hget
      split
      · rename_i hphase
        exact check_moved hget hphase
      · exact .idle _
    · exact .idle _
  | answer id result =>
    simp only [step]
    split
    · rename_i run hget
      split
      · rename_i hphase
        exact .answered hget hphase
      · exact .idle _
    · exact .idle _
  | adopt id adopted newer =>
    simp only [step]
    split
    · rename_i run hget
      split
      · rename_i tokens hphase
        unfold adopt
        split
        · exact .adopted hget hphase
        · exact .idle _
      · exact .idle _
    · exact .idle _
  | outcome id nowMs =>
    simp only [step]
    split
    · rename_i run hget
      split
      · rename_i result hphase
        exact outcome_moved hget hphase
      · exact .idle _
    · exact .idle _
  | backOff id nowMs =>
    simp only [step]
    split
    · rename_i run hget
      split
      · rename_i hphase
        exact .backedOff hget hphase
      · exact .idle _
    · exact .idle _

variable {s' : RowRace}

/-- A login leaves every refresh under way in order, where none has a success to write. -/
theorem guarded_login (h : s.Guarded) {login : Login} (hun : s.Undisturbed (.relogin login)) :
    Guarded { s with row := s.row.relogin login, logins := s.logins + 1 } := by
  intro id run hget
  have hok := h id run hget
  cases hphase : run.phase with
  | queued => exact run_ok_queued hphase
  | posting =>
    simp only [RunOk, hphase] at hok ⊢
    exact hok
  | answered result =>
    simp only [RunOk, hphase] at hok ⊢
    exact ⟨hok.1, .inl (hun id run result hget hphase)⟩
  | rejected =>
    simp only [RunOk, hphase] at hok ⊢
    exact hok

/-- The refresh that passes its check takes the lock, and every other one is still queued. -/
theorem guarded_posted (h : s.Guarded) (hfree : s.lock = none)
    (hfresh : s.logins ≤ run.plannedAt) :
    Guarded { s.setRun id (some { run with phase := .posting, checkedAt := s.logins }) with
      lock := some id } := by
  intro other run' hget
  simp only [setRun, Function.update_apply] at hget
  split at hget
  · rename_i heq
    subst heq
    obtain rfl := Option.some_injective _ hget
    exact ⟨rfl, hfresh⟩
  · refine run_ok_queued (queued_of_run_ok (h other run' hget) ?_)
    rw [hfree]
    nofun

theorem guarded_moved {event : RaceEvent} (h : s.Guarded) (hun : s.Undisturbed event)
    (hmoved : s.Moved event s') : s'.Guarded := by
  cases hmoved with
  | idle event => exact h
  | login login => exact guarded_login h hun
  | planned hphase =>
    exact guarded_set_run h fun run heq => run_ok_queued (Option.some_injective _ heq ▸ hphase)
  | dropped => exact guarded_set_run h nofun
  | posted hget hphase hfree hsame =>
    exact guarded_posted h hfree (Nat.le_of_not_lt fun hlt => hun _ hget hphase hlt hsame)
  | @answered id result run hget hphase =>
    have hok := h id run hget
    simp only [RunOk, hphase] at hok
    refine guarded_set_run h fun run' heq => ?_
    obtain rfl := Option.some_injective _ heq
    refine ⟨hok.1, ?_⟩
    by_cases hlt : run.checkedAt < s.logins
    · exact .inl (hun run hget hphase hlt)
    · exact .inr ((Nat.le_of_not_lt hlt).trans hok.2)
  | @adopted id _ _ run tokens hget hphase =>
    have hok := h id run hget
    simp only [RunOk, hphase, reduceCtorEq, false_or] at hok
    refine guarded_set_run h fun run' heq => ?_
    obtain rfl := Option.some_injective _ heq
    exact ⟨hok.1, .inr hok.2⟩
  | succeeded hget hphase => exact guarded_finish h (h.answered hget hphase).1
  | deferred hget hphase => exact guarded_finish h (h.answered hget hphase).1
  | rejected hget hphase =>
    have hlock := (h.answered hget hphase).1
    exact guarded_set_run h fun run' heq => Option.some_injective _ heq ▸ hlock
  | @backedOff id nowMs run hget hphase =>
    have hlock := h id run hget
    simp only [RunOk, hphase] at hlock
    exact guarded_finish h hlock

/-- A stale refresh that has its answer has failed for the moment. -/
theorem Guarded.transient_of_stale (h : s.Guarded) {event : RaceEvent} {other : Nat}
    {result : RefreshResult} (hget : s.runs other = some run)
    (hphase : run.phase = .answered result) (hevent : event.refresh = some other)
    (hid : event.refresh = some id) (hstale : s.Stale id) : result = .transient := by
  rw [hevent] at hid
  obtain rfl := Option.some_injective _ hid
  exact (h.answered hget hphase).2.resolve_right fun hnot => hnot hstale

/-- A stale refresh has nothing to write but the cooldown and the backoff. -/
theorem same_credential_moved {event : RaceEvent} (h : s.Guarded) (hmoved : s.Moved event s')
    (hid : event.refresh = some id) (hstale : s.Stale id) : s.row.SameCredential s'.row := by
  cases hmoved with
  | idle event => rfl
  | login login => cases hid
  | planned hphase => rfl
  | dropped => rfl
  | posted hget hphase hfree hsame => rfl
  | answered hget hphase => rfl
  | adopted hget hphase => cases h.transient_of_stale hget hphase rfl hid hstale
  | succeeded hget hphase => cases h.transient_of_stale hget hphase rfl hid hstale
  | deferred hget hphase => exact s.row.same_credential_cooldown _
  | rejected hget hphase => cases h.transient_of_stale hget hphase rfl hid hstale
  | @backedOff id nowMs run hget hphase => exact s.row.same_credential_grow_backoff nowMs

theorem keeps_login_of_guarded (h : s.Guarded) (event : RaceEvent) : s.KeepsLogin event :=
  fun _ hid hstale => same_credential_moved h (s.step_moved event) hid hstale

/-- What reaches its outcome is written whatever came between: a stale refresh keeps the login only
if it failed for the moment, or if the row already is what it writes. -/
theorem keeps_login_outcome_iff {result : RefreshResult} (hget : s.runs id = some run)
    (hphase : run.phase = .answered result) (hstale : s.Stale id) (nowMs : Int) :
    s.KeepsLogin (.outcome id nowMs) ↔
      match result with
      | .transient => True
      | .authRejected _ _ => s.row.status = .error
      | .success tokens => tokens.accessToken = s.row.accessToken ∧
          tokens.refreshToken = s.row.refreshToken ∧
          some tokens.expiresAtMs = s.row.expiresAtMs ∧ s.row.status ≠ .error := by
  have hstep : s.step (.outcome id nowMs) = s.outcome id run result nowMs := by
    simp only [step, hget, hphase]
  have hkeeps : s.KeepsLogin (.outcome id nowMs) ↔
      s.row.SameCredential (s.outcome id run result nowMs).row := by
    rw [← hstep]
    refine ⟨fun h => h id rfl hstale, fun h other hid _ => ?_⟩
    exact h
  rw [hkeeps]
  cases result with
  | transient => exact iff_of_true (s.row.same_credential_cooldown _) trivial
  | authRejected status code =>
    exact ⟨fun h => h.status.symm, fun h => ⟨rfl, rfl, rfl, h.symm⟩⟩
  | success tokens =>
    constructor
    · intro h
      refine ⟨h.accessToken, h.refreshToken, h.expiresAtMs, fun herr => ?_⟩
      have hstatus : (if s.row.status = .error then AccountStatus.active else s.row.status) =
          s.row.status := h.status
      rw [if_pos herr, herr] at hstatus
      cases hstatus
    · rintro ⟨haccess, hrefresh, hexpires, hstatus⟩
      exact ⟨haccess, hrefresh, hexpires, if_neg hstatus⟩

theorem guarded_start (row : CredentialRow) (released : Bool) :
    Guarded { row := row, released := released } := nofun

/-- In a run whose logins the refreshes under way survive, no step of a refresh changes the
credentials or the status that a login since its snapshot has left. -/
theorem login_kept (row : CredentialRow) (released : Bool) (events : List RaceEvent)
    (h : Lib.EachStep step Undisturbed { row := row, released := released } events) :
    Lib.EachStep step KeepsLogin { row := row, released := released } events :=
  Lib.each_step_of_invariant (I := Guarded)
    (fun s event hs hun => guarded_moved hs hun (s.step_moved event))
    (fun _ event hs _ => keeps_login_of_guarded hs event) (guarded_start row released) h

/-- A row whose refresh token has just been posted takes a login, by its name. -/
def adaLogin : Login where
  account := { name := "ada", provider := .anthropic }
  accessToken := "at-login"
  refreshToken := some "rt-login"
  expiresAt := some 1800000000000

def adaRow : CredentialRow where
  name := "ada"
  provider := .anthropic
  accessToken := "at-boot"
  refreshToken := some "rt-boot"
  expiresAtMs := some 1700000000000

/-- A login between the snapshot and the check. -/
theorem queued_refresh_stands_down :
    Lib.EachStep step KeepsLogin { row := adaRow, released := false }
      [.plan 0 true 0, .relogin adaLogin, .check 0 1] := by
  refine login_kept adaRow false _ (Lib.each_step_cons.mpr ⟨trivial, Lib.each_step_cons.mpr
    ⟨?_, Lib.each_step_cons.mpr ⟨?_, Lib.each_step_nil⟩⟩⟩)
  · intro id run result hget hphase
    have hrun : Function.update (fun _ => none) 0 (some
        { force := true, refreshToken := "rt-boot", accessBefore := "at-boot", plannedAt := 0 })
          id = some run := hget
    rw [Function.update_apply] at hrun
    split at hrun
    · obtain rfl := Option.some_injective _ hrun
      cases hphase
    · cases hrun
  · intro run hget _ _
    obtain rfl := Option.some_injective _ hget
    decide +kernel

/-- A login that lands after the check is overwritten by the older token family, and a rejection of
the token it replaced leaves the new row in error. -/
theorem login_after_check_overwritten :
    let late (result : RefreshResult) : List RaceEvent :=
      [.plan 0 true 0, .check 0 0, .relogin adaLogin, .answer 0 result, .outcome 0 1]
    let after (result : RefreshResult) : CredentialRow :=
      (Lib.exec step { row := adaRow, released := false } (late result)).row
    let older : RefreshResult := .success ⟨"at-older", some "rt-older", 1700003600000⟩
    (¬Lib.EachStep step KeepsLogin { row := adaRow, released := false } (late older) ∧
        (after older).accessToken = "at-older" ∧ (after older).refreshToken = some "rt-older") ∧
      ¬Lib.EachStep step KeepsLogin { row := adaRow, released := false }
          (late (.authRejected 400 none)) ∧
        (after (.authRejected 400 none)).accessToken = "at-login" ∧
        (after (.authRejected 400 none)).status = .error := by
  refine ⟨⟨fun h => ?_, rfl, rfl⟩, fun h => ?_, rfl, rfl⟩
  · have hkept := h [.plan 0 true 0, .check 0 0, .relogin adaLogin, .answer 0 _] (.outcome 0 1)
      List.prefix_rfl 0 rfl ⟨_, rfl, by decide +kernel⟩
    exact absurd hkept.accessToken (by decide +kernel)
  · have hkept := h [.plan 0 true 0, .check 0 0, .relogin adaLogin, .answer 0 _] (.outcome 0 1)
      List.prefix_rfl 0 rfl ⟨_, rfl, by decide +kernel⟩
    exact absurd hkept.status (by decide +kernel)

end RowRace

end TeamClaude
