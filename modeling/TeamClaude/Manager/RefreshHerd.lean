import TeamClaude.Manager.RefreshOnce

/-!
# A herd on a rejected token

Any number of refreshes of one row plan on the same token, and upstream rejects it. What stops a
follower under the refresh lock is a new access token or a running cooldown; a rejection leaves
neither, so that every caller that gets the lock outside a cooldown posts the dead token again and
pushes the error backoff one step further.
-/

namespace TeamClaude

open Lib

/-- The error backoff after one more rejection. -/
def nextBackoff (backoffMs : Int) : Int :=
  if backoffMs = 0 then errorReprobeBaseMs else min (backoffMs * 2) errorReprobeCapMs

theorem CredentialRow.grow_error_backoff_ms (row : CredentialRow) (nowMs : Int) :
    (row.growErrorBackoff nowMs).errorBackoffMs = nextBackoff row.errorBackoffMs := rfl

namespace RowRace

def runIn (s : RowRace) (id : Nat) (phase : RefreshPhase) : Option RefreshRun :=
  (s.runs id).filter fun run => decide (run.phase = phase)

theorem run_in_iff {s : RowRace} {id : Nat} {phase : RefreshPhase} {run : RefreshRun} :
    s.runIn id phase = some run ↔ s.runs id = some run ∧ run.phase = phase := by
  simp [runIn, Option.filter_eq_some_iff]

/-- When a waiting refresh gets the lock in this step. -/
def lockTurn (s : RowRace) : RaceEvent → Option Int
  | .check id nowMs => if s.lock.isNone ∧ (s.runIn id .queued).isSome then some nowMs else none
  | _ => none

/-- The refresh token whose POST starts in this step. -/
def posts (s : RowRace) (event : RaceEvent) : Option String :=
  match event with
  | .check id _ =>
    if (s.runIn id .queued).isSome then
      ((s.step event).runIn id .posting).map RefreshRun.refreshToken
    else none
  | _ => none

/-- The step grows the error backoff, to the value given. -/
def backsOff (s : RowRace) (event : RaceEvent) : Option Int :=
  match event with
  | .backOff id _ =>
    if (s.runIn id .rejected).isSome then some (s.step event).row.errorBackoffMs else none
  | _ => none

/-- A step of the herd: no login lands, and every answer rejects the token. -/
def OfHerd : RaceEvent → Prop
  | .relogin _ => False
  | .answer _ result => ∃ status code, result = .authRejected status code
  | _ => True

/-- A refresh past its check holds the lock and has, if anything, a rejection. -/
def HerdRun (lock : Option Nat) (id : Nat) (run : RefreshRun) : Prop :=
  match run.phase with
  | .queued => True
  | .answered result => lock = some id ∧ ∃ status code, result = .authRejected status code
  | _ => lock = some id

/-- The row keeps its tokens and its cooldown, every refresh planned on these tokens, and the lock is
held by a refresh past its check or by none. -/
structure Herd (row : CredentialRow) (token : String) (s : RowRace) : Prop where
  provider : s.row.provider = .anthropic
  access : s.row.accessToken = row.accessToken
  refresh : s.row.refreshToken = some token
  cooldown : s.row.refreshRetryAfterMs = row.refreshRetryAfterMs
  planned : ∀ id run, s.runs id = some run →
    run.accessBefore = row.accessToken ∧ run.refreshToken = token
  runs : ∀ id run, s.runs id = some run → HerdRun s.lock id run

theorem herd_start {row : CredentialRow} {token : String} (hprovider : row.provider = .anthropic)
    (htoken : row.refreshToken = some token) : Herd row token { row := row } :=
  ⟨hprovider, rfl, htoken, rfl, nofun, nofun⟩

section Runs

variable {row : CredentialRow} {token : String} {s s' : RowRace} {id : Nat} {run : RefreshRun}

theorem herd_run_queued {lock : Option Nat} (h : run.phase = .queued) : HerdRun lock id run := by
  simp [HerdRun, h]

/-- Only the holder of the lock is past its check. -/
theorem queued_of_herd_run {lock : Option Nat} (h : HerdRun lock id run) (hlock : lock ≠ some id) :
    run.phase = .queued := by
  unfold HerdRun at h
  split at h
  · assumption
  · exact absurd h.1 hlock
  · exact absurd h hlock

theorem Herd.answered (h : Herd row token s) {result : RefreshResult} (hget : s.runs id = some run)
    (hphase : run.phase = .answered result) :
    s.lock = some id ∧ ∃ status code, result = .authRejected status code := by
  simpa only [HerdRun, hphase] using h.runs id run hget

theorem Herd.holder (h : Herd row token s) (hget : s.runs id = some run)
    (hphase : run.phase ≠ .queued) : s.lock = some id := by
  by_contra hlock
  exact hphase (queued_of_herd_run (h.runs id run hget) hlock)

/-- A step that leaves the tokens and the cooldown of the row, and changes one run: the lock stays,
or it was free or that run's. -/
theorem Herd.update (h : Herd row token s) {run' : Option RefreshRun}
    (hprovider : s'.row.provider = s.row.provider)
    (haccess : s'.row.accessToken = s.row.accessToken)
    (hrefresh : s'.row.refreshToken = s.row.refreshToken)
    (hcooldown : s'.row.refreshRetryAfterMs = s.row.refreshRetryAfterMs)
    (hruns : s'.runs = Function.update s.runs id run')
    (hlock : s'.lock = s.lock ∨ s.lock = none ∨ s.lock = some id)
    (hplanned : ∀ run, run' = some run →
      run.accessBefore = row.accessToken ∧ run.refreshToken = token)
    (hrun : ∀ run, run' = some run → HerdRun s'.lock id run) : Herd row token s' := by
  refine ⟨hprovider.trans h.provider, haccess.trans h.access, hrefresh.trans h.refresh,
    hcooldown.trans h.cooldown, fun other run hget => ?_, fun other run hget => ?_⟩
  · rw [hruns, Function.update_apply] at hget
    split at hget
    · exact hplanned run hget
    · exact h.planned other run hget
  · rw [hruns, Function.update_apply] at hget
    split at hget
    · rename_i heq
      subst heq
      exact hrun run hget
    · rename_i hne
      rcases hlock with hlock | hlock | hlock
      · rw [hlock]
        exact h.runs other run hget
      · refine herd_run_queued (queued_of_herd_run (h.runs other run hget) ?_)
        rw [hlock]
        nofun
      · refine herd_run_queued (queued_of_herd_run (h.runs other run hget) ?_)
        rw [hlock]
        exact fun heq => hne (Option.some_injective _ heq).symm

end Runs

section Step

variable {row : CredentialRow} {token : String} {s s' : RowRace} {event : RaceEvent}

theorem herd_plan (h : Herd row token s) (id : Nat) (force : Bool) (nowMs : Int) :
    Herd row token (s.step (.plan id force nowMs)) := by
  simp only [step, plan]
  split
  · rename_i refreshToken accessBefore _ hplan
    have hpair := s.row.refresh_plan_pair hplan
    have haccess : s.row.accessToken = accessBefore := (Prod.ext_iff.mp hpair).1
    have hrefresh : s.row.refreshToken = some refreshToken := (Prod.ext_iff.mp hpair).2
    refine h.update rfl rfl rfl rfl (rfl : (s.setRun id _).runs = _) (.inl rfl) ?_ ?_
    · intro run heq
      obtain rfl := Option.some_injective _ heq
      exact ⟨haccess.symm.trans h.access,
        Option.some_injective _ (hrefresh.symm.trans h.refresh)⟩
    · intro run heq
      obtain rfl := Option.some_injective _ heq
      exact herd_run_queued rfl
  · exact h

theorem herd_moved (h : Herd row token s) (hherd : OfHerd event) (hplan : ∀ id force nowMs,
    event ≠ .plan id force nowMs) (hmoved : s.Moved event s') : Herd row token s' := by
  cases hmoved with
  | idle event => exact h
  | login login => exact hherd.elim
  | @planned id force nowMs run hphase => exact absurd rfl (hplan id force nowMs)
  | dropped => exact h.update rfl rfl rfl rfl rfl (.inl rfl) nofun nofun
  | @posted id nowMs run hget hphase hfree hsame =>
    refine h.update rfl rfl rfl rfl rfl (.inr (.inl hfree)) ?_ ?_
    · intro run' heq
      obtain rfl := Option.some_injective _ heq
      exact h.planned id run hget
    · intro run' heq
      obtain rfl := Option.some_injective _ heq
      rfl
  | @answered id result run hget hphase =>
    have hlock := h.holder hget (by simp [hphase])
    refine h.update rfl rfl rfl rfl rfl (.inl rfl) ?_ ?_
    · intro run' heq
      obtain rfl := Option.some_injective _ heq
      exact h.planned id run hget
    · intro run' heq
      obtain rfl := Option.some_injective _ heq
      exact ⟨hlock, hherd⟩
  | adopted hget hphase =>
    obtain ⟨-, status, code, hresult⟩ := h.answered hget hphase
    cases hresult
  | succeeded hget hphase =>
    obtain ⟨-, status, code, hresult⟩ := h.answered hget hphase
    cases hresult
  | deferred hget hphase =>
    obtain ⟨-, status, code, hresult⟩ := h.answered hget hphase
    cases hresult
  | @rejected id nowMs run status code hget hphase =>
    refine h.update rfl rfl rfl rfl rfl (.inl rfl) ?_ ?_
    · intro run' heq
      obtain rfl := Option.some_injective _ heq
      exact h.planned id run hget
    · intro run' heq
      obtain rfl := Option.some_injective _ heq
      exact (h.answered hget hphase).1
  | @backedOff id nowMs run hget hphase =>
    have hlock := h.holder hget (by simp [hphase])
    exact h.update rfl rfl rfl rfl rfl (.inr (.inr hlock)) nofun nofun

theorem herd_step (h : Herd row token s) (hherd : OfHerd event) : Herd row token (s.step event) := by
  by_cases hplan : ∃ id force nowMs, event = .plan id force nowMs
  · obtain ⟨id, force, nowMs, rfl⟩ := hplan
    exact herd_plan h id force nowMs
  · exact herd_moved h hherd (fun id force nowMs heq => hplan ⟨id, force, nowMs, heq⟩)
      (s.step_moved event)

/-- Under the lock a refresh of the herd ends where a cooldown is running, and posts otherwise. -/
theorem Herd.herd_check (h : Herd row token s) (id : Nat) (nowMs : Int) :
    (s.lockTurn (.check id nowMs) = none ∧ s.step (.check id nowMs) = s) ∨
      ∃ run, s.runIn id .queued = some run ∧ s.lock = none ∧
        s.lockTurn (.check id nowMs) = some nowMs ∧
        s.step (.check id nowMs) =
          if row.inCooldown nowMs then s.setRun id none
          else { s.setRun id (some { run with phase := .posting, checkedAt := s.logins }) with
            lock := some id } := by
  cases hwaiting : s.runIn id .queued with
  | none =>
    refine .inl ⟨by simp [lockTurn, hwaiting], ?_⟩
    simp only [step]
    split
    · rename_i run hget
      split
      · rename_i hphase
        rw [run_in_iff.mpr ⟨hget, hphase⟩] at hwaiting
        cases hwaiting
      · rfl
    · rfl
  | some run =>
    obtain ⟨hget, hphase⟩ := run_in_iff.mp hwaiting
    have hstep : s.step (.check id nowMs) = s.check id run nowMs := by
      simp only [step, hget, hphase, if_true]
    cases hlock : s.lock with
    | some holder =>
      exact .inl ⟨by simp [lockTurn, hlock], by simp [hstep, check, hlock]⟩
    | none =>
      have hsame : s.row.accessToken = run.accessBefore :=
        h.access.trans (h.planned id run hget).1.symm
      have hcooldown : s.row.inCooldown nowMs = row.inCooldown nowMs := by
        simp only [CredentialRow.inCooldown, h.cooldown]
      exact .inr ⟨run, rfl, rfl, by simp [lockTurn, hlock, hwaiting],
        by simp [hstep, check, hlock, hsame, hcooldown]⟩

/-- A refresh of the herd that backs off lets go of the lock. -/
theorem Herd.herd_back_off (h : Herd row token s) (id : Nat) (nowMs : Int) :
    (s.backsOff (.backOff id nowMs) = none ∧ s.step (.backOff id nowMs) = s) ∨
      (s.backsOff (.backOff id nowMs)).isSome ∧ s.lock.isSome ∧
        s.step (.backOff id nowMs) = { s.finish id with row := s.row.growErrorBackoff nowMs } := by
  cases hrejected : s.runIn id .rejected with
  | none =>
    refine .inl ⟨by simp [backsOff, hrejected], ?_⟩
    simp only [step]
    split
    · rename_i run hget
      split
      · rename_i hphase
        rw [run_in_iff.mpr ⟨hget, hphase⟩] at hrejected
        cases hrejected
      · rfl
    · rfl
  | some run =>
    obtain ⟨hget, hphase⟩ := run_in_iff.mp hrejected
    have hlock := h.holder hget (by simp [hphase])
    refine .inr ⟨by simp [backsOff, hrejected], by simp [hlock], ?_⟩
    simp only [step, hget, hphase, if_true]

/-- The other steps of the herd leave the lock and the backoff alone. -/
theorem Herd.herd_other (h : Herd row token s) (hherd : OfHerd event)
    (hcheck : ∀ id nowMs, event ≠ .check id nowMs)
    (hback : ∀ id nowMs, event ≠ .backOff id nowMs) (hmoved : s.Moved event s') :
    s'.lock = s.lock ∧ s'.row.errorBackoffMs = s.row.errorBackoffMs := by
  cases hmoved with
  | idle event => exact ⟨rfl, rfl⟩
  | login login => exact hherd.elim
  | planned hphase => exact ⟨rfl, rfl⟩
  | dropped => exact absurd rfl (hcheck _ _)
  | posted hget hphase hfree hsame => exact absurd rfl (hcheck _ _)
  | answered hget hphase => exact ⟨rfl, rfl⟩
  | adopted hget hphase =>
    obtain ⟨-, status, code, hresult⟩ := h.answered hget hphase
    cases hresult
  | succeeded hget hphase =>
    obtain ⟨-, status, code, hresult⟩ := h.answered hget hphase
    cases hresult
  | deferred hget hphase =>
    obtain ⟨-, status, code, hresult⟩ := h.answered hget hphase
    cases hresult
  | rejected hget hphase => exact ⟨rfl, rfl⟩
  | backedOff hget hphase => exact absurd rfl (hback _ _)

/-- A waiting caller that gets the lock posts the token, unless a cooldown is running. -/
theorem Herd.herd_posts (h : Herd row token s) (event : RaceEvent) :
    s.posts event =
      (s.lockTurn event).bind fun nowMs => if row.inCooldown nowMs then none else some token := by
  cases event with
  | check id nowMs =>
    rcases h.herd_check id nowMs with ⟨hturn, hstep⟩ | ⟨run, hwaiting, -, hturn, hstep⟩
    · rw [posts, hturn, hstep, Option.bind_none]
      split
      · rename_i hwaiting
        obtain ⟨run, hrun⟩ := Option.isSome_iff_exists.mp hwaiting
        obtain ⟨hget, hphase⟩ := run_in_iff.mp hrun
        simp [runIn, hget, hphase]
      · rfl
    · have htoken := (h.planned id run (run_in_iff.mp hwaiting).1).2
      rw [posts, hturn, hstep, hwaiting, Option.bind_some]
      by_cases hcool : row.inCooldown nowMs
      · simp [hcool, runIn, setRun]
      · simp [hcool, runIn, setRun, htoken]
  | plan => rfl
  | answer => rfl
  | adopt => rfl
  | outcome => rfl
  | backOff => rfl
  | relogin => rfl

/-- How many refreshes hold the lock. -/
def held (s : RowRace) : Nat := s.lock.toList.length

/-- A POST takes the lock and a backoff lets go of it. -/
theorem Herd.herd_balance (h : Herd row token s) (hherd : OfHerd event) :
    (s.posts event).toList.length + s.held =
      (s.backsOff event).toList.length + (s.step event).held := by
  cases event with
  | check id nowMs =>
    rw [h.herd_posts]
    rcases h.herd_check id nowMs with ⟨hturn, hstep⟩ | ⟨run, -, hfree, hturn, hstep⟩
    · simp [hturn, hstep, backsOff]
    · rw [hturn, hstep, Option.bind_some]
      split
      · simp [held, hfree, setRun, backsOff]
      · simp [held, hfree, backsOff]
  | backOff id nowMs =>
    rcases h.herd_back_off id nowMs with ⟨hnone, hstep⟩ | ⟨hsome, hlock, hstep⟩
    · simp [posts, hnone, hstep]
    · obtain ⟨backoff, hbackoff⟩ := Option.isSome_iff_exists.mp hsome
      obtain ⟨holder, hholder⟩ := Option.isSome_iff_exists.mp hlock
      simp [posts, hbackoff, hstep, held, hholder, finish]
  | _ =>
    have hlock := (h.herd_other hherd (by simp) (by simp) (s.step_moved _)).1
    simp [posts, backsOff, held, hlock]

theorem Herd.herd_backoff (h : Herd row token s) (hherd : OfHerd event) :
    (s.step event).row.errorBackoffMs =
      nextBackoff^[(s.backsOff event).toList.length] s.row.errorBackoffMs := by
  cases event with
  | check id nowMs =>
    rcases h.herd_check id nowMs with ⟨-, hstep⟩ | ⟨run, -, -, -, hstep⟩
    · simp [hstep, backsOff]
    · rw [hstep]
      split
      · rfl
      · rfl
  | backOff id nowMs =>
    rcases h.herd_back_off id nowMs with ⟨hnone, hstep⟩ | ⟨hsome, -, hstep⟩
    · simp [hnone, hstep]
    · obtain ⟨backoff, hbackoff⟩ := Option.isSome_iff_exists.mp hsome
      rw [hstep, hbackoff]
      exact s.row.grow_error_backoff_ms nowMs
  | _ => exact (h.herd_other hherd (by simp) (by simp) (s.step_moved _)).2

end Step

/-! ## The whole herd -/

section Runs

variable {row : CredentialRow} {token : String} {events : List RaceEvent}

/-- The times at which callers of the herd got the lock with no cooldown running. -/
def clearTurns (row : CredentialRow) (events : List RaceEvent) : List Int :=
  (observed step lockTurn { row := row } events).filter fun nowMs => !row.inCooldown nowMs

/-- Every caller that gets the lock outside a cooldown posts the token. -/
theorem herd_posts_run (hprovider : row.provider = .anthropic) (htoken : row.refreshToken = some token)
    (hherd : ∀ event ∈ events, OfHerd event) :
    observed step posts { row := row } events =
      List.replicate (clearTurns row events).length token := by
  have hkeep : ∀ s event, Herd row token s → OfHerd event → Herd row token (step s event) :=
    fun s event h he => herd_step h he
  rw [observed_bind (fun s event h _ => h.herd_posts event) hkeep (herd_start hprovider htoken)
    hherd]
  unfold clearTurns
  induction observed step lockTurn { row := row } events with
  | nil => rfl
  | cons nowMs turns ih =>
    cases hcool : row.inCooldown nowMs with
    | true => simp [hcool, ih]
    | false => simp [hcool, ih, List.replicate_succ]

/-- When the lock is free again, every POST has pushed the backoff one step. -/
theorem herd_backoffs_run (hprovider : row.provider = .anthropic)
    (htoken : row.refreshToken = some token) (hherd : ∀ event ∈ events, OfHerd event)
    (hfree : (exec step { row := row } events).lock = none) :
    (observed step backsOff { row := row } events).length = (clearTurns row events).length ∧
      (exec step { row := row } events).row.errorBackoffMs =
        nextBackoff^[(clearTurns row events).length] row.errorBackoffMs := by
  have hstart := herd_start hprovider htoken
  have hkeep : ∀ s event, Herd row token s → OfHerd event → Herd row token (step s event) :=
    fun s event h he => herd_step h he
  have hbalance : (observed step posts { row := row } events).length + held { row := row } =
      (observed step backsOff { row := row } events).length +
        held (exec step { row := row } events) :=
    observed_balance (fun s event h he => h.herd_balance he) hkeep hstart hherd
  have hcount : (observed step backsOff { row := row } events).length =
      (clearTurns row events).length := by
    rw [herd_posts_run hprovider htoken hherd, List.length_replicate] at hbalance
    have hnone : held { row := row } = 0 := rfl
    have hend : held (exec step { row := row } events) = 0 := by
      rw [held, hfree]
      rfl
    omega
  refine ⟨hcount, ?_⟩
  rw [← hcount]
  exact observed_iterate (fun s => s.row.errorBackoffMs) nextBackoff
    (fun s event h he => h.herd_backoff he) hkeep hstart hherd

/-- A rejected token is posted once and the backoff pushed one step exactly when at most one caller
gets the lock outside a cooldown. -/
theorem rejected_token_posted_once_iff (hprovider : row.provider = .anthropic)
    (htoken : row.refreshToken = some token) (hherd : ∀ event ∈ events, OfHerd event)
    (hfree : (exec step { row := row } events).lock = none) :
    (observed step posts { row := row } events ≠ [] →
      observed step posts { row := row } events = [token] ∧
        (observed step backsOff { row := row } events).length = 1 ∧
        (exec step { row := row } events).row.errorBackoffMs = nextBackoff row.errorBackoffMs) ↔
      (clearTurns row events).length ≤ 1 := by
  obtain ⟨hcount, hbackoff⟩ := herd_backoffs_run hprovider htoken hherd hfree
  rw [herd_posts_run hprovider htoken hherd, hcount, hbackoff]
  constructor
  · intro hone
    by_contra hmany
    have hposted := (hone (by
      rw [Ne, List.replicate_eq_nil_iff]
      omega)).1
    have hlength := congrArg List.length hposted
    rw [List.length_replicate, List.length_singleton] at hlength
    omega
  · intro hle hposted
    have hone : (clearTurns row events).length = 1 := by
      rw [Ne, List.replicate_eq_nil_iff] at hposted
      omega
    rw [hone]
    exact ⟨rfl, rfl, rfl⟩

end Runs

/-- A refresh of the herd gets the lock, posts, is rejected and backs off. -/
def rejectedTurn (id : Nat) : List RaceEvent :=
  [.check id 1700000000000, .answer id (.authRejected 400 none), .outcome id 1700000000000,
    .backOff id 1700000000000]

/-- The callers plan on the same token, then take their turns. -/
def rejectedHerd (callers : List Nat) : List RaceEvent :=
  callers.map (fun id => .plan id false 1700000000000) ++ callers.flatMap rejectedTurn

theorem of_rejected_herd (callers : List Nat) : ∀ event ∈ rejectedHerd callers, OfHerd event := by
  intro event hmem
  simp only [rejectedHerd, rejectedTurn, List.mem_append, List.mem_map, List.mem_flatMap,
    List.mem_cons, List.not_mem_nil, or_false] at hmem
  rcases hmem with ⟨id, -, rfl⟩ | ⟨id, -, rfl | rfl | rfl | rfl⟩
  · trivial
  · trivial
  · exact ⟨400, none, rfl⟩
  · trivial
  · trivial

theorem lone_rejection_posted_once :
    observed step posts { row := adaRow } (rejectedHerd [0]) = ["rt-boot"] ∧
      (observed step backsOff { row := adaRow } (rejectedHerd [0])).length = 1 ∧
      (exec step { row := adaRow } (rejectedHerd [0])).row.errorBackoffMs =
        nextBackoff adaRow.errorBackoffMs :=
  (rejected_token_posted_once_iff rfl rfl (of_rejected_herd [0]) (by decide +kernel)).mpr
    (by decide +kernel) (by decide +kernel)

/-- Six callers that planned before the first answer post the dead token six times, and the backoff
is at its cap. -/
theorem herd_reaches_cap :
    observed step posts { row := adaRow } (rejectedHerd [0, 1, 2, 3, 4, 5]) =
        List.replicate 6 "rt-boot" ∧
      (observed step backsOff { row := adaRow } (rejectedHerd [0, 1, 2, 3, 4, 5])).length = 6 ∧
      (exec step { row := adaRow } (rejectedHerd [0, 1, 2, 3, 4, 5])).row.errorBackoffMs =
        errorReprobeCapMs ∧
      nextBackoff adaRow.errorBackoffMs = errorReprobeBaseMs := by
  decide +kernel

end RowRace

end TeamClaude
