import TeamClaude.Manager.RefreshRace

/-!
# A refresh token is spent once

Any number of refreshes plan on the same row before the first of them posts. What keeps the others
from posting the token again is what the leader leaves on the row before it lets go of the refresh
lock: a new access token after a success, a cooldown after a failure for the moment.
-/

namespace TeamClaude

/-- A row with its refreshes, and what has become of its tokens: the pairs the row has held, the
refresh tokens whose POST succeeded, and those whose POST failed for the moment, with the time the
cooldown was stamped. -/
structure TokenLedger extends RowRace where
  held : List (String × Option String)
  spent : List String := []
  deferred : List (String × Int) := []

theorem CredentialRow.refresh_plan_pair (row : CredentialRow) {released force : Bool} {nowMs : Int}
    {token access : String} (h : row.refreshPlan released force nowMs = some (token, access)) :
    (row.accessToken, row.refreshToken) = (access, some token) := by
  unfold refreshPlan at h
  split at h
  · cases h
  · split at h
    · cases h
    · rename_i refreshToken hrefresh
      split at h
      · cases h
      · split at h
        · cases h
        · obtain ⟨rfl, rfl⟩ := Prod.ext_iff.mp (Option.some_injective _ h)
          exact Prod.ext rfl hrefresh

namespace RowRace

/-- The access token and the refresh token of the row. -/
def pair (s : RowRace) : String × Option String :=
  (s.row.accessToken, s.row.refreshToken)

/-- The refresh token of the POST that the step reports as a success. -/
def spends (s : RowRace) : RaceEvent → Option String
  | .answer id (.success _) =>
    match s.runs id with
    | some run => if run.phase = .posting then some run.refreshToken else none
    | none => none
  | _ => none

/-- The refresh token whose POST failed for the moment, and when the step stamps its cooldown. -/
def defers (s : RowRace) : RaceEvent → Option (String × Int)
  | .outcome id nowMs =>
    match s.runs id with
    | some run => if run.phase = .answered .transient then some (run.refreshToken, nowMs) else none
    | none => none
  | _ => none

/-- The step starts a POST of the refresh token at the time: a queued refresh goes over to it. -/
def Posts (s : RowRace) (event : RaceEvent) (token : String) (nowMs : Int) : Prop :=
  ∃ id run run', event = .check id nowMs ∧ s.runs id = some run ∧ run.phase = .queued ∧
    (s.step event).runs id = some run' ∧ run'.phase = .posting ∧ run'.refreshToken = token

/-- A queued refresh posts under a free lock, where the row has its access token and no cooldown. -/
theorem check_passed (s : RowRace) {id : Nat} {run run' : RefreshRun} {nowMs : Int}
    (hget : s.runs id = some run) (hphase : run.phase = .queued)
    (hget' : (s.step (.check id nowMs)).runs id = some run') (hphase' : run'.phase = .posting) :
    s.lock = none ∧ s.row.accessToken = run.accessBefore ∧ s.row.inCooldown nowMs = false ∧
      run'.refreshToken = run.refreshToken := by
  simp only [step, hget, hphase, if_true] at hget'
  unfold check at hget'
  split at hget'
  · obtain rfl := Option.some_injective _ (hget.symm.trans hget')
    rw [hphase] at hphase'
    cases hphase'
  · rename_i hfree
    split at hget'
    · simp only [setRun, Function.update_self, reduceCtorEq] at hget'
    · rename_i hpass
      rw [not_or, Decidable.not_not, Bool.not_eq_true] at hpass
      simp only [setRun, Function.update_self] at hget'
      obtain rfl := Option.some_injective _ hget'
      exact ⟨by simpa using hfree, hpass.1, hpass.2, rfl⟩

end RowRace

namespace TokenLedger

/-- No refresh is under way. -/
def start (row : CredentialRow) (released : Bool) : TokenLedger where
  row := row
  released := released
  held := [(row.accessToken, row.refreshToken)]

def step (s : TokenLedger) (event : RaceEvent) : TokenLedger where
  toRowRace := s.toRowRace.step event
  held := (s.toRowRace.step event).pair :: s.held
  spent := (s.spends event).toList ++ s.spent
  deferred := (s.defers event).toList ++ s.deferred

/-- The tokens are not those of a pair the row has held. -/
def New (s : TokenLedger) (tokens : Tokens) : Prop :=
  ∀ pair ∈ s.held, tokens.accessToken ≠ pair.1 ∧ tokens.refreshToken ≠ pair.2

/-- No login lands on the row, a success brings tokens the row has not held, and the clock that
stamps a cooldown is not behind an earlier stamp. -/
def Admits (s : TokenLedger) : RaceEvent → Prop
  | .relogin _ => False
  | .answer _ (.success tokens) => s.New tokens
  | .outcome _ nowMs => ∀ failure ∈ s.deferred, failure.2 ≤ nowMs
  | _ => True

def AdmitsAtAnyClock (s : TokenLedger) : RaceEvent → Prop
  | .outcome _ _ => True
  | event => s.Admits event

/-- A POST is not of a spent token, and does not start inside a cooldown of its token. -/
def SpendsOnce (s : TokenLedger) (event : RaceEvent) : Prop :=
  ∀ token nowMs, s.Posts event token nowMs →
    token ∉ s.spent ∧ ∀ stamped, (token, stamped) ∈ s.deferred → cooldownDeadline stamped ≤ nowMs

/-- What the history of the row says of it: an access token tells the refresh token it came with,
and a deferred token that the row still holds is cooling down. -/
structure HistorySound (s : TokenLedger) : Prop where
  provider : s.row.provider = .anthropic
  holds : s.pair ∈ s.held
  paired : ∀ p ∈ s.held, ∀ q ∈ s.held, p.1 = q.1 → p = q
  spent_held : ∀ token ∈ s.spent, ∃ access, (access, some token) ∈ s.held
  deferred_held : ∀ failure ∈ s.deferred, ∃ access, (access, some failure.1) ∈ s.held
  cooling : ∀ failure ∈ s.deferred, s.row.refreshToken = some failure.1 →
    ∃ deadline, s.row.refreshRetryAfterMs = some deadline ∧ cooldownDeadline failure.2 ≤ deadline

/-- A refresh past its check holds the lock and posts the token of the row, which is not spent; the
success it comes back with is new to the row. -/
def RunSound (s : TokenLedger) (id : Nat) (run : RefreshRun) : Prop :=
  match run.phase with
  | .queued => True
  | .answered (.success tokens) => s.lock = some id ∧ s.New tokens
  | _ => s.lock = some id ∧ s.pair = (run.accessBefore, some run.refreshToken) ∧
      run.refreshToken ∉ s.spent

structure Sound (s : TokenLedger) : Prop extends HistorySound s where
  planned : ∀ id run, s.runs id = some run → (run.accessBefore, some run.refreshToken) ∈ s.held
  runs_sound : ∀ id run, s.runs id = some run → s.RunSound id run
  unspent : s.lock = none → ∀ token, s.row.refreshToken = some token → token ∉ s.spent

section RunSound

variable {s s' : TokenLedger} {id : Nat} {run : RefreshRun}

theorem run_sound_queued (h : run.phase = .queued) : s.RunSound id run := by
  simp [RunSound, h]

/-- Only the holder of the lock is past its check. -/
theorem queued_of_run_sound (h : s.RunSound id run) (hlock : s.lock ≠ some id) :
    run.phase = .queued := by
  unfold RunSound at h
  split at h
  · assumption
  · exact absurd h.1 hlock
  · exact absurd h.1 hlock

theorem RunSound.congr (h : s.RunSound id run) (hlock : s'.lock = s.lock) (hpair : s'.pair = s.pair)
    (hheld : s'.held = s.pair :: s.held) (holds : s.pair ∈ s.held) (hspent : s'.spent = s.spent) :
    s'.RunSound id run := by
  unfold RunSound New at h ⊢
  split
  · trivial
  · rename_i tokens hphase
    rw [hphase] at h
    rw [hlock, hheld]
    exact ⟨h.1, List.forall_mem_cons.mpr ⟨h.2 _ holds, h.2⟩⟩
  · rename_i hqueued hsuccess
    rw [hlock, hpair, hspent]
    split at h
    · rename_i hphase
      exact absurd hphase hqueued
    · rename_i tokens hphase
      exact absurd hphase (hsuccess tokens)
    · exact h

end RunSound

section HistorySound

variable {s s' : TokenLedger}

/-- A step that leaves the tokens of the row and its cooldown alone, and spends at most a token the
row has held. -/
theorem HistorySound.keep (h : s.HistorySound) (hprovider : s'.row.provider = s.row.provider)
    (hpair : s'.pair = s.pair)
    (hretry : s'.row.refreshRetryAfterMs = s.row.refreshRetryAfterMs)
    (hheld : s'.held = s.pair :: s.held)
    (hspent : ∀ token ∈ s'.spent, token ∈ s.spent ∨ ∃ access, (access, some token) ∈ s.held)
    (hdeferred : s'.deferred = s.deferred) : s'.HistorySound := by
  have hmem : ∀ p, p ∈ s'.held ↔ p ∈ s.held := by
    intro p
    rw [hheld, List.mem_cons]
    exact or_iff_right_of_imp fun heq => heq ▸ h.holds
  have hrefresh : s'.row.refreshToken = s.row.refreshToken := (Prod.ext_iff.mp hpair).2
  refine ⟨hprovider.trans h.provider, ?_, ?_, ?_, ?_, ?_⟩
  · rw [hpair, hmem]
    exact h.holds
  · intro p hp q hq
    exact h.paired p ((hmem p).mp hp) q ((hmem q).mp hq)
  · intro token htoken
    obtain ⟨access, hin⟩ := (hspent token htoken).elim (h.spent_held token) id
    exact ⟨access, (hmem _).mpr hin⟩
  · intro failure hin
    rw [hdeferred] at hin
    obtain ⟨access, hin⟩ := h.deferred_held failure hin
    exact ⟨access, (hmem _).mpr hin⟩
  · intro failure hin
    rw [hdeferred] at hin
    rw [hrefresh, hretry]
    exact h.cooling failure hin

theorem HistorySound.renew (h : s.HistorySound) {tokens : Tokens} (hnew : s.New tokens)
    (hprovider : s'.row.provider = s.row.provider)
    (hpair : s'.pair = (tokens.accessToken, tokens.refreshToken))
    (hheld : s'.held = s'.pair :: s.held) (hspent : s'.spent = s.spent)
    (hdeferred : s'.deferred = s.deferred) : s'.HistorySound := by
  have hrefresh : s'.row.refreshToken = tokens.refreshToken := (Prod.ext_iff.mp hpair).2
  refine ⟨hprovider.trans h.provider, ?_, ?_, ?_, ?_, ?_⟩
  · rw [hheld]
    exact List.mem_cons_self
  · rw [hheld, hpair]
    intro p hp q hq heq
    rcases List.mem_cons.mp hp with rfl | hp <;> rcases List.mem_cons.mp hq with rfl | hq
    · rfl
    · exact absurd heq (hnew q hq).1
    · exact absurd heq.symm (hnew p hp).1
    · exact h.paired p hp q hq heq
  · intro token htoken
    rw [hspent] at htoken
    obtain ⟨access, hin⟩ := h.spent_held token htoken
    exact ⟨access, hheld ▸ List.mem_cons_of_mem _ hin⟩
  · intro failure hin
    rw [hdeferred] at hin
    obtain ⟨access, hin⟩ := h.deferred_held failure hin
    exact ⟨access, hheld ▸ List.mem_cons_of_mem _ hin⟩
  · intro failure hin htoken
    rw [hdeferred] at hin
    obtain ⟨access, hin⟩ := h.deferred_held failure hin
    exact absurd (hrefresh.symm.trans htoken) (hnew _ hin).2

/-- A failure for the moment stamps a cooldown that no earlier one of the token outlasts. -/
theorem HistorySound.cool (h : s.HistorySound) {token : String} {nowMs : Int}
    (htoken : s.row.refreshToken = some token)
    (hclock : ∀ failure ∈ s.deferred, failure.2 ≤ nowMs)
    (hprovider : s'.row.provider = s.row.provider) (hpair : s'.pair = s.pair)
    (hretry : s'.row.refreshRetryAfterMs = some (cooldownDeadline nowMs))
    (hheld : s'.held = s.pair :: s.held) (hspent : s'.spent = s.spent)
    (hdeferred : s'.deferred = (token, nowMs) :: s.deferred) : s'.HistorySound := by
  have hholds : (s.row.accessToken, some token) ∈ s.held := htoken ▸ h.holds
  have hsub : ∀ p ∈ s.held, p ∈ s'.held := fun p hp => hheld ▸ List.mem_cons_of_mem _ hp
  refine ⟨hprovider.trans h.provider, ?_, ?_, ?_, ?_, ?_⟩
  · rw [hpair]
    exact hsub _ h.holds
  · rw [hheld]
    intro p hp q hq
    have hin : ∀ p ∈ s.pair :: s.held, p ∈ s.held := by
      intro p hp
      exact (List.mem_cons.mp hp).elim (fun heq => heq ▸ h.holds) id
    exact h.paired p (hin p hp) q (hin q hq)
  · intro token htoken
    rw [hspent] at htoken
    obtain ⟨access, hin⟩ := h.spent_held token htoken
    exact ⟨access, hsub _ hin⟩
  · rw [hdeferred]
    refine List.forall_mem_cons.mpr ⟨⟨_, hsub _ hholds⟩, fun failure hin => ?_⟩
    obtain ⟨access, hin⟩ := h.deferred_held failure hin
    exact ⟨access, hsub _ hin⟩
  · rw [hdeferred, hretry]
    refine List.forall_mem_cons.mpr ⟨fun _ => ⟨_, rfl, le_rfl⟩, fun failure hin _ => ?_⟩
    refine ⟨_, rfl, ?_⟩
    have hle := hclock failure hin
    unfold cooldownDeadline
    omega

end HistorySound

section Runs

variable {s s' : TokenLedger} {id : Nat} {run : RefreshRun}

/-- A refresh past its check posts the token that the row holds. -/
theorem Sound.holder (h : s.Sound) (hget : s.runs id = some run) (hphase : run.phase ≠ .queued)
    (hfailed : ∀ tokens, run.phase ≠ .answered (.success tokens)) :
    s.lock = some id ∧ s.pair = (run.accessBefore, some run.refreshToken) ∧
      run.refreshToken ∉ s.spent := by
  have hrun := h.runs_sound id run hget
  unfold RunSound at hrun
  split at hrun
  · rename_i hqueued
    exact absurd hqueued hphase
  · rename_i tokens hsuccess
    exact absurd hsuccess (hfailed tokens)
  · exact hrun

theorem Sound.holder_new (h : s.Sound) {tokens : Tokens} (hget : s.runs id = some run)
    (hphase : run.phase = .answered (.success tokens)) : s.lock = some id ∧ s.New tokens := by
  have hrun := h.runs_sound id run hget
  simpa only [RunSound, hphase] using hrun

/-- Where the lock is free or of this refresh, the others are queued, and stay as they are. -/
theorem Sound.others (h : s.Sound) (hlock : s.lock = none ∨ s.lock = some id)
    {run' : Option RefreshRun} (hruns : s'.runs = Function.update s.runs id run')
    (hrun : ∀ run, run' = some run → s'.RunSound id run) :
    ∀ other run, s'.runs other = some run → s'.RunSound other run := by
  intro other run hget
  rw [hruns, Function.update_apply] at hget
  split at hget
  · rename_i heq
    subst heq
    exact hrun run hget
  · rename_i hne
    refine run_sound_queued (queued_of_run_sound (h.runs_sound other run hget) ?_)
    rcases hlock with hlock | hlock
    · rw [hlock]
      exact Option.some_ne_none other |>.symm
    · rw [hlock]
      exact fun heq => hne (Option.some_injective _ heq).symm

theorem Sound.planned_update (h : s.Sound) {run' : Option RefreshRun}
    (hruns : s'.runs = Function.update s.runs id run') (hsub : ∀ p ∈ s.held, p ∈ s'.held)
    (hrun : ∀ run, run' = some run → (run.accessBefore, some run.refreshToken) ∈ s.held) :
    ∀ other run, s'.runs other = some run →
      (run.accessBefore, some run.refreshToken) ∈ s'.held := by
  intro other run hget
  rw [hruns, Function.update_apply] at hget
  split at hget
  · exact hsub _ (hrun run hget)
  · exact hsub _ (h.planned other run hget)

end Runs

section Step

variable {s s' : TokenLedger} {id : Nat} {run : RefreshRun} {event : RaceEvent}

theorem Sound.pair_of_access (h : s.Sound) (hget : s.runs id = some run)
    (hsame : s.row.accessToken = run.accessBefore) :
    s.pair = (run.accessBefore, some run.refreshToken) :=
  h.paired _ h.holds _ (h.planned id run hget) hsame

/-- A step that leaves the row and the lock alone, and brings at most a refresh that has planned on
the row as it is. -/
theorem Sound.requeue (h : s.Sound) (hrow : s'.row = s.row) (hlock : s'.lock = s.lock)
    (hheld : s'.held = s.pair :: s.held) (hspent : s'.spent = s.spent)
    (hdeferred : s'.deferred = s.deferred)
    (hruns : ∀ other run, s'.runs other = some run → s.runs other = some run ∨
      run.phase = .queued ∧ s.pair = (run.accessBefore, some run.refreshToken)) : s'.Sound := by
  have hpair : s'.pair = s.pair := congrArg (fun row => (row.accessToken, row.refreshToken)) hrow
  have hhistory := h.toHistorySound.keep (by rw [hrow]) hpair (by rw [hrow]) hheld
    (fun token htoken => .inl (hspent ▸ htoken)) hdeferred
  refine ⟨hhistory, fun other run hget => ?_, fun other run hget => ?_, fun hfree => ?_⟩
  · rcases hruns other run hget with hget | ⟨-, hpair⟩
    · exact hheld ▸ List.mem_cons_of_mem _ (h.planned other run hget)
    · rw [hheld, hpair]
      exact List.mem_cons_self
  · rcases hruns other run hget with hget | ⟨hqueued, -⟩
    · exact (h.runs_sound other run hget).congr hlock hpair hheld h.holds hspent
    · exact run_sound_queued hqueued
  · rw [hrow, hspent]
    exact h.unspent (hlock ▸ hfree)

theorem sound_idle (h : s.Sound) (hstep : s.toRowRace.step event = s.toRowRace)
    (hspends : s.spends event = none) (hdefers : s.defers event = none) :
    (s.step event).Sound := by
  refine h.requeue ?_ ?_ ?_ ?_ ?_ fun other run hget => .inl ?_ <;>
    simp only [step, hstep, hspends, hdefers, Option.toList_none, List.nil_append] at *
  exact hget

theorem sound_plan (h : s.Sound) (id : Nat) (force : Bool) (nowMs : Int) :
    (s.step (.plan id force nowMs)).Sound := by
  cases hget : s.runs id with
  | some run =>
    refine sound_idle h ?_ rfl rfl
    simp only [RowRace.step, RowRace.plan, hget]
  | none =>
    cases hplan : s.row.refreshPlan s.released force nowMs with
    | none =>
      refine sound_idle h ?_ rfl rfl
      simp only [RowRace.step, RowRace.plan, hget, hplan]
    | some planned =>
      obtain ⟨token, access⟩ := planned
      have hstep : s.toRowRace.step (.plan id force nowMs) = s.setRun id (some
          { force := force, refreshToken := token, accessBefore := access
            plannedAt := s.logins }) := by
        simp only [RowRace.step, RowRace.plan, hget, hplan]
      have hpair : s.pair = (access, some token) := s.row.refresh_plan_pair hplan
      refine h.requeue ?_ ?_ ?_ rfl rfl fun other run hrun => ?_
      · simp only [step, hstep, RowRace.setRun]
      · simp only [step, hstep, RowRace.setRun]
      · simp only [step, hstep, RowRace.setRun, RowRace.pair]
      · simp only [step, hstep, RowRace.setRun, Function.update_apply] at hrun
        split at hrun
        · obtain rfl := Option.some_injective _ hrun
          exact .inr ⟨rfl, hpair⟩
        · exact .inl hrun

theorem sound_check (h : s.Sound) (id : Nat) (nowMs : Int) : (s.step (.check id nowMs)).Sound := by
  have hmoved := s.toRowRace.step_moved (.check id nowMs)
  have hheld : (s.step (.check id nowMs)).held =
      (s.toRowRace.step (.check id nowMs)).pair :: s.held := rfl
  have hrest : (s.step (.check id nowMs)).toRowRace = s.toRowRace.step (.check id nowMs) ∧
      (s.step (.check id nowMs)).spent = s.spent ∧
      (s.step (.check id nowMs)).deferred = s.deferred := ⟨rfl, rfl, rfl⟩
  generalize s.step (.check id nowMs) = s' at hheld hrest ⊢
  obtain ⟨hrace, hspent, hdeferred⟩ := hrest
  generalize s.toRowRace.step (.check id nowMs) = t at hmoved hheld hrace
  cases hmoved with
  | idle =>
    exact h.requeue (by rw [hrace]) (by rw [hrace]) hheld hspent hdeferred
      fun other run hget => .inl (hrace ▸ hget)
  | dropped =>
    refine h.requeue (by rw [hrace]; rfl) (by rw [hrace]; rfl) hheld hspent hdeferred
      fun other run hget => .inl ?_
    rw [hrace] at hget
    simp only [RowRace.setRun, Function.update_apply] at hget
    split at hget
    · cases hget
    · exact hget
  | @posted _ _ run hget hphase hfree hsame =>
    have hpair := h.pair_of_access hget hsame
    have hs' : s'.pair = s.pair := by rw [hrace]; rfl
    have hlock : s'.lock = some id := by rw [hrace]
    have hruns : s'.runs = Function.update s.runs id
        (some { run with phase := .posting, checkedAt := s.logins }) := by rw [hrace]; rfl
    have hhistory := h.toHistorySound.keep (by rw [hrace]; rfl) hs' (by rw [hrace]; rfl) hheld
      (fun token htoken => .inl (hspent ▸ htoken)) hdeferred
    refine ⟨hhistory, ?_, ?_, fun hnone => absurd (hlock.symm.trans hnone) (by simp)⟩
    · refine h.planned_update hruns (fun p hp => hheld ▸ List.mem_cons_of_mem _ hp) ?_
      intro run' heq
      obtain rfl := Option.some_injective _ heq
      exact h.planned id run hget
    · refine h.others (.inl hfree) hruns ?_
      intro run' heq
      obtain rfl := Option.some_injective _ heq
      have htoken : s.row.refreshToken = some run.refreshToken := (Prod.ext_iff.mp hpair).2
      exact ⟨hlock, hs'.trans hpair, hspent ▸ h.unspent hfree _ htoken⟩

theorem sound_adopt (h : s.Sound) (id : Nat) (adopted newer : Option Tokens) :
    (s.step (.adopt id adopted newer)).Sound := by
  refine sound_idle h ?_ rfl rfl
  simp only [RowRace.step]
  split
  · split
    · simp only [RowRace.adopt, h.provider, reduceCtorEq, false_and, if_false]
    · rfl
  · rfl

theorem sound_answered (h : s.Sound) {result : RefreshResult} (hok : s.Admits (.answer id result))
    (hget : s.runs id = some run) (hphase : run.phase = .posting) :
    (s.step (.answer id result)).Sound := by
  obtain ⟨hlock, hpair, hunspent⟩ := h.holder hget (by simp [hphase]) (by simp [hphase])
  have hstep : s.toRowRace.step (.answer id result) =
      s.setRun id (some { run with phase := .answered result }) := by
    simp only [RowRace.step, hget, hphase, if_true]
  have hs' : (s.step (.answer id result)).pair = s.pair := by
    simp only [step, hstep, RowRace.setRun, RowRace.pair]
  have hlock' : (s.step (.answer id result)).lock = some id := by
    simp only [step, hstep, RowRace.setRun, hlock]
  have hheld : (s.step (.answer id result)).held = s.pair :: s.held := by
    simp only [step, hstep, RowRace.setRun, RowRace.pair]
  have hruns : (s.step (.answer id result)).runs =
      Function.update s.runs id (some { run with phase := .answered result }) := by
    simp only [step, hstep, RowRace.setRun]
  have hspent : ∀ token ∈ (s.step (.answer id result)).spent,
      token = run.refreshToken ∨ token ∈ s.spent := by
    intro token htoken
    cases result with
    | success tokens =>
      simpa only [step, RowRace.spends, hget, hphase, if_true, Option.toList_some,
        List.singleton_append, List.mem_cons] using htoken
    | authRejected status code => exact .inr htoken
    | transient => exact .inr htoken
  have hplanned := h.planned id run hget
  refine ⟨h.toHistorySound.keep ?_ hs' ?_ hheld ?_ rfl, ?_, ?_, fun hnone => ?_⟩
  · simp only [step, hstep, RowRace.setRun]
  · simp only [step, hstep, RowRace.setRun]
  · intro token htoken
    exact (hspent token htoken).symm.imp_right fun heq => ⟨_, heq ▸ hplanned⟩
  · refine h.planned_update hruns (fun p hp => hheld ▸ List.mem_cons_of_mem _ hp) ?_
    intro run' heq
    obtain rfl := Option.some_injective _ heq
    exact hplanned
  · refine h.others (.inr hlock) hruns ?_
    intro run' heq
    obtain rfl := Option.some_injective _ heq
    cases result with
    | success tokens =>
      refine ⟨hlock', ?_⟩
      unfold New
      rw [hheld]
      exact List.forall_mem_cons.mpr ⟨hok _ h.holds, hok⟩
    | authRejected status code => exact ⟨hlock', hs'.trans hpair, hunspent⟩
    | transient => exact ⟨hlock', hs'.trans hpair, hunspent⟩
  · rw [hlock'] at hnone
    cases hnone

theorem sound_answer (h : s.Sound) {result : RefreshResult} (hok : s.Admits (.answer id result)) :
    (s.step (.answer id result)).Sound := by
  cases hget : s.runs id with
  | none =>
    refine sound_idle h ?_ ?_ rfl
    · simp only [RowRace.step, hget]
    · cases result with
      | success tokens => simp only [RowRace.spends, hget]
      | authRejected status code => rfl
      | transient => rfl
  | some run =>
    by_cases hphase : run.phase = .posting
    · exact sound_answered h hok hget hphase
    · refine sound_idle h ?_ ?_ rfl
      · simp only [RowRace.step, hget, if_neg hphase]
      · cases result with
        | success tokens => simp only [RowRace.spends, hget, if_neg hphase]
        | authRejected status code => rfl
        | transient => rfl

/-- The holder lets go of the lock: the others are queued, and the token of the row is not spent. -/
theorem Sound.release (h : s.Sound) (hlock : s.lock = some id)
    (hruns : s'.runs = Function.update s.runs id none) (hheld : s'.held = s'.pair :: s.held)
    (hhistory : s'.HistorySound)
    (hunspent : ∀ token, s'.row.refreshToken = some token → token ∉ s'.spent) : s'.Sound := by
  refine ⟨hhistory, ?_, ?_, fun _ => hunspent⟩
  · exact h.planned_update hruns (fun p hp => hheld ▸ List.mem_cons_of_mem _ hp) nofun
  · exact h.others (.inr hlock) hruns nofun

theorem sound_succeeded (h : s.Sound) {tokens : Tokens} {nowMs : Int}
    (hget : s.runs id = some run) (hphase : run.phase = .answered (.success tokens)) :
    (s.step (.outcome id nowMs)).Sound := by
  obtain ⟨hlock, hnew⟩ := h.holder_new hget hphase
  have hstep : s.toRowRace.step (.outcome id nowMs) = { s.finish id with
      row := s.row.applyRefresh tokens
        (if run.force then some (cooldownDeadline nowMs) else none) } := by
    simp only [RowRace.step, hget, hphase, RowRace.outcome]
  have hdefers : s.defers (.outcome id nowMs) = none := by
    simp only [RowRace.defers, hget, hphase, RefreshPhase.answered.injEq, reduceCtorEq, if_false]
  have hpair : (s.step (.outcome id nowMs)).pair = (tokens.accessToken, tokens.refreshToken) := by
    simp only [step, hstep]
    rfl
  have hspent : (s.step (.outcome id nowMs)).spent = s.spent := rfl
  refine h.release hlock ?_ rfl (h.toHistorySound.renew hnew ?_ hpair rfl hspent ?_) ?_
  · simp only [step, hstep, RowRace.finish, RowRace.setRun]
  · simp only [step, hstep]
    rfl
  · simp only [step, hdefers, Option.toList_none, List.nil_append]
  · intro token htoken hin
    obtain ⟨access, hheld⟩ := h.spent_held token hin
    have hrefresh : (s.step (.outcome id nowMs)).row.refreshToken = tokens.refreshToken :=
      (Prod.ext_iff.mp hpair).2
    exact (hnew _ hheld).2 (hrefresh.symm.trans htoken)

theorem sound_deferred (h : s.Sound) {nowMs : Int} (hok : s.Admits (.outcome id nowMs))
    (hget : s.runs id = some run) (hphase : run.phase = .answered .transient) :
    (s.step (.outcome id nowMs)).Sound := by
  obtain ⟨hlock, hpair, hunspent⟩ := h.holder hget (by simp [hphase]) (by simp [hphase])
  have htoken : s.row.refreshToken = some run.refreshToken := (Prod.ext_iff.mp hpair).2
  have hstep : s.toRowRace.step (.outcome id nowMs) = { s.finish id with
      row := { s.row with refreshRetryAfterMs := some (cooldownDeadline nowMs) } } := by
    simp only [RowRace.step, hget, hphase, RowRace.outcome]
  have hdefers : s.defers (.outcome id nowMs) = some (run.refreshToken, nowMs) := by
    simp only [RowRace.defers, hget, hphase, if_true]
  have hs' : (s.step (.outcome id nowMs)).pair = s.pair := by
    simp only [step, hstep, RowRace.pair]
  refine h.release hlock ?_ rfl
    (h.toHistorySound.cool htoken hok ?_ hs' ?_ (by rw [← hs']; rfl) rfl ?_) ?_
  · simp only [step, hstep, RowRace.finish, RowRace.setRun]
  · simp only [step, hstep]
  · simp only [step, hstep]
  · simp only [step, hdefers, Option.toList_some, List.singleton_append]
  · intro token heq
    have hrow : (s.step (.outcome id nowMs)).row.refreshToken = s.row.refreshToken :=
      (Prod.ext_iff.mp hs').2
    obtain rfl := Option.some_injective _ (htoken.symm.trans (hrow.symm.trans heq))
    exact hunspent

theorem sound_rejected (h : s.Sound) {status : Nat} {code : Option String} {nowMs : Int}
    (hget : s.runs id = some run) (hphase : run.phase = .answered (.authRejected status code)) :
    (s.step (.outcome id nowMs)).Sound := by
  obtain ⟨hlock, hpair, hunspent⟩ := h.holder hget (by simp [hphase]) (by simp [hphase])
  have hstep : s.toRowRace.step (.outcome id nowMs) =
      { s.setRun id (some { run with phase := .rejected }) with
        row := s.row.rejected status code } := by
    simp only [RowRace.step, hget, hphase, RowRace.outcome]
  have hdefers : s.defers (.outcome id nowMs) = none := by
    simp only [RowRace.defers, hget, hphase, RefreshPhase.answered.injEq, reduceCtorEq, if_false]
  have hs' : (s.step (.outcome id nowMs)).pair = s.pair := by
    simp only [step, hstep]
    rfl
  have hlock' : (s.step (.outcome id nowMs)).lock = some id := by
    simp only [step, hstep, RowRace.setRun, hlock]
  have hheld : (s.step (.outcome id nowMs)).held = s.pair :: s.held := by rw [← hs']; rfl
  have hruns : (s.step (.outcome id nowMs)).runs =
      Function.update s.runs id (some { run with phase := .rejected }) := by
    simp only [step, hstep, RowRace.setRun]
  refine ⟨h.toHistorySound.keep ?_ hs' ?_ hheld (fun token htoken => .inl htoken) ?_, ?_, ?_,
    fun hnone => ?_⟩
  · simp only [step, hstep]
    rfl
  · simp only [step, hstep]
    rfl
  · simp only [step, hdefers, Option.toList_none, List.nil_append]
  · refine h.planned_update hruns (fun p hp => hheld ▸ List.mem_cons_of_mem _ hp) ?_
    intro run' heq
    obtain rfl := Option.some_injective _ heq
    exact h.planned id run hget
  · refine h.others (.inr hlock) hruns ?_
    intro run' heq
    obtain rfl := Option.some_injective _ heq
    exact ⟨hlock', hs'.trans hpair, hunspent⟩
  · rw [hlock'] at hnone
    cases hnone

theorem sound_outcome (h : s.Sound) {nowMs : Int} (hok : s.Admits (.outcome id nowMs)) :
    (s.step (.outcome id nowMs)).Sound := by
  cases hget : s.runs id with
  | none =>
    refine sound_idle h ?_ rfl ?_
    · simp only [RowRace.step, hget]
    · simp only [RowRace.defers, hget]
  | some run =>
    by_cases hanswered : ∃ result, run.phase = .answered result
    · obtain ⟨result, hphase⟩ := hanswered
      cases result with
      | success tokens => exact sound_succeeded h hget hphase
      | authRejected status code => exact sound_rejected h hget hphase
      | transient => exact sound_deferred h hok hget hphase
    · have hnot : ∀ result, run.phase ≠ .answered result := fun result heq => hanswered ⟨result, heq⟩
      refine sound_idle h ?_ rfl ?_
      · simp only [RowRace.step, hget]
      · simp only [RowRace.defers, hget, if_neg (hnot _)]

theorem sound_back_off (h : s.Sound) (id : Nat) (nowMs : Int) :
    (s.step (.backOff id nowMs)).Sound := by
  cases hget : s.runs id with
  | none =>
    refine sound_idle h ?_ rfl rfl
    simp only [RowRace.step, hget]
  | some run =>
    by_cases hphase : run.phase = .rejected
    · obtain ⟨hlock, hpair, hunspent⟩ :=
        h.holder hget (by simp [hphase]) (by simp [hphase])
      have htoken : s.row.refreshToken = some run.refreshToken := (Prod.ext_iff.mp hpair).2
      have hstep : s.toRowRace.step (.backOff id nowMs) =
          { s.finish id with row := s.row.growErrorBackoff nowMs } := by
        simp only [RowRace.step, hget, hphase, if_true]
      have hs' : (s.step (.backOff id nowMs)).pair = s.pair := by
        simp only [step, hstep]
        rfl
      refine h.release hlock ?_ rfl (h.toHistorySound.keep ?_ hs' ?_ (by rw [← hs']; rfl)
        (fun token htoken => .inl htoken) rfl) ?_
      · simp only [step, hstep, RowRace.finish, RowRace.setRun]
      · simp only [step, hstep]
        rfl
      · simp only [step, hstep]
        rfl
      · intro token heq
        have hrow : (s.step (.backOff id nowMs)).row.refreshToken = s.row.refreshToken :=
          (Prod.ext_iff.mp hs').2
        obtain rfl := Option.some_injective _ (htoken.symm.trans (hrow.symm.trans heq))
        exact hunspent
    · refine sound_idle h ?_ rfl rfl
      simp only [RowRace.step, hget, if_neg hphase]

theorem sound_step (h : s.Sound) (hok : s.Admits event) : (s.step event).Sound := by
  cases event with
  | plan id force nowMs => exact sound_plan h id force nowMs
  | check id nowMs => exact sound_check h id nowMs
  | answer id result => exact sound_answer h hok
  | adopt id adopted newer => exact sound_adopt h id adopted newer
  | outcome id nowMs => exact sound_outcome h hok
  | backOff id nowMs => exact sound_back_off h id nowMs
  | relogin login => exact hok.elim

end Step

theorem sound_start (row : CredentialRow) (released : Bool) (h : row.provider = .anthropic) :
    (start row released).Sound := by
  refine ⟨⟨h, List.mem_cons_self, ?_, nofun, nofun, nofun⟩, nofun, nofun, fun _ _ _ => nofun⟩
  intro p hp q hq _
  rw [List.mem_singleton.mp hp, List.mem_singleton.mp hq]

/-- What passes the check under a free lock is the token of the row, out of its cooldown. -/
theorem spends_once_of_sound {s : TokenLedger} (h : s.Sound) (event : RaceEvent) :
    s.SpendsOnce event := by
  rintro token nowMs ⟨id, run, run', rfl, hget, hphase, hget', hphase', rfl⟩
  obtain ⟨hfree, hsame, hcool, htoken⟩ := s.toRowRace.check_passed hget hphase hget' hphase'
  have hrefresh : s.row.refreshToken = some run'.refreshToken :=
    htoken ▸ (Prod.ext_iff.mp (h.pair_of_access hget hsame)).2
  refine ⟨h.unspent hfree _ hrefresh, fun stamped hin => ?_⟩
  obtain ⟨deadline, hretry, hle⟩ := h.cooling _ hin hrefresh
  have hover : deadline ≤ nowMs := by
    simpa only [CredentialRow.inCooldown, hretry, Option.any_some, decide_eq_false_iff_not,
      not_lt] using hcool
  exact hle.trans hover

end TokenLedger

end TeamClaude
