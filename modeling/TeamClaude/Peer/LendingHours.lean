import TeamClaude.Peer.Headroom

/-!
# A lease inside its lending hours

The close of the window that is open now is worked out beside the schedule's own test. The two agree
at every instant, so a lease clamped by the close ends before its schedule does.
-/

namespace TeamClaude

namespace Weekday

theorem previous_of_next (day : Int) : (ofDay (day + 1)).previous = ofDay day := by
  have hday : (day + 3) % 7 = 0 ∨ (day + 3) % 7 = 1 ∨ (day + 3) % 7 = 2 ∨ (day + 3) % 7 = 3 ∨
      (day + 3) % 7 = 4 ∨ (day + 3) % 7 = 5 ∨ (day + 3) % 7 = 6 := by omega
  have hnext : (day + 1 + 3) % 7 = ((day + 3) % 7 + 1) % 7 := by omega
  unfold ofDay
  rw [hnext]
  rcases hday with h | h | h | h | h | h | h <;> rw [h] <;> rfl

end Weekday

namespace LocalTime

def localSeconds (offset : Int) (t : Instant) : Int :=
  unixTimestamp t + offset

section Readings

variable {offset now t : Int}

theorem local_seconds_mono (h : now ≤ t) : localSeconds offset now ≤ localSeconds offset t := by
  unfold localSeconds unixTimestamp
  omega

@[simp] theorem of_instant_day : (ofInstant offset t).day = localSeconds offset t / 86400 :=
  rfl

theorem minute_le_iff {minute : Nat} : minute ≤ (ofInstant offset t).minute ↔
    localSeconds offset t / 86400 * 86400 + minute * 60 ≤ localSeconds offset t := by
  change minute ≤ (localSeconds offset t % 86400 / 60).toNat ↔ _
  omega

theorem minute_lt_iff {minute : Nat} : (ofInstant offset t).minute < minute ↔
    localSeconds offset t < localSeconds offset t / 86400 * 86400 + minute * 60 := by
  rw [← not_le, minute_le_iff, not_le]

/-- The second at which a minute of a reading's day, or of the next, begins. -/
def minuteSecond (offset : Int) (now : Instant) (nextDay : Bool) (minute : Nat) : Int :=
  (localSeconds offset now / 86400 + if nextDay then 1 else 0) * 86400 + minute * 60

theorem minute_ms_eq (nextDay : Bool) (minute : Nat) :
    (ofInstant offset now).minuteMs nextDay minute =
      (minuteSecond offset now nextDay minute - offset) * 1000 := by
  have hwhole := odt_to_ms_whole ((minuteSecond offset now nextDay minute - offset) * 1000)
  rw [mul_assoc] at hwhole
  exact hwhole

theorem lt_minute_ms {nextDay : Bool} {minute : Nat} :
    t < (ofInstant offset now).minuteMs nextDay minute * 1000000 ↔
      localSeconds offset t < minuteSecond offset now nextDay minute := by
  rw [minute_ms_eq]
  generalize minuteSecond offset now nextDay minute = second
  unfold localSeconds unixTimestamp
  omega

theorem local_seconds_minute_ms (nextDay : Bool) (minute : Nat) :
    localSeconds offset ((ofInstant offset now).minuteMs nextDay minute * 1000000) =
      minuteSecond offset now nextDay minute := by
  rw [minute_ms_eq]
  generalize minuteSecond offset now nextDay minute = second
  unfold localSeconds unixTimestamp
  omega

end Readings

end LocalTime

open LocalTime

namespace Schedule

variable {s : Schedule} {offset now t closeMs : Int}

/-- From inside a window of one day to its finish the day stays and the window is open. -/
theorem same_day_window {start finish : Nat} (hnow : now ≤ t)
    (hstart : start ≤ (ofInstant offset now).minute) (hfinish : finish ≤ 1440)
    (ht : localSeconds offset t < minuteSecond offset now false finish) :
    (ofInstant offset t).day = (ofInstant offset now).day ∧
      start ≤ (ofInstant offset t).minute ∧ (ofInstant offset t).minute < finish := by
  have hmono : localSeconds offset now ≤ localSeconds offset t := local_seconds_mono hnow
  rw [minute_le_iff] at hstart ⊢
  rw [minute_lt_iff, of_instant_day, of_instant_day]
  simp only [minuteSecond, Bool.false_eq_true, if_false] at ht
  omega

/-- From the head of a window that crosses midnight to its finish on the next day, the rest of the
day is in the head and the next day is in the tail. -/
theorem crossing_window {start finish : Nat} (hnow : now ≤ t)
    (hstart : start ≤ (ofInstant offset now).minute) (hfinish : finish ≤ 1440)
    (ht : localSeconds offset t < minuteSecond offset now true finish) :
    ((ofInstant offset t).day = (ofInstant offset now).day ∧
      start ≤ (ofInstant offset t).minute) ∨
    ((ofInstant offset t).day = (ofInstant offset now).day + 1 ∧
      (ofInstant offset t).minute < finish) := by
  have hmono : localSeconds offset now ≤ localSeconds offset t := local_seconds_mono hnow
  rw [minute_le_iff] at hstart ⊢
  rw [minute_lt_iff, of_instant_day, of_instant_day]
  simp only [minuteSecond, if_true] at ht
  omega

theorem minute_of_day_lt (time : Hhmm) : time.minuteOfDay < 1440 := by
  have hhour := time.hour_lt
  have hminute := time.minute_lt
  unfold Hhmm.minuteOfDay
  omega

theorem weekday_of_day {a b : LocalTime} (h : a.day = b.day) : a.weekday = b.weekday := by
  unfold LocalTime.weekday
  rw [h]

theorem previous_weekday {a b : LocalTime} (h : a.day = b.day + 1) :
    a.weekday.previous = b.weekday := by
  unfold LocalTime.weekday
  rw [h, Weekday.previous_of_next]

/-- A schedule that is open stays open until the close worked out for it. -/
theorem contains_until_close (hopen : s.contains offset now = true)
    (hclose : s.closesAtMs offset now = some closeMs) (hnow : now ≤ t)
    (ht : t < closeMs * 1000000) :
    s.contains offset t = true := by
  simp only [contains, containsAtLocal] at hopen ⊢
  simp only [closesAtMs] at hclose
  cases hbetween : s.between with
  | none =>
    rw [hbetween] at hopen hclose
    obtain ⟨days, -, rfl⟩ := Option.map_eq_some_iff.mp hclose
    -- Only the change of the day shuts a schedule without hours.
    have hmidnight : localSeconds offset t < minuteSecond offset now false 1440 := by
      rw [lt_minute_ms] at ht
      simpa [minuteSecond, add_mul] using ht
    have hday := (same_day_window hnow (Nat.zero_le _) le_rfl hmidnight).1
    simpa [weekday_of_day hday] using hopen
  | some hours =>
    obtain ⟨start, finish⟩ := hours
    rw [hbetween] at hopen hclose
    simp only at hopen hclose ⊢
    have hfinish := (minute_of_day_lt finish).le
    cases hcompare : compare start.minuteOfDay finish.minuteOfDay with
    | lt =>
      rw [hcompare] at hopen hclose
      simp only [Bool.and_eq_true, decide_eq_true_eq, Option.some.injEq] at hopen hclose ⊢
      subst hclose
      obtain ⟨hday, hstart, hlt⟩ := same_day_window hnow hopen.1.2 hfinish (lt_minute_ms.mp ht)
      exact ⟨⟨weekday_of_day hday ▸ hopen.1.1, hstart⟩, hlt⟩
    | gt =>
      rw [hcompare] at hopen hclose
      simp only [Bool.or_eq_true, Bool.and_eq_true, decide_eq_true_eq, Option.some.injEq]
        at hopen hclose ⊢
      subst hclose
      by_cases htail : (ofInstant offset now).minute < finish.minuteOfDay
      · -- In the tail, whose day is the one before.
        rw [decide_eq_true htail] at ht
        have hprevious := hopen.resolve_right fun hhead => by
          have := compare_gt_iff_gt.mp hcompare
          omega
        obtain ⟨hday, -, hlt⟩ := same_day_window hnow (Nat.zero_le _) hfinish (lt_minute_ms.mp ht)
        exact .inl ⟨weekday_of_day hday ▸ hprevious.1, hlt⟩
      · rw [decide_eq_false htail] at ht
        have hhead := hopen.resolve_left fun hprevious => htail hprevious.2
        rcases crossing_window hnow hhead.2 hfinish (lt_minute_ms.mp ht) with
          ⟨hday, hstart⟩ | ⟨hday, hlt⟩
        · exact .inr ⟨weekday_of_day hday ▸ hhead.1, hstart⟩
        · exact .inl ⟨previous_weekday hday ▸ hhead.1, hlt⟩
    | eq =>
      rw [hcompare] at hopen
      cases hopen

/-- The reading at the close of a window. -/
theorem of_instant_close {nextDay : Bool} {minute : Nat} (h : minute < 1440) :
    (ofInstant offset ((ofInstant offset now).minuteMs nextDay minute * 1000000)).minute =
      minute := by
  refine le_antisymm (Nat.lt_succ_iff.mp (minute_lt_iff.mpr ?_)) (minute_le_iff.mpr ?_) <;>
  · rw [local_seconds_minute_ms]
    simp only [minuteSecond]
    omega

/-- A schedule with hours is shut at the close worked out for it. -/
theorem shut_at_close (hhours : s.between.isSome)
    (hclose : s.closesAtMs offset now = some closeMs) :
    s.contains offset (closeMs * 1000000) = false := by
  obtain ⟨⟨start, finish⟩, hbetween⟩ := Option.isSome_iff_exists.mp hhours
  simp only [closesAtMs, hbetween] at hclose
  simp only [contains, containsAtLocal, hbetween]
  have hminute := minute_of_day_lt finish
  cases hcompare : compare start.minuteOfDay finish.minuteOfDay with
  | lt =>
    simp only [hcompare, Option.some.injEq] at hclose ⊢
    subst hclose
    rw [of_instant_close hminute]
    simp
  | gt =>
    simp only [hcompare, Option.some.injEq] at hclose ⊢
    subst hclose
    rw [of_instant_close hminute]
    have hgt := compare_gt_iff_gt.mp hcompare
    simp [hgt]
  | eq => rfl

/-- A schedule that is open and never closes is open for good. -/
theorem contains_of_no_close (hopen : s.contains offset now = true)
    (hclose : s.closesAtMs offset now = none) (t : Instant) : s.contains offset t = true := by
  simp only [contains, containsAtLocal] at hopen ⊢
  simp only [closesAtMs] at hclose
  cases hbetween : s.between with
  | none =>
    rw [hbetween] at hclose
    simp [dayOpen, Option.map_eq_none_iff.mp hclose]
  | some hours =>
    obtain ⟨start, finish⟩ := hours
    rw [hbetween] at hopen hclose
    simp only at hopen hclose
    split at hopen
    · rename_i hcompare
      simp [hcompare] at hclose
    · rename_i hcompare
      simp [hcompare] at hclose
    · cases hopen

end Schedule

/-- The close of the schedule bounds the deadline of a lease. -/
theorem clamp_to_grant_expires {ask : LeaseRequest} {granted : Option LendGrant} {inspect : Bool}
    {lendable : ℚ} {nowMs : Int} {leaseId : LeaseId} {finish : Option Nat} {closeMs : Int}
    {lease : Lease}
    (h : (clampToGrant ask granted inspect lendable nowMs leaseId finish (some closeMs)).lease =
      some lease) : lease.expiresAtMs ≤ closeMs := by
  obtain ⟨wanted, grant, -, -, -, -, -, -, rfl⟩ := clamp_to_grant_some h
  exact min_le_right _ _

/-- A lease granted under a schedule is minted inside it and is over by its close. -/
theorem Ledger.grant_closes {l : Ledger} {c : GrantCall} {lease : Lease} {schedule : Schedule}
    (h : (l.grant c).1.answer.lease = some lease) (hschedule : c.schedule = some schedule) :
    schedule.contains c.offset c.scheduleNow = true ∧
      ∀ closeMs, schedule.closesAtMs c.offset c.scheduleNow = some closeMs →
        lease.expiresAtMs ≤ closeMs := by
  unfold Ledger.grant at h
  split at h
  · cases h
  split at h
  · cases h
  rename_i hrefusal
  simp only at h
  split at h
  · cases h
  rw [hschedule] at hrefusal
  refine ⟨?_, fun closeMs hclose => ?_⟩
  · unfold scheduleRefusal at hrefusal
    simp only at hrefusal
    split at hrefusal
    · assumption
    · cases hrefusal
  · rw [hschedule, Option.bind_some, hclose] at h
    exact clamp_to_grant_expires h

/-- A schedule that is open now is open at every instant until the close worked out for it, shut at
that close if it has hours, and open for good if there is no close; so a lease granted under it has
no time left at any instant from then on at which it is shut. -/
theorem lease_within_hours :
    (∀ (s : Schedule) (offset : Int) (now : Instant), s.contains offset now = true →
      (∀ closeMs, s.closesAtMs offset now = some closeMs →
        (∀ t, now ≤ t → t < closeMs * 1000000 → s.contains offset t = true) ∧
        (s.between.isSome → s.contains offset (closeMs * 1000000) = false)) ∧
      (s.closesAtMs offset now = none → ∀ t, s.contains offset t = true)) ∧
    ∀ (l : Ledger) (c : GrantCall) (lease : Lease) (schedule : Schedule),
      (l.grant c).1.answer.lease = some lease → c.schedule = some schedule →
      ∀ t, c.scheduleNow ≤ t → schedule.contains c.offset t = false →
        lease.expiresAtMs * 1000000 ≤ t := by
  refine ⟨fun s offset now hopen => ⟨fun closeMs hclose =>
      ⟨fun t hnow ht => Schedule.contains_until_close hopen hclose hnow ht,
        fun hhours => Schedule.shut_at_close hhours hclose⟩,
      fun hclose => Schedule.contains_of_no_close hopen hclose⟩, ?_⟩
  intro l c lease schedule hmint hschedule t hnow hshut
  obtain ⟨hopen, hexpires⟩ := Ledger.grant_closes hmint hschedule
  cases hclose : schedule.closesAtMs c.offset c.scheduleNow with
  | none =>
    rw [Schedule.contains_of_no_close hopen hclose t] at hshut
    cases hshut
  | some closeMs =>
    have hle := hexpires closeMs hclose
    have hclosed : closeMs * 1000000 ≤ t := by
      by_contra hlt
      rw [Schedule.contains_until_close hopen hclose hnow (not_le.mp hlt)] at hshut
      cases hshut
    exact (mul_le_mul_of_nonneg_right hle (by decide)).trans hclosed

/-- A grant open from 22:00 to 08:00 on the nights of Thursday, asked ten minutes before midnight
for longer than the night lasts. -/
def nightGrant : GrantCall :=
  { earlyGrant with
    ask := { earlyGrant.ask with ttlS := 86400 }
    row := some { inspect := true, lend :=
      [{ window := .sevenDay, fraction := 1 / 2, ttlS := 86400, maxInflight := 1,
         between := some { start := ⟨22, 0, by decide, by decide⟩,
                           finish := ⟨8, 0, by decide, by decide⟩ },
         days := some [.thursday] }] }
    scheduleNow := 85800000000000
    clampMs := 85800000 }

/-- The lease of that grant is over at eight the next morning. -/
theorem night_lease_ends : ∃ lease, (({} : Ledger).grant nightGrant).1.answer.lease = some lease ∧
    lease.expiresAtMs * 1000000 ≤ 115200000000000 := by
  obtain ⟨lease, hmint⟩ : ∃ lease, (({} : Ledger).grant nightGrant).1.answer.lease = some lease :=
    Option.isSome_iff_exists.mp (by decide +kernel)
  obtain ⟨schedule, hschedule⟩ : ∃ schedule, nightGrant.schedule = some schedule :=
    Option.isSome_iff_exists.mp (by decide +kernel)
  have hshut : nightGrant.schedule.all (fun schedule =>
      !schedule.contains nightGrant.offset 115200000000000) = true := by decide +kernel
  rw [hschedule, Option.all_some, Bool.not_eq_true'] at hshut
  exact ⟨lease, hmint, lease_within_hours.2 {} nightGrant lease schedule hmint hschedule _
    (by decide) hshut⟩

end TeamClaude
