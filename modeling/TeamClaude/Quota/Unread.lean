import TeamClaude.Quota.Windows

/-!
# A probe that could not read a window

A probe's bucket may name a window without its utilization. The prior utilization is then kept while
the reset is worked out again, and a reset that moves decides what the window reads as from then on.
-/

namespace TeamClaude

/-- The probe carries no utilization for the window. -/
def Unread (usage : Usage) (slot : WindowSlot) : Prop :=
  (usage.bucket slot).bind UsageBucket.utilization = none

/-- From `now` on the window reads no fuller than the prior one did. -/
def NeverFuller (prior after : Option QuotaWindow) (now : Instant) : Prop :=
  ∀ w', after = some w' → ∃ w, prior = some w ∧ ∀ t, now ≤ t → w'.effective t ≤ w.effective t

/-- A reset that is worked out again does not make a used window read fuller: the prior reset is
unknown or the new one no later, where it is still ahead. A window under zero, whose reset raises it,
is the mirror image. -/
def QuotaWindow.StaysFresh (w : QuotaWindow) (reported : Option Instant) (now : Instant) : Prop :=
  match w.reset, reported with
  | none, _ => 0 ≤ w.utilization
  | some prior, none => w.utilization ≤ 0 ∨ now < prior
  | some prior, some reset =>
    (0 < w.utilization → reset ≤ now ∨ reset ≤ prior) ∧
      (w.utilization < 0 → prior ≤ now ∨ prior ≤ reset)

namespace QuotaWindow

variable {util : ℚ} {reset prior now t : Int} {r : Option Instant}

theorem effective_reset : effective { utilization := util, reset := some reset } t =
    if reset ≤ t then 0 else util := rfl

theorem effective_unknown : effective { utilization := util, reset := none } t = util := rfl

theorem effective_zero : effective { utilization := 0, reset := r } t = 0 := by
  cases r with
  | none => rfl
  | some reset => rw [effective_reset, ite_self]

/-- A window that gets a reset is no fuller for it exactly when it is not under zero. -/
theorem dated_le_unknown_iff :
    (∀ t, now ≤ t → effective { utilization := util, reset := some reset } t ≤
      effective { utilization := util, reset := none } t) ↔ 0 ≤ util := by
  simp only [effective_reset, effective_unknown]
  constructor
  · intro h
    have hlate := h (max now reset) (le_max_left _ _)
    rwa [if_pos (le_max_right _ _)] at hlate
  · intro h t _
    split
    · exact h
    · exact le_rfl

/-- A reset that moves from `prior` to `reset`: a used window must not stay up longer than it would
have, and a window under zero must not go up sooner. -/
theorem moved_le_iff :
    (∀ t, now ≤ t → effective { utilization := util, reset := some reset } t ≤
      effective { utilization := util, reset := some prior } t) ↔
      (0 < util → reset ≤ now ∨ reset ≤ prior) ∧ (util < 0 → prior ≤ now ∨ prior ≤ reset) := by
  simp only [effective_reset]
  constructor
  · intro h
    refine ⟨fun hpos => ?_, fun hneg => ?_⟩
    · -- At the prior reset, or now if that has passed, the window read empty.
      by_contra hlater
      have hlate := h (max now prior) (le_max_left _ _)
      rw [if_neg (by omega), if_pos (le_max_right _ _)] at hlate
      exact absurd hpos (not_lt.mpr hlate)
    · by_contra hsooner
      have hlate := h (max now reset) (le_max_left _ _)
      rw [if_pos (le_max_right _ _), if_neg (by omega)] at hlate
      exact absurd hneg (not_lt.mpr hlate)
  · rintro ⟨hpos, hneg⟩ t ht
    split
    · rename_i hreset
      split
      · exact le_rfl
      · by_contra hlt
        have := hneg (not_le.mp hlt)
        omega
    · rename_i hreset
      split
      · by_contra hlt
        have := hpos (not_le.mp hlt)
        omega
      · exact le_rfl

end QuotaWindow

section Bucket

variable {w : QuotaWindow} {bucket : UsageBucket} {now win : Int}

/-- A bucket without a utilization, over a window that is known. -/
theorem apply_unread (hunread : bucket.utilization = none) :
    QuotaRecord.applyBucket (some w) (some bucket) now win =
      if QuotaRecord.bucketReset bucket = none ∧ w.utilization = 0 then
        some { utilization := w.utilization, reset := none }
      else some (learnWindow w.utilization (QuotaRecord.bucketReset bucket) (some w) now win) := by
  simp [QuotaRecord.applyBucket, hunread, Option.isNone_iff_eq_none]

/-- What the prior reset and the reported one leave of an unread window. -/
theorem learn_window_unread (hwin : 0 < win) (reported : Option Instant) :
    (∀ t, now ≤ t → (learnWindow w.utilization reported (some w) now win).effective t ≤
      w.effective t) ↔ w.StaysFresh reported now := by
  obtain ⟨util, reset⟩ := w
  cases reset with
  | none =>
    cases reported with
    | none => exact QuotaWindow.dated_le_unknown_iff
    | some reported => exact QuotaWindow.dated_le_unknown_iff
  | some prior =>
    cases reported with
    | some reported => exact QuotaWindow.moved_le_iff
    | none =>
      show (∀ t, now ≤ t → QuotaWindow.effective
        { utilization := util, reset := if now < prior then some prior else some (now + win) } t ≤
          _) ↔ util ≤ 0 ∨ now < prior
      split
      · rename_i hahead
        exact iff_of_true (fun _ _ => le_rfl) (.inr hahead)
      · rename_i hpast
        rw [QuotaWindow.moved_le_iff, or_iff_left hpast]
        constructor
        · intro h
          by_contra hpos
          have := h.1 (not_le.mp hpos)
          omega
        · exact fun h => ⟨fun hpos => absurd h (not_le.mpr hpos), fun _ => .inl (not_lt.mp hpast)⟩

/-- A zero that keeps no reset reads zero, as it did. -/
theorem stays_fresh_zero {reported : Option Instant} (h : w.utilization = 0) :
    w.StaysFresh reported now := by
  obtain ⟨util, reset⟩ := w
  obtain rfl : util = 0 := h
  cases reset <;> cases reported <;> simp [QuotaWindow.StaysFresh]

end Bucket

namespace WindowSlot

theorem length_pos (slot : WindowSlot) : 0 < slot.length := by
  cases slot <;> decide

end WindowSlot

section Slot

variable {w : QuotaWindow} {bucket : UsageBucket} {now win : Int}

/-- Over a window that is known, a bucket without a utilization leaves it no fuller exactly when the
reset worked out keeps it fresh. -/
theorem apply_unread_iff (hunread : bucket.utilization = none) (hwin : 0 < win) :
    NeverFuller (some w) (QuotaRecord.applyBucket (some w) (some bucket) now win) now ↔
      w.StaysFresh (QuotaRecord.bucketReset bucket) now := by
  rw [apply_unread hunread]
  split
  · rename_i hzero
    refine iff_of_true (fun w' hw' => ?_) (stays_fresh_zero hzero.2)
    obtain rfl := Option.some_injective _ hw'
    refine ⟨w, rfl, fun t _ => ?_⟩
    obtain ⟨util, reset⟩ := w
    obtain rfl : util = 0 := hzero.2
    rw [QuotaWindow.effective_zero, QuotaWindow.effective_zero]
  · rw [← learn_window_unread hwin (QuotaRecord.bucketReset bucket)]
    constructor
    · intro h t ht
      obtain ⟨w₀, hw₀, hle⟩ := h _ rfl
      obtain rfl := Option.some_injective _ hw₀
      exact hle t ht
    · intro h w' hw'
      obtain rfl := Option.some_injective _ hw'
      exact ⟨w, rfl, h⟩

end Slot

/-- A probe that names a window without its utilization leaves it no fuller exactly when the window
was unknown or its reset, worked out again, keeps it fresh. -/
theorem unread_never_fuller_iff (q : QuotaRecord) (usage : Usage) (clock : ProbeClock)
    (slot : WindowSlot) (hunread : Unread usage slot) :
    NeverFuller (q.window slot) ((q.applyUsage usage clock).window slot) (clock.at slot) ↔
      ∀ bucket w, usage.bucket slot = some bucket → q.window slot = some w →
        w.StaysFresh (QuotaRecord.bucketReset bucket) (clock.at slot) := by
  rw [window_usage]
  cases hbucket : usage.bucket slot with
  | none =>
    exact iff_of_true (fun w' hw' => ⟨w', hw', fun _ _ => le_rfl⟩) nofun
  | some bucket =>
    have hnone : bucket.utilization = none := by
      simpa [Unread, hbucket] using hunread
    cases hw : q.window slot with
    | none =>
      refine iff_of_true (fun w' hw' => ?_) nofun
      simp [QuotaRecord.applyBucket, hnone] at hw'
    | some w =>
      rw [apply_unread_iff hnone slot.length_pos]
      refine ⟨fun h b w' hb hw' => ?_, fun h => h bucket w rfl rfl⟩
      obtain rfl := Option.some_injective _ hb
      obtain rfl := Option.some_injective _ hw'
      exact h

/-- A five-hour window at nine tenths, with the reset given. -/
def nineTenths (reset : Instant) : QuotaRecord :=
  { fiveHour := some { utilization := 9 / 10, reset := some reset } }

/-- A probe that names the five-hour window and reads nothing of it. -/
def unreadProbe : Usage :=
  { fiveHour := some { utilization := none, resetAtMs := none } }

def unreadClock : ProbeClock :=
  { fiveHour := 2000, sevenDay := 2000, sevenDayOi := 2000, stamp := 2000 }

/-- A window whose reset is ahead keeps it. -/
theorem running_window_never_fuller :
    NeverFuller ((nineTenths 3000).window .fiveHour)
      (((nineTenths 3000).applyUsage unreadProbe unreadClock).window .fiveHour) 2000 := by
  refine (unread_never_fuller_iff (nineTenths 3000) unreadProbe unreadClock .fiveHour rfl).mpr ?_
  intro bucket w hbucket hw
  obtain rfl := Option.some_injective _ hbucket
  obtain rfl := Option.some_injective _ hw
  exact .inr (by decide)

/-- A window past its reset, which reads empty, gets a new reset and reads nine tenths again. -/
theorem stale_window_fuller :
    let after := (nineTenths 1000).applyUsage unreadProbe unreadClock
    Unread unreadProbe .fiveHour ∧
      ((nineTenths 1000).fiveHour.map fun w => w.effective 2000) = some 0 ∧
      (after.fiveHour.map fun w => w.effective 2000) = some (9 / 10) ∧
      ¬NeverFuller ((nineTenths 1000).window .fiveHour) (after.window .fiveHour) 2000 := by
  have hafter : ((nineTenths 1000).applyUsage unreadProbe unreadClock).fiveHour =
      some { utilization := 9 / 10, reset := some (2000 + fiveHourLength) } := by decide +kernel
  refine ⟨rfl, rfl, by rw [hafter]; rfl, fun h => ?_⟩
  obtain ⟨w, hw, hle⟩ := h _ hafter
  obtain rfl := Option.some_injective _ hw
  exact absurd (hle 2000 le_rfl) (by decide +kernel)

end TeamClaude
