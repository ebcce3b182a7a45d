import TeamClaude.Quota.CodexProbe
import TeamClaude.Quota.Windows

/-!
# The two readings of a Codex account

The same two windows, read once from response headers and once from a usage payload. Each reader
reduces to the windows that carry data; the two then merge them side by side.
-/

namespace TeamClaude

open Lib.Json

/-- A window as upstream has it, before either reader. -/
structure SlotWindow where
  used : ℚ
  minutes : Option Nat
  resetAt : Option Int
  minutes_pos : ∀ m ∈ minutes, 0 < m

namespace SlotWindow

/-- Its reset second is a date. -/
def Dated (w : SlotWindow) : Prop :=
  ∀ s ∈ w.resetAt, minTimestamp ≤ s ∧ s ≤ maxTimestamp

/-- The slot is no placeholder. -/
def carriesData (w : SlotWindow) : Bool :=
  !(decide (w.used = 0) && w.minutes.isNone && w.resetAt.isNone)

/-- The bucket of the window: by length, else by its slot. -/
def weekly (w : SlotWindow) (positionalIsWeekly : Bool) : Bool :=
  match w.minutes with
  | some m => decide (600 < m)
  | none => positionalIsWeekly

def headerReading (w : SlotWindow) : CodexReading where
  utilization := w.used / 100
  reported := w.resetAt.map (· * 1000000000)
  minutes := w.minutes.bind fun m => toU32 m

def payloadReading (w : SlotWindow) : PayloadReading where
  bucket := { utilization := some (w.used / 100), resetAtMs := w.resetAt.map (· * 1000) }
  minutes := w.minutes.bind fun m => toU32 m

/-- What a slot holds, where it carries data, in the bucket the flag names. -/
def falling (slot : Option SlotWindow) (positionalIsWeekly isWeekly : Bool) : List SlotWindow :=
  ((slot.filter carriesData).filter fun w => w.weekly positionalIsWeekly = isWeekly).toList

end SlotWindow

def InHeaders (text : TextReadings) (headers : HeaderView) (slot : String) :
    Option SlotWindow → Prop
  | none => getParsed text.f64 headers (slot ++ "-used-percent") = none
  | some w =>
    getParsed text.f64 headers (slot ++ "-used-percent") = some w.used ∧
      getParsed parseI64 headers (slot ++ "-window-minutes") = w.minutes.map (fun m : Nat => (m : Int)) ∧
      getParsed parseI64 headers (slot ++ "-reset-at") = w.resetAt

/-- The payload's `rate_limit` reports this slot, its length in seconds. -/
def InPayload (rateLimit : Value) (key : String) : Option SlotWindow → Prop
  | none => (rateLimit.get key).filter (fun v => !v.isNull) = none
  | some w => ∃ v, rateLimit.get key = some v ∧ v.isNull = false ∧
      (v.get "used_percent").bind Value.asF64 = some w.used ∧
      (v.get "limit_window_seconds").bind Value.asI64 = w.minutes.map (fun m : Nat => 60 * (m : Int)) ∧
      (v.get "reset_at").bind Value.asI64 = w.resetAt ∧
      (v.get "reset_after_seconds").bind Value.asI64 = none

/-- A response's headers report both slots. -/
def InResponse (text : TextReadings) (headers : HeaderView)
    (primary secondary : Option SlotWindow) : Prop :=
  InHeaders text headers "x-codex-primary" primary ∧
    InHeaders text headers "x-codex-secondary" secondary

/-- A usage payload reports both slots; without a `rate_limit` it reports none. -/
def InUsage (payload : Value) (primary secondary : Option SlotWindow) : Prop :=
  match (payload.get "rate_limit").filter fun r => !r.isNull with
  | none => primary = none ∧ secondary = none
  | some rateLimit =>
    InPayload rateLimit "primary_window" primary ∧ InPayload rateLimit "secondary_window" secondary

section Slots

variable {text : TextReadings} {headers : HeaderView} {slot : String} {positional : Bool}
  {w : Option SlotWindow}

theorem from_unix_timestamp_dated {s : Int} (h : minTimestamp ≤ s ∧ s ≤ maxTimestamp) :
    fromUnixTimestamp s = some (s * 1000000000) :=
  if_pos h

theorem dated_reset {w : SlotWindow} (h : w.Dated) :
    w.resetAt.bind fromUnixTimestamp = w.resetAt.map (· * 1000000000) := by
  cases hs : w.resetAt with
  | none => rfl
  | some s => exact from_unix_timestamp_dated (h s hs)

theorem dated_millis {w : SlotWindow} (h : w.Dated) :
    w.resetAt.map (fun s => saturatingMul s 1000) = w.resetAt.map (· * 1000) := by
  cases hs : w.resetAt with
  | none => rfl
  | some s =>
    obtain ⟨hlo, hhi⟩ := h s hs
    simp only [minTimestamp, maxTimestamp] at hlo hhi
    simp only [Option.map_some, Option.some.injEq, saturatingMul, i64Min, i64Max]
    omega

theorem filter_carries {β : Type} {f : SlotWindow → β} (v : SlotWindow) :
    ((some v).filter SlotWindow.carriesData).map f =
      if decide (v.used = 0) && v.minutes.isNone && v.resetAt.isNone then none else some (f v) := by
  rw [Option.filter_some, SlotWindow.carriesData]
  by_cases hskip : (decide (v.used = 0) && v.minutes.isNone && v.resetAt.isNone) = true
  · rw [if_pos hskip, hskip]
    rfl
  · rw [if_neg hskip, Bool.eq_false_iff.mpr hskip]
    rfl

theorem minutes_filter (v : SlotWindow) :
    (v.minutes.map (fun m : Nat => (m : Int))).filter (fun m => decide (0 < m)) =
      v.minutes.map (fun m : Nat => (m : Int)) := by
  cases hm : v.minutes with
  | none => rfl
  | some m =>
    have hpos : 0 < m := v.minutes_pos m hm
    simp [hpos]

theorem minutes_bind (v : SlotWindow) :
    (v.minutes.map fun m : Nat => (m : Int)).bind toU32 = v.minutes.bind fun m => toU32 m := by
  cases v.minutes <;> rfl

theorem weekly_of_minutes (v : SlotWindow) :
    fillsWeekly (v.minutes.map fun m : Nat => (m : Int)) codexFiveHourCutoffMinutes positional =
      v.weekly positional := by
  unfold SlotWindow.weekly
  cases v.minutes with
  | none => rfl
  | some m =>
    apply decide_eq_decide.mpr
    show (600 : Int) < (m : Int) ↔ 600 < m
    omega

theorem weekly_of_seconds (v : SlotWindow) :
    fillsWeekly (v.minutes.map fun m : Nat => 60 * (m : Int)) codexFiveHourCutoffSeconds positional =
      v.weekly positional := by
  unfold SlotWindow.weekly
  cases v.minutes with
  | none => rfl
  | some m =>
    apply decide_eq_decide.mpr
    show (36000 : Int) < 60 * (m : Int) ↔ 600 < m
    omega

theorem codex_header_slot (h : InHeaders text headers slot w) (hdated : ∀ v ∈ w, v.Dated) :
    codexHeaderSlot text headers slot positional =
      (w.filter SlotWindow.carriesData).map fun v => (v.weekly positional, v.headerReading) := by
  cases w with
  | none =>
    simp only [InHeaders] at h
    rw [codexHeaderSlot, h]
    rfl
  | some v =>
    obtain ⟨hused, hminutes, hreset⟩ := h
    rw [codexHeaderSlot, hused, filter_carries]
    simp only [hminutes, minutes_filter, hreset, dated_reset (hdated v rfl), Option.isNone_map,
      weekly_of_minutes, minutes_bind, SlotWindow.headerReading]

theorem seconds_filter (v : SlotWindow) :
    (v.minutes.map fun m : Nat => 60 * (m : Int)).filter (fun s => decide (0 < s)) =
      v.minutes.map fun m : Nat => 60 * (m : Int) := by
  cases hm : v.minutes with
  | none => rfl
  | some m =>
    have hpos : 0 < m := v.minutes_pos m hm
    simp [hpos]

theorem minutes_of_seconds (v : SlotWindow) :
    ((v.minutes.map fun m : Nat => 60 * (m : Int)).bind fun secs => toU32 (secs / 60)).filter
      (fun m => decide (0 < m)) = v.minutes.bind fun m => toU32 m := by
  cases hm : v.minutes with
  | none => rfl
  | some m =>
    have hpos : 0 < m := v.minutes_pos m hm
    have hdiv : 60 * (m : Int) / 60 = (m : Int) := by
      omega
    rw [Option.map_some, Option.bind_some, Option.bind_some, hdiv]
    unfold toU32
    split
    · rw [Int.toNat_natCast, Option.filter_some, decide_eq_true hpos]
      rfl
    · rfl

theorem codex_payload_slot {rateLimit : Value} {key : String} (nowS : Int)
    (h : InPayload rateLimit key w) (hdated : ∀ v ∈ w, v.Dated) :
    codexPayloadSlot rateLimit key positional nowS =
      (w.filter SlotWindow.carriesData).map fun v => (v.weekly positional, v.payloadReading) := by
  cases w with
  | none =>
    simp only [InPayload] at h
    rw [codexPayloadSlot, h]
    rfl
  | some v =>
    obtain ⟨tree, hget, hnull, hused, hseconds, hreset, hafter⟩ := h
    have hfound : (rateLimit.get key).filter (fun t => !t.isNull) = some tree := by
      rw [hget, Option.filter_some, hnull]
      rfl
    have hzero : decide (v.used / 100 = 0) = decide (v.used = 0) := by
      simp only [decide_eq_decide]
      constructor
      · intro h
        linarith [div_mul_cancel₀ v.used (by norm_num : (100 : ℚ) ≠ 0)]
      · intro h
        rw [h, zero_div]
    rw [codexPayloadSlot, hfound, filter_carries]
    simp only [hused, hseconds, hreset, hafter, seconds_filter, minutes_of_seconds, Option.map_none,
      Option.or_none, dated_millis (hdated v rfl), Option.map_some, Option.all_some, hzero,
      Option.isNone_map, weekly_of_seconds, SlotWindow.payloadReading]

end Slots

/-- What the two readers have of one bucket after the windows `ws`. -/
inductive Agree : List SlotWindow → Option CodexReading → Option PayloadReading → Prop
  | unread : Agree [] none none
  | read {ws : List SlotWindow} {r : CodexReading} (reset : Option Int) (fell : ws ≠ [])
      (reported : r.reported = reset.map (· * 1000000000))
      (dated : ∀ s ∈ reset, minTimestamp ≤ s ∧ s ≤ maxTimestamp)
      (unreported : reset = none → ∀ w ∈ ws, w.resetAt = none) :
      Agree ws (some r)
        (some { bucket := { utilization := some r.utilization
                            resetAtMs := reset.map (· * 1000) }
                minutes := r.minutes })

section Merge

variable {ws : List SlotWindow} {h : Option CodexReading} {p : Option PayloadReading}

theorem max_map_mul (a b : Option Int) {c : Int} (hc : 0 ≤ c) :
    max (a.map (· * c)) (b.map (· * c)) = (max a b).map (· * c) := by
  cases a with
  | none => cases b <;> rfl
  | some a =>
    cases b with
    | none => rfl
    | some b =>
      show some (max (a * c) (b * c)) = some (max a b * c)
      rw [max_mul_of_nonneg a b hc]

theorem max_dated {a b : Option Int} (ha : ∀ s ∈ a, minTimestamp ≤ s ∧ s ≤ maxTimestamp)
    (hb : ∀ s ∈ b, minTimestamp ≤ s ∧ s ≤ maxTimestamp) :
    ∀ s ∈ max a b, minTimestamp ≤ s ∧ s ≤ maxTimestamp := by
  cases a with
  | none => cases b <;> exact hb
  | some a =>
    cases b with
    | none => exact ha
    | some b =>
      intro s hs
      cases hs
      rcases max_choice a b with h | h
      · rw [h]
        exact ha a rfl
      · rw [h]
        exact hb b rfl

theorem max_eq_none {a b : Option Int} (h : max a b = none) : a = none ∧ b = none := by
  cases a <;> cases b <;> first | exact ⟨rfl, rfl⟩ | cases h

/-- One more window in the bucket, on both sides. -/
theorem Agree.merge {w : SlotWindow} (hag : Agree ws h p) (hw : w.Dated) :
    Agree (ws ++ [w]) (some (mergeInto CodexReading.merge h w.headerReading))
      (some (mergeInto PayloadReading.merge p w.payloadReading)) := by
  cases hag with
  | unread =>
    refine Agree.read w.resetAt (List.cons_ne_nil _ _) rfl hw ?_
    intro hnone v hv
    obtain rfl := List.mem_singleton.mp hv
    exact hnone
  | @read _ r reset _ hreported hdated hnone =>
    have hread := @Agree.read (ws ++ [w]) (r.merge w.headerReading) (max reset w.resetAt)
      (List.append_ne_nil_of_right_ne_nil _ (List.cons_ne_nil _ _)) ?_ (max_dated hdated hw) ?_
    · simpa [mergeInto, PayloadReading.merge, CodexReading.merge, SlotWindow.payloadReading,
        SlotWindow.headerReading, max_map_mul, rank] using hread
    · show max r.reported w.headerReading.reported = _
      rw [hreported, SlotWindow.headerReading, max_map_mul _ _ (by decide)]
    · intro hmax v hv
      obtain ⟨hreset, hw⟩ := max_eq_none hmax
      rcases List.mem_append.mp hv with hv | hv
      · exact hnone hreset v hv
      · obtain rfl := List.mem_singleton.mp hv
        exact hw

end Merge

/-- The windows that fall in a bucket, of a primary and a secondary slot. -/
def windowsIn (primary secondary : Option SlotWindow) : WindowSlot → List SlotWindow
  | .fiveHour => SlotWindow.falling primary false false ++ SlotWindow.falling secondary true false
  | .sevenDay => SlotWindow.falling primary false true ++ SlotWindow.falling secondary true true
  | .sevenDayOi => []

/-- Both buckets of the two readers, after the windows given for each. -/
structure BucketsAgree (fiveHour weekly : List SlotWindow) (h : SlotBuckets CodexReading)
    (p : SlotBuckets PayloadReading) : Prop where
  fiveHour : Agree fiveHour h.fiveHour p.fiveHour
  weekly : Agree weekly h.weekly p.weekly

theorem Agree.lengths {ws : List SlotWindow} {h : Option CodexReading}
    {p : Option PayloadReading} (hag : Agree ws h p) :
    h.map (fun r => CodexWindow.mk r.minutes) = p.map (fun r => CodexWindow.mk r.minutes) := by
  cases hag <;> rfl

section Falling

variable {slot : Option SlotWindow} {positional isWeekly : Bool}

theorem falling_none (h : slot.filter SlotWindow.carriesData = none) :
    SlotWindow.falling slot positional isWeekly = [] := by
  rw [SlotWindow.falling, h]
  rfl

theorem falling_some {v : SlotWindow} (h : slot.filter SlotWindow.carriesData = some v) :
    SlotWindow.falling slot positional isWeekly =
      if v.weekly positional = isWeekly then [v] else [] := by
  rw [SlotWindow.falling, h, Option.filter_some]
  by_cases hw : v.weekly positional = isWeekly
  · rw [if_pos (decide_eq_true hw), if_pos hw]
    rfl
  · rw [if_neg (by simpa using hw), if_neg hw]
    rfl

end Falling

section Buckets

variable {five seven : List SlotWindow} {h : SlotBuckets CodexReading}
  {p : SlotBuckets PayloadReading}

theorem BucketsAgree.add {slot : Option SlotWindow} {positional : Bool}
    (hb : BucketsAgree five seven h p) (hdated : ∀ v ∈ slot, v.Dated) :
    BucketsAgree (five ++ SlotWindow.falling slot positional false)
      (seven ++ SlotWindow.falling slot positional true)
      (h.add CodexReading.merge ((slot.filter SlotWindow.carriesData).map
        fun v => (v.weekly positional, v.headerReading)))
      (p.add PayloadReading.merge ((slot.filter SlotWindow.carriesData).map
        fun v => (v.weekly positional, v.payloadReading))) := by
  cases hslot : slot.filter SlotWindow.carriesData with
  | none =>
    rw [falling_none hslot, falling_none hslot, List.append_nil, List.append_nil]
    exact hb
  | some v =>
    have hv : v.Dated := hdated v (Option.eq_some_of_filter_eq_some hslot)
    rw [falling_some hslot, falling_some hslot, Option.map_some, Option.map_some]
    cases v.weekly positional with
    | true => exact ⟨by simpa [SlotBuckets.add] using hb.fiveHour, hb.weekly.merge hv⟩
    | false => exact ⟨hb.fiveHour.merge hv, by simpa [SlotBuckets.add] using hb.weekly⟩

theorem BucketsAgree.windows (hb : BucketsAgree five seven h p) :
    h.windows CodexReading.minutes = p.windows PayloadReading.minutes := by
  simp only [SlotBuckets.windows, hb.fiveHour.lengths, hb.weekly.lengths]

end Buckets

/-- One bucket, folded from either reader at the same instant. -/
theorem agree_window {ws : List SlotWindow} {h : Option CodexReading} {p : Option PayloadReading}
    (hag : Agree ws h p) (window : Option QuotaWindow) (now : Instant) (win : Int) :
    (QuotaRecord.learnReading window h now win).map QuotaWindow.utilization =
        (QuotaRecord.applyBucket window (p.map PayloadReading.bucket) now win).map
          QuotaWindow.utilization ∧
      (QuotaRecord.learnReading window h now win =
          QuotaRecord.applyBucket window (p.map PayloadReading.bucket) now win ∨
        (∀ w ∈ ws, w.resetAt = none) ∧
          QuotaRecord.applyBucket window (p.map PayloadReading.bucket) now win =
            some { utilization := 0, reset := none }) := by
  cases hag with
  | unread => exact ⟨rfl, .inl rfl⟩
  | @read _ r reset _ hreported hdated hnone =>
    have hbucket : QuotaRecord.bucketReset
        { utilization := some r.utilization, resetAtMs := reset.map (· * 1000) } = r.reported := by
      rw [hreported]
      cases reset with
      | none => rfl
      | some s =>
        obtain ⟨hlo, hhi⟩ := hdated s rfl
        have hnanos : s * 1000 * 1000000 = s * 1000000000 := by omega
        have hsecs : s * 1000000000 / 1000000000 = s := by omega
        simp only [QuotaRecord.bucketReset, Option.map_some, Option.bind_some, hnanos,
          fromUnixTimestampNanos, hsecs]
        exact if_pos ⟨hlo, hhi⟩
    simp only [QuotaRecord.learnReading, QuotaRecord.applyBucket, Option.map_some, Option.some_or,
      hbucket]
    split
    · rename_i hidle
      obtain ⟨hreset, hzero⟩ := Bool.and_eq_true_iff.mp hidle
      have hzero := of_decide_eq_true hzero
      refine ⟨by rw [hzero]; rfl, .inr ⟨hnone ?_, by rw [hzero]⟩⟩
      rw [hreported, Option.isNone_map, Option.isNone_iff_eq_none] at hreset
      exact hreset
    · exact ⟨rfl, .inl rfl⟩

def ProbeClock.still (now : Instant) : ProbeClock where
  fiveHour := now
  sevenDay := now
  sevenDayOi := now
  stamp := now

theorem still_at (now : Instant) (slot : WindowSlot) : (ProbeClock.still now).at slot = now := by
  cases slot <;> rfl

section Facts

variable {q : QuotaRecord}

theorem probed_lift {facts : CodexProbeFacts} :
    (q.liftACodexRefusalTheProbeReadsAllowed facts).codex.probedWindows =
      q.codex.probedWindows := by
  unfold QuotaRecord.liftACodexRefusalTheProbeReadsAllowed
  split <;> rfl

theorem probed_windows {usage : Usage} {clock : ProbeClock} {facts : CodexProbeFacts}
    (h : usage.codex = some facts) :
    (q.applyUsage usage clock).codex.probedWindows = some facts.windows := by
  simp only [QuotaRecord.applyUsage, h, QuotaRecord.applyFacts]
  split
  · show (QuotaRecord.liftACodexRefusalTheProbeReadsAllowed _ facts).codex.probedWindows = _
    rw [probed_lift]
  · rw [probed_lift]

/-- A response records the windows it carried, and nothing where it carried none. -/
theorem header_windows {text : TextReadings} {headers : HeaderView} {httpStatus : Nat}
    {refusal : Option CodexQuotaRefusal} {now : Instant} :
    ((q.updateFromCodexRefusal text headers httpStatus refusal now).1).codex.headerWindows =
      if (codexHeaderReadings text headers).fiveHour.isSome ||
          (codexHeaderReadings text headers).weekly.isSome then
        some ((codexHeaderReadings text headers).windows CodexReading.minutes)
      else q.codex.headerWindows := by
  simp only [QuotaRecord.updateFromCodexRefusal]
  cases refusal with
  | some r => rfl
  | none =>
    simp only
    split <;> rfl

end Facts

section Main

variable {text : TextReadings} {headers : HeaderView} {payload : Value}
  {primary secondary : Option SlotWindow}

theorem usage_readings (nowMs : Int) (h : InUsage payload primary secondary)
    (hprimary : ∀ v ∈ primary, v.Dated) (hsecondary : ∀ v ∈ secondary, v.Dated) :
    ∃ readings : SlotBuckets PayloadReading,
      readings = SlotBuckets.ofSlots PayloadReading.merge
        ((primary.filter SlotWindow.carriesData).map fun v => (v.weekly false, v.payloadReading))
        ((secondary.filter SlotWindow.carriesData).map fun v => (v.weekly true, v.payloadReading)) ∧
      (usageFromPayload payload nowMs).fiveHour = readings.fiveHour.map PayloadReading.bucket ∧
      (usageFromPayload payload nowMs).sevenDay = readings.weekly.map PayloadReading.bucket ∧
      (usageFromPayload payload nowMs).sevenDayOi = none ∧
      ∃ facts, (usageFromPayload payload nowMs).codex = some facts ∧
        facts.windows = readings.windows PayloadReading.minutes := by
  refine ⟨_, rfl, ?_⟩
  unfold InUsage at h
  unfold usageFromPayload
  cases hlimit : (payload.get "rate_limit").filter fun r => !r.isNull with
  | none =>
    rw [hlimit] at h
    obtain ⟨rfl, rfl⟩ := h
    exact ⟨rfl, rfl, rfl, _, rfl, rfl⟩
  | some rateLimit =>
    rw [hlimit] at h
    rw [← codex_payload_slot (nowMs.tdiv 1000) h.1 hprimary,
      ← codex_payload_slot (nowMs.tdiv 1000) h.2 hsecondary]
    exact ⟨rfl, rfl, rfl, _, rfl, rfl⟩

theorem readings_agree {readings : SlotBuckets PayloadReading}
    (h : InResponse text headers primary secondary)
    (hprimary : ∀ v ∈ primary, v.Dated) (hsecondary : ∀ v ∈ secondary, v.Dated)
    (hreadings : readings = SlotBuckets.ofSlots PayloadReading.merge
      ((primary.filter SlotWindow.carriesData).map fun v => (v.weekly false, v.payloadReading))
      ((secondary.filter SlotWindow.carriesData).map fun v => (v.weekly true, v.payloadReading))) :
    BucketsAgree (windowsIn primary secondary .fiveHour) (windowsIn primary secondary .sevenDay)
      (codexHeaderReadings text headers) readings := by
  rw [hreadings, codexHeaderReadings, codex_header_slot h.1 hprimary,
    codex_header_slot h.2 hsecondary]
  have hempty : BucketsAgree [] [] ({} : SlotBuckets CodexReading) {} := ⟨.unread, .unread⟩
  exact (hempty.add hprimary).add hsecondary

theorem Agree.isSome {ws : List SlotWindow} {h : Option CodexReading}
    {p : Option PayloadReading} (hag : Agree ws h p) : h.isSome = true ↔ ws ≠ [] := by
  cases hag with
  | unread => simp
  | read _ fell => simpa using fell

/-- The two readings of a Codex account agree: folded at the same instant they leave the same
utilizations, the same resets but for an idle bucket whose windows report none, and the same
windows with the same lengths; where no window carries data the headers say nothing and the probe
says there is none. -/
theorem codex_readings_agree (text : TextReadings) (q : QuotaRecord)
    (primary secondary : Option SlotWindow) (headers : HeaderView) (httpStatus : Nat)
    (payload : Value) (nowMs : Int) (now : Instant)
    (hresponse : InResponse text headers primary secondary)
    (husage : InUsage payload primary secondary)
    (hprimary : ∀ v ∈ primary, v.Dated) (hsecondary : ∀ v ∈ secondary, v.Dated) :
    let a := (q.updateFromCodexRefusal text headers httpStatus none now).1
    let b := q.applyUsage (usageFromPayload payload nowMs) (ProbeClock.still now)
    (∀ slot, (a.window slot).map QuotaWindow.utilization =
        (b.window slot).map QuotaWindow.utilization ∧
      (a.window slot = b.window slot ∨
        (∀ w ∈ windowsIn primary secondary slot, w.resetAt = none) ∧
          b.window slot = some { utilization := 0, reset := none })) ∧
    ((windowsIn primary secondary .fiveHour ≠ [] ∨ windowsIn primary secondary .sevenDay ≠ []) →
      a.codex.headerWindows = b.codex.probedWindows) ∧
    (windowsIn primary secondary .fiveHour = [] ∧ windowsIn primary secondary .sevenDay = [] →
      a.codex.headerWindows = q.codex.headerWindows ∧ b.codex.probedWindows = some {}) := by
  intro a b
  obtain ⟨readings, hreadings, hfive, hseven, hoi, facts, hfacts, hwindows⟩ :=
    usage_readings nowMs husage hprimary hsecondary
  have hag : BucketsAgree (windowsIn primary secondary .fiveHour)
      (windowsIn primary secondary .sevenDay) (codexHeaderReadings text headers) readings :=
    readings_agree hresponse hprimary hsecondary hreadings
  have hprobed : b.codex.probedWindows =
      some ((codexHeaderReadings text headers).windows CodexReading.minutes) := by
    rw [probed_windows hfacts, hwindows, hag.windows]
  refine ⟨fun slot => ?_, fun hfell => ?_, fun hsilent => ?_⟩
  · have hb : b.window slot = QuotaRecord.applyBucket (q.window slot)
        ((usageFromPayload payload nowMs).bucket slot) now slot.length := by
      rw [window_usage, still_at]
    rw [hb]
    cases slot with
    | fiveHour =>
      show (Option.map _ a.fiveHour = _) ∧ (a.fiveHour = _ ∨ _)
      rw [codex_refusal_five_hour, Usage.bucket, hfive]
      exact agree_window hag.fiveHour q.fiveHour now fiveHourLength
    | sevenDay =>
      show (Option.map _ a.sevenDay = _) ∧ (a.sevenDay = _ ∨ _)
      rw [codex_refusal_seven_day, Usage.bucket, hseven]
      exact agree_window hag.weekly q.sevenDay now sevenDayLength
    | sevenDayOi =>
      show (Option.map _ a.sevenDayOi = _) ∧ (a.sevenDayOi = _ ∨ _)
      rw [codex_refusal_model_weekly, Usage.bucket, hoi]
      exact ⟨rfl, .inl rfl⟩
  · rw [hprobed, header_windows, if_pos]
    rw [Bool.or_eq_true, hag.fiveHour.isSome, hag.weekly.isSome]
    exact hfell
  · have hnone5 : (codexHeaderReadings text headers).fiveHour = none := by
      rw [← Option.not_isSome_iff_eq_none, hag.fiveHour.isSome, not_not]
      exact hsilent.1
    have hnone7 : (codexHeaderReadings text headers).weekly = none := by
      rw [← Option.not_isSome_iff_eq_none, hag.weekly.isSome, not_not]
      exact hsilent.2
    rw [hprobed, header_windows, SlotBuckets.windows, hnone5, hnone7]
    exact ⟨rfl, rfl⟩

end Main

def wholeNumbers : TextReadings where
  f64 := fun s => (parseI64 s).map fun n => (n : ℚ)
  rfc3339 := fun _ => none

/-- A response with a primary slot only. -/
def primaryHeaders (used minutes resetAt : Option String) : HeaderView := fun name =>
  if name = "x-codex-primary-used-percent" then used
  else if name = "x-codex-primary-window-minutes" then minutes
  else if name = "x-codex-primary-reset-at" then resetAt
  else none

/-- A payload with a primary window only. -/
def primaryPayload (fields : List (String × UInt64)) : Value :=
  .object [("rate_limit", .object [("primary_window",
    .object (fields.map fun f => (f.1, .number (.posInt f.2))))])]

def sessionWindow : SlotWindow where
  used := 25
  minutes := some 300
  resetAt := some 1800003600
  minutes_pos := by simp

theorem codex_readings_agree_session :
    (((({} : QuotaRecord).updateFromCodexRefusal wholeNumbers
          (primaryHeaders (some "25") (some "300") (some "1800003600")) 200 none 0).1).window
        .fiveHour).map QuotaWindow.utilization =
      ((({} : QuotaRecord).applyUsage (usageFromPayload (primaryPayload
          [("used_percent", 25), ("limit_window_seconds", 18000), ("reset_at", 1800003600)]) 0)
        (ProbeClock.still 0)).window .fiveHour).map QuotaWindow.utilization :=
  ((codex_readings_agree wholeNumbers {} (some sessionWindow) none
    (primaryHeaders (some "25") (some "300") (some "1800003600")) 200
    (primaryPayload
      [("used_percent", 25), ("limit_window_seconds", 18000), ("reset_at", 1800003600)]) 0 0
    ⟨⟨by decide +kernel, by decide +kernel, by decide +kernel⟩, rfl⟩
    ⟨⟨_, rfl, rfl, by decide +kernel, by decide +kernel, by decide +kernel, by decide +kernel⟩,
      rfl⟩
    (by rintro v ⟨⟩ s ⟨⟩; decide) (by rintro v ⟨⟩)).1 .fiveHour).1

/-- An unused session window, its length known and its reset not. -/
def idleWindow : SlotWindow where
  used := 0
  minutes := some 300
  resetAt := none
  minutes_pos := by simp

/-- The headers make up a reset for an idle window, the probe does not. -/
theorem idle_codex_readings_differ :
    InResponse wholeNumbers (primaryHeaders (some "0") (some "300") none) (some idleWindow) none ∧
      InUsage (primaryPayload [("used_percent", 0), ("limit_window_seconds", 18000)])
        (some idleWindow) none ∧
      ((({} : QuotaRecord).updateFromCodexRefusal wholeNumbers
          (primaryHeaders (some "0") (some "300") none) 200 none 0).1).window .fiveHour ≠
        (({} : QuotaRecord).applyUsage (usageFromPayload
            (primaryPayload [("used_percent", 0), ("limit_window_seconds", 18000)]) 0)
          (ProbeClock.still 0)).window .fiveHour := by
  refine ⟨⟨⟨by decide +kernel, by decide +kernel, by decide +kernel⟩, rfl⟩,
    ⟨⟨_, rfl, rfl, by decide +kernel, by decide +kernel, by decide +kernel, by decide +kernel⟩,
      rfl⟩, ?_⟩
  decide +kernel

end TeamClaude
