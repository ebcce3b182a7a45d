import TeamClaude.Lib.Exec
import TeamClaude.Peer.Headroom

/-!
# The meter of a hand-mode lease

The borrower sees the owner's window only through the readings on its own answers. The meter of a
lease keeps the highest reading so far, and an answer that reads above it reports the rise. A
baseline that comes with a bearer moves the meter and reports nothing.
-/

namespace TeamClaude

/-- An `f64`, exact where it is finite. -/
inductive Reading
  | finite (value : ℚ)
  | infinite
  | negInfinite
  | nan
  deriving DecidableEq

namespace Reading

/-- `f64::max`: a NaN gives way. -/
def max : Reading → Reading → Reading
  | nan, b => b
  | a, nan => a
  | infinite, _ => infinite
  | _, infinite => infinite
  | negInfinite, b => b
  | a, negInfinite => a
  | finite a, finite b => finite (Max.max a b)

def finite? : Reading → Option ℚ
  | finite value => some value
  | _ => none

end Reading

structure UsageHint where
  leaseId : LeaseId
  spent : ℚ
  deriving DecidableEq

/-- What `usage_hint` takes one answer to have cost, before the floor. -/
def handedRise (before after : Option Reading) : Option ℚ :=
  match before.bind Reading.finite?, after.bind Reading.finite? with
  | some before, some after => if after - before ≤ 0 then none else some (after - before)
  | _, _ => none

def usageHint (leaseId : LeaseId) (before after : Option Reading) : Option UsageHint :=
  (handedRise before after).map fun rise => { leaseId, spent := max rise minDebit }

/-- The hints queued for the session of a lease, and the highest reading so far. -/
structure HandedMeter where
  sink : List UsageHint
  last : Option Reading
  deriving DecidableEq

abbrev HandedMeters := AList fun _ : LeaseId => HandedMeter

namespace HandedMeters

/-- `register_handed_meter`: the reading survives the channel. -/
def register (leaseId : LeaseId) (meters : HandedMeters) : HandedMeters :=
  meters.insert leaseId { sink := [], last := (meters.lookup leaseId).bind HandedMeter.last }

def noteBaseline (leaseId : LeaseId) (utilization : Reading) (meters : HandedMeters) :
    HandedMeters :=
  if utilization.finite?.isNone then meters
  else
    match meters.lookup leaseId with
    | none => meters
    | some meter =>
      meters.insert leaseId
        { meter with last := some (meter.last.elim utilization fun last => last.max utilization) }

def reportSpend (leaseId : LeaseId) (utilization : Option Reading) (meters : HandedMeters) :
    HandedMeters :=
  match utilization with
  | none => meters
  | some utilization =>
    match meters.lookup leaseId with
    | none => meters
    | some meter =>
      let before := meter.last
      meters.insert leaseId {
        sink := meter.sink ++ (usageHint leaseId before (some utilization)).toList
        last := some (before.elim utilization fun last => last.max utilization) }

/-- The reading a lease's meter stands at. -/
def last (meters : HandedMeters) (leaseId : LeaseId) : Option Reading :=
  (meters.lookup leaseId).bind HandedMeter.last

end HandedMeters

/-! ## Runs -/

inductive MeterCall
  | note (leaseId : LeaseId) (utilization : Reading)
  | report (leaseId : LeaseId) (utilization : Option Reading)
  deriving DecidableEq

namespace MeterCall

def step (meters : HandedMeters) : MeterCall → HandedMeters
  | note leaseId utilization => meters.noteBaseline leaseId utilization
  | report leaseId utilization => meters.reportSpend leaseId utilization

def reading? (leaseId : LeaseId) : MeterCall → Option ℚ
  | note id utilization => if id = leaseId then utilization.finite? else none
  | report id utilization => if id = leaseId then utilization.bind Reading.finite? else none

def rise? (leaseId : LeaseId) (meters : HandedMeters) : MeterCall → Option ℚ
  | note _ _ => none
  | report id utilization =>
    if id = leaseId then handedRise (meters.last leaseId) utilization else none

def absorbed (leaseId : LeaseId) (meters : HandedMeters) : MeterCall → ℚ
  | note id utilization =>
    if id = leaseId then (handedRise (meters.last leaseId) (some utilization)).getD 0 else 0
  | report _ _ => 0

end MeterCall

namespace HandedMeters

def rises (leaseId : LeaseId) : HandedMeters → List MeterCall → List ℚ
  | _, [] => []
  | meters, call :: calls =>
    (call.rise? leaseId meters).toList ++ rises leaseId (call.step meters) calls

/-- What the baselines of a run move the meter of a lease by. -/
def absorbed (leaseId : LeaseId) : HandedMeters → List MeterCall → ℚ
  | _, [] => 0
  | meters, call :: calls =>
    call.absorbed leaseId meters + absorbed leaseId (call.step meters) calls

def readings (leaseId : LeaseId) (calls : List MeterCall) : List ℚ :=
  calls.filterMap (MeterCall.reading? leaseId)

end HandedMeters

/-! ## One call -/

theorem handed_rise_finite (x u : ℚ) :
    (handedRise (some (.finite x)) (some (.finite u))).getD 0 = max x u - x := by
  simp only [handedRise, Option.bind_some, Reading.finite?]
  split
  · rename_i hle
    rw [max_eq_left (by linarith), sub_self]
    rfl
  · rename_i hgt
    rw [max_eq_right (by linarith)]
    rfl

theorem handed_rise_nonneg (before after : Option Reading) :
    0 ≤ (handedRise before after).getD 0 := by
  unfold handedRise
  split
  · split
    · exact le_rfl
    · rename_i hpos
      exact (not_le.mp hpos).le
  · exact le_rfl

theorem handed_rise_not_finite {before after : Option Reading}
    (h : before.bind Reading.finite? = none ∨ after.bind Reading.finite? = none) :
    handedRise before after = none := by
  unfold handedRise
  rcases h with h | h
  · rw [h]
  · rw [h]
    cases before.bind Reading.finite? <;> rfl

namespace MeterCall

variable {leaseId : LeaseId} {meters : HandedMeters}

/-- Where a meter stands once a reading is put to it. -/
def higher (last taken : Option Reading) : Option Reading :=
  taken.elim last fun taken => some (last.elim taken fun last => last.max taken)

def taken? (leaseId : LeaseId) : MeterCall → Option Reading
  | note id utilization =>
    if id = leaseId ∧ utilization.finite?.isSome then some utilization else none
  | report id utilization => if id = leaseId then utilization else none

theorem reading_eq (call : MeterCall) :
    call.reading? leaseId = (call.taken? leaseId).bind Reading.finite? := by
  cases call with
  | note id utilization =>
    by_cases hid : id = leaseId
    · cases utilization <;> simp [reading?, taken?, hid, Reading.finite?]
    · simp [reading?, taken?, hid]
  | report id utilization =>
    by_cases hid : id = leaseId <;> simp [reading?, taken?, hid]

/-- A call moves the meter of a lease by the rise it reports or by the baseline it brings. -/
theorem rise_add_absorbed (call : MeterCall) :
    (call.rise? leaseId meters).getD 0 + call.absorbed leaseId meters =
      (handedRise (meters.last leaseId) (call.taken? leaseId)).getD 0 := by
  cases call with
  | note id utilization =>
    by_cases hid : id = leaseId
    · cases utilization <;>
        simp [rise?, absorbed, taken?, hid, Reading.finite?, handed_rise_not_finite]
    · simp [rise?, absorbed, taken?, hid, handed_rise_not_finite]
  | report id utilization =>
    by_cases hid : id = leaseId <;> simp [rise?, absorbed, taken?, hid, handed_rise_not_finite]

theorem absorbed_nonneg (call : MeterCall) : 0 ≤ call.absorbed leaseId meters := by
  cases call with
  | note id utilization =>
    simp only [absorbed]
    split
    · exact handed_rise_nonneg _ _
    · exact le_rfl
  | report id utilization => exact le_rfl

/-- A call leaves the meter of a lease at the higher of its reading and the one it brings, with the
rise it reports queued. -/
theorem step_meter {meter : HandedMeter} (call : MeterCall)
    (h : meters.lookup leaseId = some meter) :
    (call.step meters).lookup leaseId = some ⟨meter.sink ++ ((call.rise? leaseId meters).map
        fun rise => { leaseId, spent := max rise minDebit }).toList,
      higher meter.last (call.taken? leaseId)⟩ := by
  cases call with
  | note id utilization =>
    by_cases hid : id = leaseId
    · subst hid
      cases hfinite : utilization.finite? <;>
        simp [step, HandedMeters.noteBaseline, taken?, rise?, higher, hfinite, h]
    · have hother : (step meters (note id utilization)).lookup leaseId = meters.lookup leaseId := by
        simp only [step, HandedMeters.noteBaseline]
        split
        · rfl
        split
        · rfl
        · exact AList.lookup_insert_ne (Ne.symm hid)
      rw [hother, h]
      simp [taken?, rise?, higher, hid]
  | report id utilization =>
    by_cases hid : id = leaseId
    · subst hid
      cases utilization with
      | none =>
        simp [step, HandedMeters.reportSpend, taken?, rise?, higher, h, handed_rise_not_finite]
      | some u =>
        simp [step, HandedMeters.reportSpend, HandedMeters.last, usageHint, taken?, rise?, higher,
          h]
    · have hother :
          (step meters (report id utilization)).lookup leaseId = meters.lookup leaseId := by
        simp only [step, HandedMeters.reportSpend]
        split
        · rfl
        split
        · rfl
        · exact AList.lookup_insert_ne (Ne.symm hid)
      rw [hother, h]
      simp [taken?, rise?, higher, hid]

end MeterCall

/-! ## Runs of calls -/

theorem max_concat (readings : List ℚ) (u : ℚ) :
    (readings ++ [u]).max? = some (readings.max?.elim u fun top => max top u) := by
  cases readings with
  | nil => rfl
  | cons first rest =>
    rw [List.cons_append, List.max?_cons', List.max?_cons', List.foldl_append]
    rfl

namespace HandedMeters

variable {leaseId : LeaseId} {meters : HandedMeters} {meter : HandedMeter}

def moved (leaseId : LeaseId) (meters : HandedMeters) (calls : List MeterCall) : ℚ :=
  (rises leaseId meters calls).sum + absorbed leaseId meters calls

theorem rises_concat (calls : List MeterCall) (call : MeterCall) :
    rises leaseId meters (calls ++ [call]) = rises leaseId meters calls ++
      (call.rise? leaseId (Lib.exec MeterCall.step meters calls)).toList := by
  induction calls generalizing meters with
  | nil => simp [rises]
  | cons head calls ih => simp [rises, ih]

theorem absorbed_concat (calls : List MeterCall) (call : MeterCall) :
    absorbed leaseId meters (calls ++ [call]) = absorbed leaseId meters calls +
      call.absorbed leaseId (Lib.exec MeterCall.step meters calls) := by
  induction calls generalizing meters with
  | nil => simp [absorbed]
  | cons head calls ih => simp [absorbed, ih, add_assoc]

theorem absorbed_nonneg (calls : List MeterCall) : 0 ≤ absorbed leaseId meters calls := by
  induction calls generalizing meters with
  | nil => exact le_rfl
  | cons call calls ih => exact add_nonneg call.absorbed_nonneg ih

theorem moved_concat (calls : List MeterCall) (call : MeterCall)
    (h : (Lib.exec MeterCall.step meters calls).lookup leaseId = some meter) :
    moved leaseId meters (calls ++ [call]) = moved leaseId meters calls +
      (handedRise meter.last (call.taken? leaseId)).getD 0 := by
  have hlast : (Lib.exec MeterCall.step meters calls).last leaseId = meter.last := by
    simp [last, h]
  have hlist : ∀ rise : Option ℚ, rise.toList.sum = rise.getD 0 := fun rise => by
    cases rise <;> simp
  rw [← hlast, ← MeterCall.rise_add_absorbed]
  simp only [moved, rises_concat, absorbed_concat, List.sum_append, hlist]
  ring

theorem readings_concat (calls : List MeterCall) (call : MeterCall) :
    readings leaseId (calls ++ [call]) = readings leaseId calls ++
      ((call.taken? leaseId).bind Reading.finite?).toList := by
  rw [readings, List.filterMap_append, ← MeterCall.reading_eq]
  cases hread : call.reading? leaseId <;> simp [hread, readings]

/-- No call of a run brings an infinite reading to a lease. -/
def Bounded (leaseId : LeaseId) (calls : List MeterCall) : Prop :=
  ∀ call ∈ calls, call.taken? leaseId ≠ some .infinite

/-- Where a run leaves the meter of a lease that had no reading: at the highest reading of the run,
having moved there from the first. An infinite reading stops it for good. -/
structure Standing (leaseId : LeaseId) (meters : HandedMeters) (calls : List MeterCall)
    (meter : HandedMeter) : Prop where
  lookup : (Lib.exec MeterCall.step meters calls).lookup leaseId = some meter
  level : meter.last = some .infinite ∨
    meter.last.bind Reading.finite? = (readings leaseId calls).max?
  bounded : Bounded leaseId calls → meter.last ≠ some .infinite
  blank : readings leaseId calls = [] → moved leaseId meters calls = 0
  within : ∀ first top, (readings leaseId calls).head? = some first →
    (readings leaseId calls).max? = some top → moved leaseId meters calls ≤ top - first ∧
      (meter.last ≠ some .infinite → moved leaseId meters calls = top - first)

theorem Bounded.left {calls : List MeterCall} {call : MeterCall}
    (h : Bounded leaseId (calls ++ [call])) : Bounded leaseId calls :=
  fun call hmem => h call (List.mem_append_left _ hmem)

/-- A call that leaves the meter at an infinite reading moves nothing. -/
theorem Standing.frozen {calls : List MeterCall} {call : MeterCall} {meter' : HandedMeter}
    (h : Standing leaseId meters calls meter)
    (hstep : (Lib.exec MeterCall.step meters (calls ++ [call])).lookup leaseId = some meter')
    (hlast : meter'.last = some .infinite) (hbound : ¬Bounded leaseId (calls ++ [call]))
    (hrise : handedRise meter.last (call.taken? leaseId) = none) :
    Standing leaseId meters (calls ++ [call]) meter' := by
  have hmoved : moved leaseId meters (calls ++ [call]) = moved leaseId meters calls := by
    rw [moved_concat calls call h.lookup, hrise]
    exact add_zero _
  refine ⟨hstep, .inl hlast, fun hb => absurd hb hbound, fun hnil => ?_,
    fun first top hfirst htop => ⟨?_, fun hne => absurd hlast hne⟩⟩
  · rw [readings_concat, List.append_eq_nil_iff] at hnil
    rw [hmoved, h.blank hnil.1]
  · rw [hmoved]
    rw [readings_concat] at hfirst htop
    have hmax := (List.max?_eq_some_iff.mp htop).2
    cases hread : readings leaseId calls with
    | nil =>
      rw [h.blank hread]
      rw [hread, List.nil_append] at hfirst hmax
      exact sub_nonneg.mpr (hmax first (List.mem_of_head? hfirst))
    | cons start rest =>
      rw [hread, List.cons_append, List.head?_cons, Option.some.injEq] at hfirst
      obtain ⟨highest, hhighest⟩ : ∃ highest, (readings leaseId calls).max? = some highest :=
        ⟨_, hread ▸ List.max?_cons'⟩
      have hle := (h.within start highest (by rw [hread]; rfl) hhighest).1
      have hmem := List.mem_append_left ((call.taken? leaseId).bind Reading.finite?).toList
        (List.max?_mem hhighest)
      have htop' := hmax highest hmem
      subst hfirst
      linarith

/-- A call that brings nothing finite or infinite leaves a meter as it was. -/
theorem Standing.unread {calls : List MeterCall} {call : MeterCall} {meter' : HandedMeter}
    (h : Standing leaseId meters calls meter)
    (hstep : (Lib.exec MeterCall.step meters (calls ++ [call])).lookup leaseId = some meter')
    (hlast : meter'.last.bind Reading.finite? = meter.last.bind Reading.finite?)
    (hfinite : meter.last ≠ some .infinite) (hfinite' : meter'.last ≠ some .infinite)
    (hread : (call.taken? leaseId).bind Reading.finite? = none) :
    Standing leaseId meters (calls ++ [call]) meter' := by
  have hmoved : moved leaseId meters (calls ++ [call]) = moved leaseId meters calls := by
    rw [moved_concat calls call h.lookup, handed_rise_not_finite (.inr hread)]
    exact add_zero _
  have hreads : readings leaseId (calls ++ [call]) = readings leaseId calls := by
    rw [readings_concat, hread, Option.toList_none, List.append_nil]
  refine ⟨hstep, .inr ?_, fun _ => hfinite', ?_, ?_⟩
  · rw [hlast, hreads]
    exact h.level.resolve_left hfinite
  · rw [hmoved, hreads]
    exact h.blank
  · intro first top hfirst htop
    rw [hreads] at hfirst htop
    rw [hmoved]
    have hwithin := h.within first top hfirst htop
    exact ⟨hwithin.1, fun _ => hwithin.2 hfinite⟩

/-- A call that brings a finite reading moves a meter to it, if it is higher. -/
theorem Standing.read {calls : List MeterCall} {call : MeterCall} {sink : List UsageHint} {u : ℚ}
    (h : Standing leaseId meters calls meter) (hfinite : meter.last ≠ some .infinite)
    (htaken : call.taken? leaseId = some (.finite u))
    (hstep : (Lib.exec MeterCall.step meters (calls ++ [call])).lookup leaseId =
      some ⟨sink, MeterCall.higher meter.last (some (.finite u))⟩) :
    Standing leaseId meters (calls ++ [call])
      ⟨sink, MeterCall.higher meter.last (some (.finite u))⟩ := by
  have hlevel := h.level.resolve_left hfinite
  have hreads : readings leaseId (calls ++ [call]) = readings leaseId calls ++ [u] := by
    rw [readings_concat, htaken]
    rfl
  have hhigher : MeterCall.higher meter.last (some (.finite u)) =
      some (.finite ((readings leaseId calls).max?.elim u fun top => max top u)) := by
    rw [← hlevel]
    rcases hlast : meter.last with _ | (_ | _ | _ | _)
    · rfl
    · rfl
    · exact absurd hlast hfinite
    · rfl
    · rfl
  have hmoved := moved_concat calls call h.lookup
  rw [htaken] at hmoved
  refine ⟨hstep, .inr ?_, fun _ => by simp [hhigher], fun hnil => ?_,
    fun first top hfirst htop => ?_⟩
  · rw [hhigher, hreads, max_concat]
    rfl
  · rw [hreads] at hnil
    simp at hnil
  · rw [hreads] at hfirst htop
    rw [max_concat, Option.some.injEq] at htop
    suffices heq : moved leaseId meters (calls ++ [call]) = top - first from ⟨heq.le, fun _ => heq⟩
    cases hread : readings leaseId calls with
    | nil =>
      rw [hread] at hlevel hfirst htop
      rw [hmoved, h.blank hread, handed_rise_not_finite (.inl hlevel)]
      cases hfirst
      obtain rfl : u = top := by simpa using htop
      simp
    | cons start rest =>
      obtain ⟨highest, hhighest⟩ : ∃ highest, (readings leaseId calls).max? = some highest :=
        ⟨_, hread ▸ List.max?_cons'⟩
      rw [hread, List.cons_append, List.head?_cons, Option.some.injEq] at hfirst
      have heq := (h.within start highest (by rw [hread]; rfl) hhighest).2 hfinite
      have hlast : meter.last = some (.finite highest) := by
        rw [hhighest] at hlevel
        rcases hlast : meter.last with _ | (_ | _ | _ | _) <;> rw [hlast] at hlevel <;> cases hlevel
        rfl
      rw [hhighest, Option.elim_some] at htop
      rw [hmoved, hlast, handed_rise_finite, heq, ← htop, ← hfirst]
      ring

/-- A reading below all others, or none at all, leaves a meter where it stands. -/
theorem higher_unread {last : Option Reading} {u : Reading} (hu : u = .negInfinite ∨ u = .nan)
    (h : last ≠ some .infinite) :
    (MeterCall.higher last (some u)).bind Reading.finite? = last.bind Reading.finite? ∧
      MeterCall.higher last (some u) ≠ some .infinite := by
  rcases hu with rfl | rfl <;>
  · refine ⟨by rcases last with _ | (_ | _ | _ | _) <;> rfl, fun heq => ?_⟩
    rcases last with _ | (_ | _ | _ | _) <;> first | exact h rfl | cases heq

/-- A run of calls on a meter without a reading. -/
theorem standing_run {sink : List UsageHint} (h : meters.lookup leaseId = some ⟨sink, none⟩)
    (calls : List MeterCall) : ∃ meter, Standing leaseId meters calls meter := by
  induction calls using List.reverseRecOn with
  | nil =>
    exact ⟨_, h, .inr rfl, fun _ => by simp, fun _ => by simp [moved, rises, absorbed],
      fun first top hfirst => by cases hfirst⟩
  | append_singleton calls call ih =>
    obtain ⟨meter, hstanding⟩ := ih
    have hstep := MeterCall.step_meter call hstanding.lookup
    rw [← Lib.exec_snoc MeterCall.step meters calls call] at hstep
    generalize meter.sink ++ _ = sink' at hstep
    refine ⟨⟨sink', MeterCall.higher meter.last (call.taken? leaseId)⟩, ?_⟩
    by_cases hinf : meter.last = some .infinite
    · refine hstanding.frozen hstep ?_ (fun hb => hstanding.bounded hb.left hinf)
        (handed_rise_not_finite (.inl (by rw [hinf]; rfl)))
      change MeterCall.higher meter.last (call.taken? leaseId) = some .infinite
      rw [hinf]
      rcases call.taken? leaseId with _ | (_ | _ | _ | _) <;> rfl
    cases htaken : call.taken? leaseId with
    | none =>
      rw [htaken] at hstep
      exact hstanding.unread hstep rfl hinf hinf (by rw [htaken]; rfl)
    | some u =>
      rw [htaken] at hstep
      cases u with
      | finite u => exact hstanding.read hinf htaken hstep
      | infinite =>
        refine hstanding.frozen hstep ?_
          (fun hb => hb call (List.mem_append_right _ List.mem_cons_self) htaken)
          (handed_rise_not_finite (.inr (by rw [htaken]; rfl)))
        rcases meter.last with _ | (_ | _ | _ | _) <;> rfl
      | negInfinite =>
        obtain ⟨hfinite, hne⟩ := higher_unread (.inl rfl) hinf
        exact hstanding.unread hstep hfinite hinf hne (by rw [htaken]; rfl)
      | nan =>
        obtain ⟨hfinite, hne⟩ := higher_unread (.inr rfl) hinf
        exact hstanding.unread hstep hfinite hinf hne (by rw [htaken]; rfl)

/-- No baseline of a run, once the lease has a reading, is above every reading before it. -/
def NoLateBaseline (leaseId : LeaseId) (calls : List MeterCall) : Prop :=
  ∀ pre u post, calls = pre ++ .note leaseId (.finite u) :: post →
    ∀ top, (readings leaseId pre).max? = some top → u ≤ top

/-- Only a late baseline moves a meter without reporting. -/
theorem absorbed_eq_zero {sink : List UsageHint} (h : meters.lookup leaseId = some ⟨sink, none⟩)
    {calls : List MeterCall} (hlate : NoLateBaseline leaseId calls) :
    absorbed leaseId meters calls = 0 := by
  induction calls using List.reverseRecOn with
  | nil => rfl
  | append_singleton calls call ih =>
    have hpre : NoLateBaseline leaseId calls := fun pre u post hcalls =>
      hlate pre u (post ++ [call]) (by rw [hcalls, List.append_assoc, List.cons_append])
    rw [absorbed_concat, ih hpre, zero_add]
    cases call with
    | report id utilization => rfl
    | note id utilization =>
      simp only [MeterCall.absorbed]
      split
      case isFalse => rfl
      rename_i hid
      subst hid
      cases utilization with
      | finite u =>
        obtain ⟨meter, hstanding⟩ := standing_run h calls
        have hlast : (Lib.exec MeterCall.step meters calls).last id = meter.last := by
          simp [last, hstanding.lookup]
        rw [hlast]
        rcases hstanding.level with hinf | hlevel
        · rw [hinf]
          rfl
        rcases hread : meter.last with _ | (x | _ | _ | _)
        case some.finite =>
          rw [hread] at hlevel
          rw [handed_rise_finite, max_eq_left (hlate calls u [] rfl x hlevel.symm), sub_self]
        all_goals rfl
      | infinite => rw [handed_rise_not_finite (.inr rfl)]; rfl
      | negInfinite => rw [handed_rise_not_finite (.inr rfl)]; rfl
      | nan => rw [handed_rise_not_finite (.inr rfl)]; rfl

/-- The hints queued for a lease are the rises its run reports, each at least the floor. -/
theorem hints_queued (h : meters.lookup leaseId = some meter) (calls : List MeterCall) :
    ((Lib.exec MeterCall.step meters calls).lookup leaseId).map HandedMeter.sink =
      some (meter.sink ++ (rises leaseId meters calls).map fun rise =>
        { leaseId, spent := max rise minDebit }) := by
  induction calls generalizing meters meter with
  | nil => simp [h, rises]
  | cons call calls ih =>
    rw [Lib.exec_cons, ih (MeterCall.step_meter call h), rises, List.map_append,
      List.append_assoc]
    cases call.rise? leaseId meters <;> rfl

end HandedMeters

/-- A lease's meter that starts without a reading bills its run at most once: the rises it reports
and what later baselines move it by make up the way from the first reading to the highest, an
infinite reading apart. Without a late baseline the rises are all of it, in any order, and the
highest reading is the last when none is below the one before. -/
theorem handed_meter_bills_once (meters : HandedMeters) (leaseId : LeaseId) (sink : List UsageHint)
    (calls : List MeterCall) (first top : ℚ) (h : meters.lookup leaseId = some ⟨sink, none⟩)
    (hfirst : (HandedMeters.readings leaseId calls).head? = some first)
    (htop : (HandedMeters.readings leaseId calls).max? = some top) :
    (meters.rises leaseId calls).sum ≤ top - first ∧
    (HandedMeters.Bounded leaseId calls →
      (meters.rises leaseId calls).sum + meters.absorbed leaseId calls = top - first ∧
      (HandedMeters.NoLateBaseline leaseId calls →
        (meters.rises leaseId calls).sum = top - first)) ∧
    ((HandedMeters.readings leaseId calls).Pairwise (· ≤ ·) →
      (HandedMeters.readings leaseId calls).getLast? = some top) := by
  obtain ⟨meter, hstanding⟩ := HandedMeters.standing_run h calls
  obtain ⟨hle, heq⟩ := hstanding.within first top hfirst htop
  have habsorbed : 0 ≤ meters.absorbed leaseId calls := HandedMeters.absorbed_nonneg calls
  unfold HandedMeters.moved at hle heq
  refine ⟨by linarith, fun hb => ⟨heq (hstanding.bounded hb), fun hlate => ?_⟩, fun hsorted => ?_⟩
  · have hmoved := heq (hstanding.bounded hb)
    rw [HandedMeters.absorbed_eq_zero h hlate, add_zero] at hmoved
    exact hmoved
  · obtain ⟨hmem, hmax⟩ := List.max?_eq_some_iff.mp htop
    obtain ⟨init, last, hreads⟩ := (List.eq_nil_or_concat' _).resolve_left (List.ne_nil_of_mem hmem)
    rw [hreads] at hsorted hmem hmax ⊢
    rw [List.getLast?_concat, Option.some.injEq]
    refine le_antisymm (hmax last (by simp)) ?_
    rcases List.mem_append.mp hmem with hin | hin
    · exact (List.pairwise_append.mp hsorted).2.2 top hin last List.mem_cons_self
    · exact (List.mem_singleton.mp hin).le

/-- A lease whose session has just been opened. -/
def freshMeters : HandedMeters :=
  HandedMeters.register 7 ∅

/-- Three answers to two requests at a time, the later of the first two read first. -/
theorem concurrent_answers_bill_once :
    (freshMeters.rises 7 [.note 7 (.finite (3 / 10)), .report 7 (some (.finite (1 / 2))),
      .report 7 (some (.finite (4 / 10))), .report 7 (some (.finite (53 / 100)))]).sum =
        53 / 100 - 3 / 10 := by
  have hbounded : HandedMeters.Bounded 7 [.note 7 (.finite (3 / 10)),
      .report 7 (some (.finite (1 / 2))), .report 7 (some (.finite (4 / 10))),
      .report 7 (some (.finite (53 / 100)))] := by
    unfold HandedMeters.Bounded
    decide +kernel
  refine ((handed_meter_bills_once freshMeters 7 [] _ (3 / 10) (53 / 100) (by decide +kernel)
    (by decide +kernel) (by decide +kernel)).2.1 hbounded).2 fun pre u post hcalls top htop => ?_
  -- The only baseline is the first call, before any reading.
  cases pre with
  | nil => cases htop
  | cons call pre =>
    have hlater : MeterCall.note 7 (.finite u) ∈ pre ++ .note 7 (.finite u) :: post := by simp
    simp only [List.cons_append, List.cons.injEq] at hcalls
    rw [← hcalls.2] at hlater
    simp at hlater

/-- A renewed bearer's baseline takes the rise before it as read, so the readings of a run that only
rises are not billed in full; and what two answers report before the first baseline is not bounded
by it. -/
theorem renewal_baseline_unbilled :
    (freshMeters.rises 7 [.note 7 (.finite (3 / 10)), .report 7 (some (.finite (4 / 10))),
      .note 7 (.finite (5 / 10)), .report 7 (some (.finite (6 / 10)))]).sum ≠ 6 / 10 - 3 / 10 ∧
    ¬(freshMeters.rises 7 [.report 7 (some (.finite (2 / 10))),
      .report 7 (some (.finite (5 / 10))), .note 7 (.finite (6 / 10))]).sum ≤ 6 / 10 - 6 / 10 := by
  decide +kernel

end TeamClaude
