import TeamClaude.Machine
import TeamClaude.Lib.Exec
import TeamClaude.Lib.Gcra
import Mathlib.Algebra.Order.Archimedean.Basic

/-!
# Knock tokens

A bucket an address, held as a token count and the instant of its last refill. A call first forgets
every bucket that is full again, so an idle address costs nothing; the part of an interval such a
bucket has run into is forgotten with it.
-/

namespace TeamClaude

open Lib

def knockIntervalMs : Int := 10000

def knockBurst : Nat := 3

structure KnockBucket where
  tokens : Nat
  lastMs : Int
  deriving DecidableEq

def refillTokens (lastMs nowMs : Int) : Nat :=
  let elapsed := max (saturatingSub nowMs lastMs) 0
  if elapsed / knockIntervalMs ≤ u32Max then (elapsed / knockIntervalMs).toNat else u32Max

namespace KnockBucket

/-- The bucket's tokens and what it would be refilled by, summed as a `u32`. -/
def refilled (bucket : KnockBucket) (nowMs : Int) : Nat :=
  min (bucket.tokens + refillTokens bucket.lastMs nowMs) u32Max

/-- A bucket as `or_insert` makes it. -/
def fresh (nowMs : Int) : KnockBucket :=
  { tokens := knockBurst, lastMs := nowMs }

/-- The refill of `take_knock_token`. -/
def refill (bucket : KnockBucket) (nowMs : Int) : KnockBucket :=
  let refill := refillTokens bucket.lastMs nowMs
  if 0 < refill then
    { tokens := min (bucket.refilled nowMs) knockBurst
      lastMs := saturatingAdd bucket.lastMs (saturatingMul refill knockIntervalMs) }
  else
    bucket

/-- The refilled bucket, or a new one where that is full or there is none. -/
def found (nowMs : Int) : Option KnockBucket → KnockBucket
  | none => fresh nowMs
  | some bucket => if bucket.refilled nowMs < knockBurst then bucket.refill nowMs else fresh nowMs

/-- The end of `take_knock_token`: a token is taken, if the bucket has one. -/
def spend (bucket : KnockBucket) : Bool × KnockBucket :=
  if bucket.tokens = 0 then (false, bucket)
  else (true, { bucket with tokens := bucket.tokens - 1 })

end KnockBucket

/-- The knock buckets of `Admission`. -/
structure KnockAdmission where
  knocks : String → Option KnockBucket

namespace KnockAdmission

def new : KnockAdmission :=
  { knocks := fun _ => none }

/-- The `retain` of `take_knock_token`. -/
def retained (self : KnockAdmission) (nowMs : Int) : KnockAdmission :=
  { knocks := fun addr =>
      (self.knocks addr).filter fun bucket => decide (bucket.refilled nowMs < knockBurst) }

/-- `take_knock_token` once it has forgotten what it forgets. -/
def takeFrom (self : KnockAdmission) (addr : String) (nowMs : Int) : Bool × KnockAdmission :=
  let bucket := (self.knocks addr).getD (.fresh nowMs)
  let spent := (bucket.refill nowMs).spend
  (spent.1, { knocks := Function.update self.knocks addr (some spent.2) })

def takeKnockToken (self : KnockAdmission) (addr : String) (nowMs : Int) : Bool × KnockAdmission :=
  (self.retained nowMs).takeFrom addr nowMs

def knockTokens (self : KnockAdmission) (addr : String) (nowMs : Int) : Nat :=
  match self.knocks addr with
  | none => knockBurst
  | some bucket => min (bucket.refilled nowMs) knockBurst

/-- A call of `take_knock_token`. -/
def take (self : KnockAdmission) (call : String × Int) : Bool × KnockAdmission :=
  self.takeKnockToken call.1 call.2

/-- The call with nothing ever forgotten. -/
def takeKeeping (self : KnockAdmission) (call : String × Int) : Bool × KnockAdmission :=
  self.takeFrom call.1 call.2

/-- The call with nothing ever forgotten, where a bucket that is full again is full from now on. -/
def takeFilling (self : KnockAdmission) (call : String × Int) : Bool × KnockAdmission :=
  let spent := (KnockBucket.found call.2 (self.knocks call.1)).spend
  (spent.1, { knocks := Function.update self.knocks call.1 (some spent.2) })

end KnockAdmission

/-! ## One bucket -/

/-- An instant the clock can give. -/
def ClockMs (nowMs : Int) : Prop :=
  i64Min ≤ nowMs ∧ nowMs ≤ i64Max

instance (nowMs : Int) : Decidable (ClockMs nowMs) := by
  unfold ClockMs
  infer_instance

theorem refill_tokens_eq {lastMs nowMs : Int} (h : lastMs ≤ nowMs) :
    (refillTokens lastMs nowMs : Int) = min ((nowMs - lastMs) / knockIntervalMs) u32Max := by
  unfold refillTokens saturatingSub knockIntervalMs u32Max i64Min i64Max
  simp only
  split <;> omega

namespace KnockBucket

variable {bucket : KnockBucket} {nowMs : Int}

/-- The instant at which the bucket is full, were nothing taken from it. -/
def fullMs (bucket : KnockBucket) : Int :=
  bucket.lastMs + (knockBurst - bucket.tokens) * knockIntervalMs

/-- The bucket is one a call at or before the instant leaves. -/
structure Kept (bucket : KnockBucket) (nowMs : Int) : Prop where
  clock : ClockMs bucket.lastMs
  past : bucket.lastMs ≤ nowMs
  within : bucket.tokens ≤ knockBurst

theorem Kept.mono (h : bucket.Kept nowMs) {laterMs : Int} (hlater : nowMs ≤ laterMs) :
    bucket.Kept laterMs :=
  { h with past := h.past.trans hlater }

theorem refilled_lt_iff (h : bucket.Kept nowMs) :
    bucket.refilled nowMs < knockBurst ↔ nowMs < bucket.fullMs := by
  have hrefill := refill_tokens_eq h.past
  have hpast := h.past
  have hwithin := h.within
  unfold refilled fullMs
  unfold knockIntervalMs u32Max at hrefill
  unfold knockBurst knockIntervalMs u32Max at *
  omega

/-- The refill of a bucket that is not full again moves its last refill up to the call, to within
an interval, and leaves the instant at which it is full. -/
theorem refill_spec (h : bucket.Kept nowMs) (hnow : ClockMs nowMs) (hless : nowMs < bucket.fullMs) :
    (bucket.refill nowMs).Kept nowMs ∧ nowMs < (bucket.refill nowMs).lastMs + knockIntervalMs ∧
      (bucket.refill nowMs).fullMs = bucket.fullMs := by
  have hrefill := refill_tokens_eq h.past
  obtain ⟨hclock, hpast, hwithin⟩ := h
  unfold ClockMs i64Min i64Max at hclock hnow
  unfold fullMs knockBurst knockIntervalMs at hless
  unfold knockIntervalMs u32Max at hrefill
  unfold knockBurst at hwithin
  have hfew : (refillTokens bucket.lastMs nowMs : Int) = (nowMs - bucket.lastMs) / 10000 := by
    omega
  have hmoved : saturatingAdd bucket.lastMs
      (saturatingMul (refillTokens bucket.lastMs nowMs) knockIntervalMs) =
        bucket.lastMs + refillTokens bucket.lastMs nowMs * 10000 := by
    unfold saturatingAdd saturatingMul knockIntervalMs i64Min i64Max
    omega
  unfold refill
  simp only
  split
  · rw [hmoved]
    refine ⟨⟨?_, ?_, ?_⟩, ?_, ?_⟩
    · unfold ClockMs i64Min i64Max
      simp only
      omega
    · simp only
      omega
    · exact min_le_right _ _
    · unfold knockIntervalMs
      simp only
      omega
    · unfold fullMs refilled knockBurst knockIntervalMs u32Max
      simp only
      omega
  · refine ⟨⟨hclock, hpast, hwithin⟩, ?_, rfl⟩
    unfold knockIntervalMs
    omega

theorem fresh_kept (hnow : ClockMs nowMs) : (fresh nowMs).Kept nowMs :=
  ⟨hnow, le_rfl, le_rfl⟩

theorem fresh_full : (fresh nowMs).fullMs = nowMs := by
  simp [fullMs, fresh]

/-- How much earlier than it is due a policer that grants as the buckets do lets a knock through. -/
def toleranceMs : Int :=
  (knockBurst - 1) * knockIntervalMs

/-- A refilled bucket grants as a policer, and moves the instant at which it is full the same. -/
theorem spend_polices (h : bucket.Kept nowMs) (hnear : nowMs < bucket.lastMs + knockIntervalMs)
    (hless : nowMs ≤ bucket.fullMs) {tat : Int} (htat : max tat nowMs = bucket.fullMs) :
    bucket.spend.1 = decide (Gcra.Conforms toleranceMs tat nowMs) ∧ bucket.spend.2.Kept nowMs ∧
      max (Gcra.policedTat knockIntervalMs toleranceMs tat nowMs) nowMs =
        bucket.spend.2.fullMs := by
  have hwithin := h.within
  have hpast := h.past
  have hready : Gcra.Conforms toleranceMs tat nowMs ↔ bucket.tokens ≠ 0 := by
    rw [Gcra.Conforms, htat]
    unfold fullMs knockIntervalMs at *
    unfold toleranceMs knockBurst knockIntervalMs at *
    omega
  unfold spend
  by_cases hempty : bucket.tokens = 0
  · have hearly : ¬ Gcra.Conforms toleranceMs tat nowMs := by simpa [hempty] using hready
    rw [if_pos hempty, Gcra.policedTat, if_neg hearly, decide_eq_false hearly]
    exact ⟨rfl, h, htat⟩
  · have hconforms := hready.mpr hempty
    rw [if_neg hempty, Gcra.policedTat, if_pos hconforms, decide_eq_true hconforms, htat]
    refine ⟨rfl, ⟨h.clock, hpast, ?_⟩, ?_⟩
    · exact (Nat.sub_le _ 1).trans hwithin
    · unfold fullMs knockBurst knockIntervalMs at *
      simp only
      omega

@[simp] theorem refill_fresh (nowMs : Int) : (fresh nowMs).refill nowMs = fresh nowMs := by
  have hnone : refillTokens nowMs nowMs = 0 := by
    have hrefill := refill_tokens_eq (le_refl nowMs)
    rw [sub_self, Int.zero_ediv] at hrefill
    simpa using hrefill
  unfold refill
  simp [fresh, hnone]

end KnockBucket

namespace KnockBucket

/-- A bucket of a policer, as a call at or before the instant leaves it: full when the policer is
idle. A forgotten one is full. -/
def Tracks (nowMs : Int) : Option KnockBucket → Int → Prop
  | none, tat => tat ≤ nowMs
  | some bucket, tat => bucket.Kept nowMs ∧ max tat nowMs = max bucket.fullMs nowMs

variable {bucket : KnockBucket} {held : Option KnockBucket} {nowMs tat : Int}

/-- What tracks a policer goes on doing so while nothing calls. -/
theorem Tracks.mono (h : Tracks nowMs held tat) {laterMs : Int} (hlater : nowMs ≤ laterMs) :
    Tracks laterMs held tat := by
  cases held with
  | none => exact h.trans hlater
  | some bucket =>
    obtain ⟨hkept, htat⟩ := h
    refine ⟨hkept.mono hlater, ?_⟩
    rw [← max_eq_right hlater, ← max_assoc, htat, max_assoc]

/-- A bucket that is full again stands for an idle policer. -/
theorem Tracks.idle_iff (h : Tracks nowMs (some bucket) tat) :
    tat ≤ nowMs ↔ ¬ bucket.refilled nowMs < knockBurst := by
  rw [refilled_lt_iff h.1, not_lt, ← max_eq_right_iff, h.2, max_eq_right_iff]

theorem found_spec (h : Tracks nowMs held tat) (hnow : ClockMs nowMs) :
    (found nowMs held).Kept nowMs ∧ nowMs < (found nowMs held).lastMs + knockIntervalMs ∧
      nowMs ≤ (found nowMs held).fullMs ∧ max tat nowMs = (found nowMs held).fullMs := by
  have hfresh : tat ≤ nowMs → (fresh nowMs).Kept nowMs ∧
      nowMs < (fresh nowMs).lastMs + knockIntervalMs ∧ nowMs ≤ (fresh nowMs).fullMs ∧
        max tat nowMs = (fresh nowMs).fullMs := by
    intro hidle
    rw [fresh_full]
    exact ⟨fresh_kept hnow, lt_add_of_pos_right nowMs (by decide), le_rfl, max_eq_right hidle⟩
  cases held with
  | none => exact hfresh h
  | some bucket =>
    unfold found
    simp only
    split
    · rename_i hless
      have hlate := (refilled_lt_iff h.1).mp hless
      obtain ⟨hkept, hnear, hfull⟩ := refill_spec h.1 hnow hlate
      rw [hfull]
      exact ⟨hkept, hnear, hlate.le, h.2.trans (max_eq_left hlate.le)⟩
    · rename_i hfull
      exact hfresh (h.idle_iff.mpr hfull)

/-- A call answers as the policer does, and leaves a bucket of it. -/
theorem found_polices (h : Tracks nowMs held tat) (hnow : ClockMs nowMs) :
    (found nowMs held).spend.1 = decide (Gcra.Conforms toleranceMs tat nowMs) ∧
      Tracks nowMs (some (found nowMs held).spend.2)
        (Gcra.policedTat knockIntervalMs toleranceMs tat nowMs) := by
  obtain ⟨hkept, hnear, hless, htat⟩ := found_spec h hnow
  obtain ⟨hanswer, hafter, hfull⟩ := spend_polices hkept hnear hless htat
  refine ⟨hanswer, hafter, ?_⟩
  rw [← hfull, max_assoc, max_self]

end KnockBucket

/-! ## All the buckets -/

namespace KnockAdmission

open KnockBucket

variable {addr : String} {nowMs : Int} {calls : List (String × Int)}

theorem retained_knocks (self : KnockAdmission) (addr : String) (nowMs : Int) :
    (self.retained nowMs).knocks addr =
      (self.knocks addr).filter fun bucket => decide (bucket.refilled nowMs < knockBurst) := rfl

/-- A call of an address spends from the bucket it finds. -/
theorem take_own (self : KnockAdmission) (addr : String) (nowMs : Int) :
    (self.take (addr, nowMs)).1 = (found nowMs (self.knocks addr)).spend.1 ∧
      (self.take (addr, nowMs)).2.knocks addr =
        some (found nowMs (self.knocks addr)).spend.2 := by
  have hfound : (((self.retained nowMs).knocks addr).getD (fresh nowMs)).refill nowMs =
      found nowMs (self.knocks addr) := by
    rw [retained_knocks]
    cases self.knocks addr with
    | none => exact refill_fresh nowMs
    | some bucket =>
      unfold found
      by_cases hless : bucket.refilled nowMs < knockBurst
      · simp [Option.filter, hless]
      · simp [Option.filter, hless]
  simp only [take, takeKnockToken, takeFrom, Function.update_self]
  rw [hfound]
  exact ⟨rfl, rfl⟩

/-- A call of an address that forgets nothing, but starts a full bucket anew, does so too. -/
theorem filling_own (self : KnockAdmission) (addr : String) (nowMs : Int) :
    (self.takeFilling (addr, nowMs)).1 = (found nowMs (self.knocks addr)).spend.1 ∧
      (self.takeFilling (addr, nowMs)).2.knocks addr =
        some (found nowMs (self.knocks addr)).spend.2 := by
  exact ⟨rfl, Function.update_self ..⟩

/-- The bucket of an address, told by a policer. -/
def TracksOf (addr : String) (nowMs : Int) (self : KnockAdmission) (tat : Int) : Prop :=
  Tracks nowMs (self.knocks addr) tat

theorem take_polices (addr : String) : Gcra.Polices take knockIntervalMs toleranceMs addr
    (TracksOf addr) ClockMs where
  own {past now s tat} htracks hpast hnow := by
    have hpolices := found_polices (htracks.mono hpast) hnow
    obtain ⟨hanswer, hafter⟩ := take_own s addr now
    unfold TracksOf
    rw [hanswer, hafter]
    exact hpolices
  other {past now s tat other} htracks hpast _ hother := by
    replace htracks := htracks.mono hpast
    have hafter : (s.take (other, now)).2.knocks addr = (s.retained now).knocks addr :=
      Function.update_of_ne (Ne.symm hother) _ _
    unfold TracksOf
    rw [hafter, retained_knocks]
    cases hbucket : s.knocks addr with
    | none =>
      rw [hbucket] at htracks
      exact htracks
    | some bucket =>
      rw [hbucket] at htracks
      by_cases hless : bucket.refilled now < knockBurst
      · simpa [Option.filter, hless] using htracks
      · have hforgotten : Tracks now none tat := htracks.idle_iff.mpr hless
        simpa [Option.filter, hless] using hforgotten

theorem filling_polices (addr : String) : Gcra.Polices takeFilling knockIntervalMs toleranceMs addr
    (TracksOf addr) ClockMs where
  own {past now s tat} htracks hpast hnow := by
    have hpolices := found_polices (htracks.mono hpast) hnow
    obtain ⟨hanswer, hafter⟩ := filling_own s addr now
    unfold TracksOf
    rw [hanswer, hafter]
    exact hpolices
  other {past now s tat other} htracks hpast _ hother := by
    have hafter : (s.takeFilling (other, now)).2.knocks addr = s.knocks addr :=
      Function.update_of_ne (Ne.symm hother) _ _
    unfold TracksOf
    rw [hafter]
    exact htracks.mono hpast

/-! ## Runs of calls -/

/-- Calls in order of time, at instants the clock can give. -/
structure InOrder (calls : List (String × Int)) : Prop where
  clock : ∀ call ∈ calls, ClockMs call.2
  ordered : (calls.map Prod.snd).Pairwise (· ≤ ·)

theorem InOrder.chain (h : InOrder calls) : (i64Min :: calls.map Prod.snd).IsChain (· ≤ ·) := by
  rw [List.isChain_iff_pairwise, List.pairwise_cons]
  refine ⟨fun t ht => ?_, h.ordered⟩
  obtain ⟨call, hcall, rfl⟩ := List.mem_map.mp ht
  exact (h.clock call hcall).1

theorem InOrder.filter (h : InOrder calls) (p : String × Int → Bool) : InOrder (calls.filter p) where
  clock call hcall := h.clock call (List.mem_of_mem_filter hcall)
  ordered := h.ordered.sublist (List.filter_sublist.map Prod.snd)

theorem tracks_new (addr : String) : TracksOf addr i64Min new i64Min :=
  le_refl i64Min

/-- What the calls of an address are answered is what a policer answers to them. -/
theorem answers_policed (h : InOrder calls) (addr : String) :
    Gcra.answersOf take addr new calls =
      Gcra.policed knockIntervalMs toleranceMs i64Min (Gcra.callsOf addr calls) :=
  ((take_polices addr).answers_of (tracks_new addr) h.clock h.chain).1

theorem filling_policed (h : InOrder calls) (addr : String) :
    Gcra.answersOf takeFilling addr new calls =
      Gcra.policed knockIntervalMs toleranceMs i64Min (Gcra.callsOf addr calls) :=
  ((filling_polices addr).answers_of (tracks_new addr) h.clock h.chain).1

/-- How many calls of an address are granted within a span. -/
def grantedIn (addr : String) (startMs stopMs : Int) (calls : List (String × Int)) : Nat :=
  (Gcra.answersOf take addr new calls).countP (Gcra.PassedIn startMs stopMs)

theorem granted_in_le (h : InOrder calls) (addr : String) (startMs : Int) {lengthMs : Int}
    (hlength : 0 ≤ lengthMs) :
    (grantedIn addr startMs (startMs + lengthMs) calls : Int) ≤
      knockBurst + lengthMs / knockIntervalMs := by
  have hinterval : 0 ≤ knockIntervalMs := by decide
  have htolerance : 0 ≤ toleranceMs := by decide
  unfold grantedIn
  rw [answers_policed h]
  have hspan := @Gcra.policed_in_span _ _ _ knockIntervalMs toleranceMs i64Min
    (Gcra.callsOf addr calls) _ startMs (startMs + lengthMs) hinterval htolerance
    (le_add_of_nonneg_right hlength)
  rw [nsmul_eq_mul] at hspan
  generalize List.countP _ _ = n at hspan ⊢
  unfold toleranceMs knockBurst knockIntervalMs at *
  omega

/-- Calls at one instant, at or after the past. -/
theorem chain_replicate {past : Int} (h : past ≤ nowMs) (addr : String) (n : Nat) :
    (past :: (List.replicate n (addr, nowMs)).map Prod.snd).IsChain (· ≤ ·) := by
  rw [List.map_replicate, List.isChain_iff_pairwise, List.pairwise_cons]
  refine ⟨fun t ht => ?_, List.pairwise_replicate.mpr (.inr le_rfl)⟩
  rw [List.eq_of_mem_replicate ht]
  exact h

/-- An address whose calls all lie a burst of intervals back has its tokens back. -/
theorem silent_refilled (h : InOrder calls) (hnow : ClockMs nowMs)
    (hpast : ∀ call ∈ calls, call.2 ≤ nowMs)
    (hsilent : ∀ call ∈ calls, call.1 = addr → call.2 + knockBurst * knockIntervalMs ≤ nowMs) :
    (exec (Gcra.leaves take) new calls).knockTokens addr nowMs = knockBurst ∧
      Gcra.answersOf take addr (exec (Gcra.leaves take) new calls)
        (List.replicate knockBurst (addr, nowMs)) = List.replicate knockBurst (nowMs, true) := by
  have hrun := ((take_polices addr).answers_of (tracks_new addr) h.clock h.chain).2
  have hlast : (i64Min :: calls.map Prod.snd).getLast (by simp) ≤ nowMs := by
    rcases List.mem_cons.mp (List.getLast_mem (l := i64Min :: calls.map Prod.snd) (by simp)) with
      hmin | hcall
    · rw [hmin]
      exact hnow.1
    · obtain ⟨call, hin, hcall⟩ := List.mem_map.mp hcall
      rw [← hcall]
      exact hpast call hin
  have htracks : Tracks nowMs ((exec (Gcra.leaves take) new calls).knocks addr) _ := hrun.mono hlast
  have hidle : (Gcra.callsOf addr calls).foldl (Gcra.policedTat knockIntervalMs toleranceMs)
      i64Min ≤ nowMs := by
    refine Gcra.policed_idle hnow.1 fun t ht => ?_
    obtain ⟨call, hin, rfl⟩ := List.mem_map.mp ht
    obtain ⟨hcall, haddr⟩ := List.mem_filter.mp hin
    have hburst := hsilent call hcall (of_decide_eq_true haddr)
    unfold toleranceMs
    linarith
  constructor
  · unfold knockTokens
    cases hbucket : (exec (Gcra.leaves take) new calls).knocks addr with
    | none => rfl
    | some bucket =>
      rw [hbucket] at htracks
      exact min_eq_right (not_lt.mp (htracks.idle_iff.mp hidle))
  · have hclock : ∀ call ∈ List.replicate knockBurst (addr, nowMs), ClockMs call.2 := by
      intro call hcall
      rw [List.eq_of_mem_replicate hcall]
      exact hnow
    rw [((take_polices addr).answers_of htracks hclock (chain_replicate le_rfl addr knockBurst)).1,
      Gcra.calls_of_replicate]
    refine Gcra.policed_at_once (by decide) hidle fun i hi => ?_
    rw [nsmul_eq_mul]
    unfold toleranceMs knockBurst knockIntervalMs at *
    omega

/-! ## What forgetting leaves out -/

/-- The call finds no bucket of its address full again, or one whose refill ends with the call. -/
def EndsWhole (self : KnockAdmission) (call : String × Int) : Prop :=
  ∀ bucket ∈ self.knocks call.1, knockBurst ≤ bucket.refilled call.2 →
    bucket.lastMs + refillTokens bucket.lastMs call.2 * knockIntervalMs = call.2

/-- No bucket holds more than a burst. -/
def Within (self : KnockAdmission) : Prop :=
  ∀ addr, ∀ bucket ∈ self.knocks addr, bucket.tokens ≤ knockBurst

theorem refill_within {bucket : KnockBucket} (h : bucket.tokens ≤ knockBurst) (nowMs : Int) :
    (bucket.refill nowMs).tokens ≤ knockBurst := by
  unfold KnockBucket.refill
  simp only
  split
  · exact min_le_right _ _
  · exact h

theorem spend_tokens_le (bucket : KnockBucket) : bucket.spend.2.tokens ≤ bucket.tokens := by
  unfold KnockBucket.spend
  split
  · exact le_rfl
  · exact Nat.sub_le _ 1

theorem Within.keeping {self : KnockAdmission} (h : self.Within) (call : String × Int) :
    (self.takeKeeping call).2.Within := by
  intro addr bucket hbucket
  by_cases haddr : addr = call.1
  · have hspent : some ((((self.knocks call.1).getD (fresh call.2)).refill call.2).spend.2) =
        some bucket := by
      simpa [takeKeeping, takeFrom, haddr] using hbucket
    rw [← Option.some.inj hspent]
    refine (spend_tokens_le _).trans (refill_within ?_ _)
    cases hheld : self.knocks call.1 with
    | none => exact le_rfl
    | some held => exact h call.1 held hheld
  · refine h addr bucket ?_
    simpa [takeKeeping, takeFrom, haddr] using hbucket

theorem refill_tokens_le (lastMs nowMs : Int) : refillTokens lastMs nowMs ≤ u32Max := by
  unfold refillTokens
  simp only
  split
  · rename_i h
    exact Int.toNat_le.mpr h
  · exact le_rfl

/-- A full bucket whose refill ends with the call is as good as new. -/
theorem refill_whole {bucket : KnockBucket} (hwithin : bucket.tokens ≤ knockBurst)
    (hfull : knockBurst ≤ bucket.refilled nowMs) (hnow : ClockMs nowMs)
    (hends : bucket.lastMs + refillTokens bucket.lastMs nowMs * knockIntervalMs = nowMs) :
    bucket.refill nowMs = fresh nowMs := by
  have hle := refill_tokens_le bucket.lastMs nowMs
  unfold KnockBucket.refill KnockBucket.refilled fresh at *
  simp only
  generalize refillTokens bucket.lastMs nowMs = n at *
  by_cases hn : 0 < n
  · have hmul : saturatingMul n knockIntervalMs = n * knockIntervalMs := by
      unfold saturatingMul knockIntervalMs i64Min i64Max u32Max at *
      omega
    have hadd : saturatingAdd bucket.lastMs (n * knockIntervalMs) = nowMs := by
      unfold saturatingAdd ClockMs at *
      rw [hends, min_eq_right hnow.2, max_eq_right hnow.1]
    rw [if_pos hn, hmul, hadd, min_eq_right hfull]
  · obtain rfl : n = 0 := Nat.eq_zero_of_not_pos hn
    have htokens : knockBurst = bucket.tokens := by
      refine le_antisymm (hfull.trans ?_) hwithin
      exact min_le_left _ _
    rw [if_neg hn, htokens, ← hends]
    simp

theorem keeping_eq_filling {self : KnockAdmission} {call : String × Int} (hwithin : self.Within)
    (hclock : ClockMs call.2) (hends : self.EndsWhole call) :
    self.takeKeeping call = self.takeFilling call := by
  have hfound : ((self.knocks call.1).getD (fresh call.2)).refill call.2 =
      found call.2 (self.knocks call.1) := by
    cases hheld : self.knocks call.1 with
    | none => exact refill_fresh call.2
    | some bucket =>
      unfold found
      simp only [Option.getD_some]
      split
      · rfl
      · rename_i hfull
        have hfull := not_lt.mp hfull
        exact refill_whole (hwithin call.1 bucket hheld) hfull hclock (hends bucket hheld hfull)
  unfold takeKeeping takeFrom takeFilling
  simp only
  rw [hfound]

theorem keeping_answers (h : InOrder calls) (addr : String)
    (hends : EachStep (Gcra.leaves takeKeeping) EndsWhole new calls) :
    Gcra.answersOf takeKeeping addr new calls = Gcra.answersOf takeFilling addr new calls := by
  have hnew : new.Within := fun addr bucket hbucket => by cases hbucket
  refine Gcra.answers_of_congr new calls ?_
  have hboth : EachStep (Gcra.leaves takeKeeping)
      (fun s call => ClockMs call.2 ∧ s.EndsWhole call) new calls := by
    intro pre call hpre
    have hcall : call ∈ calls := hpre.subset (by simp)
    exact ⟨h.clock call hcall, hends pre call hpre⟩
  refine each_step_of_invariant (I := Within) (fun s call hs _ => hs.keeping call) ?_ hnew hboth
  exact fun s call hs hcall => keeping_eq_filling hs hcall.1 hcall.2

/-- Every span of a run grants an address a burst and one knock more for each interval of its
length, and a silent address has its burst back. Forgetting a full bucket answers as starting it
anew does, whatever other addresses call; it answers as keeping it does where the refill ends with
the call. -/
theorem knock_rate (h : InOrder calls) (addr : String) :
    (∀ startMs lengthMs : Int, 0 ≤ lengthMs →
      (grantedIn addr startMs (startMs + lengthMs) calls : Int) ≤
        knockBurst + lengthMs / knockIntervalMs) ∧
    (∀ nowMs, ClockMs nowMs → (∀ call ∈ calls, call.2 ≤ nowMs) →
      (∀ call ∈ calls, call.1 = addr → call.2 + knockBurst * knockIntervalMs ≤ nowMs) →
      (exec (Gcra.leaves take) new calls).knockTokens addr nowMs = knockBurst ∧
      Gcra.answersOf take addr (exec (Gcra.leaves take) new calls)
        (List.replicate knockBurst (addr, nowMs)) = List.replicate knockBurst (nowMs, true)) ∧
    Gcra.answersOf take addr new calls = Gcra.answersOf takeFilling addr new calls ∧
    Gcra.answersOf take addr new calls =
      Gcra.answersOf take addr new (calls.filter fun call => decide (call.1 = addr)) ∧
    (EachStep (Gcra.leaves takeKeeping) EndsWhole new calls →
      Gcra.answersOf take addr new calls = Gcra.answersOf takeKeeping addr new calls) := by
  have hfilling : Gcra.answersOf take addr new calls = Gcra.answersOf takeFilling addr new calls := by
    rw [answers_policed h, filling_policed h]
  refine ⟨fun startMs lengthMs hlength => granted_in_le h addr startMs hlength,
    fun nowMs hnow hpast hsilent => silent_refilled h hnow hpast hsilent, hfilling, ?_, ?_⟩
  · rw [answers_policed h, answers_policed (h.filter _), Gcra.calls_of_filter]
  · intro hends
    rw [hfilling, keeping_answers h addr hends]

/-- Knocks that spend a burst, spend another just before a fourth interval ends, and knock once
more when it has. -/
def burstCalls : List (String × Int) :=
  [("a", 0), ("a", 0), ("a", 0), ("a", 39999), ("a", 39999), ("a", 39999), ("a", 40000)]

theorem burst_calls_in_order : InOrder burstCalls := by
  constructor <;> decide

theorem knock_rate_burst :
    (grantedIn "a" 39999 (39999 + 1) burstCalls : Int) ≤ knockBurst + 1 / knockIntervalMs ∧
      (exec (Gcra.leaves take) new burstCalls).knockTokens "a" 70000 = knockBurst ∧
      Gcra.answersOf take "a" new [("a", 0), ("a", 30000)] =
        Gcra.answersOf takeKeeping "a" new [("a", 0), ("a", 30000)] := by
  have hburst := knock_rate burst_calls_in_order "a"
  have hwhole : InOrder [("a", 0), ("a", 30000)] := by constructor <;> decide
  refine ⟨hburst.1 39999 1 (by decide), ?_, (knock_rate hwhole "a").2.2.2.2 ?_⟩
  · exact (hburst.2.1 70000 (by decide) (by decide) (by decide)).1
  · rw [each_step_cons, each_step_cons]
    refine ⟨?_, ?_, each_step_nil⟩
    · intro bucket hbucket
      cases hbucket
    · intro bucket hbucket _
      cases hbucket
      decide +kernel

/-- The part of an interval forgotten with a full bucket is missed: the last knock would have been
granted. -/
theorem forgetting_refuses :
    ¬ ∀ calls, InOrder calls → ∀ addr,
      Gcra.answersOf take addr new calls = Gcra.answersOf takeKeeping addr new calls := by
  intro h
  have hsame := h burstCalls burst_calls_in_order "a"
  revert hsame
  decide +kernel

end KnockAdmission

end TeamClaude
