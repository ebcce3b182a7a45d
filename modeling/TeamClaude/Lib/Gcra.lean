import TeamClaude.Lib.Exec
import Mathlib.Algebra.Order.Group.Defs
import Mathlib.Algebra.Order.Monoid.Unbundled.Pow
import Mathlib.Algebra.Module.NatInt
import Mathlib.Logic.Function.Basic
import Mathlib.Tactic.Abel

/-!
# The generic cell rate algorithm

A bucket keeps one instant, the theoretical arrival time. An arrival is due at the later of that
instant and its own, may be sent a tolerance before it is due, and moves the theoretical arrival
time one interval past it. Arrivals may come in any order of time. A policer delays nothing: it
answers whether an arrival conforms, and one that does not leaves the bucket as it is.
-/

namespace Lib.Gcra

variable {α : Type*} [AddCommGroup α] [LinearOrder α]

def dues (interval : α) : α → List α → List α
  | _, [] => []
  | tat, now :: arrivals => max tat now :: dues interval (max tat now + interval) arrivals

/-- The instants at which the arrivals are sent. -/
def sends (interval tolerance : α) : α → List α → List α
  | _, [] => []
  | tat, now :: arrivals =>
    max now (max tat now - tolerance) ::
      sends interval tolerance (max tat now + interval) arrivals

variable {interval tolerance tat : α} {arrivals : List α}

@[simp] theorem length_dues : (dues interval tat arrivals).length = arrivals.length := by
  induction arrivals generalizing tat with
  | nil => rfl
  | cons now arrivals ih => simp [dues, ih]

@[simp] theorem length_sends : (sends interval tolerance tat arrivals).length = arrivals.length := by
  induction arrivals generalizing tat with
  | nil => rfl
  | cons now arrivals ih => simp [sends, ih]

section Ordered

variable [IsOrderedAddMonoid α]

/-- An arrival is due no earlier than one interval for each arrival before it after the theoretical
arrival time. -/
theorem le_due {i : Nat} (hi : i < (dues interval tat arrivals).length) :
    tat + i • interval ≤ (dues interval tat arrivals)[i] := by
  induction arrivals generalizing tat i with
  | nil => simp [dues] at hi
  | cons now arrivals ih =>
    cases i with
    | zero => simp [dues]
    | succ i =>
      have hi' : i < (dues interval (max tat now + interval) arrivals).length := by
        simpa [dues] using hi
      have hrest := ih hi'
      have hstart : tat + (i + 1) • interval ≤ max tat now + interval + i • interval := by
        rw [succ_nsmul', ← add_assoc]
        gcongr
        exact le_max_left tat now
      exact hstart.trans hrest

/-- Two arrivals are due at least one interval apart for each place between them. -/
theorem dues_spaced {i j : Nat} (hij : i < j) (hj : j < (dues interval tat arrivals).length) :
    (dues interval tat arrivals)[i] + (j - i) • interval ≤ (dues interval tat arrivals)[j] := by
  induction arrivals generalizing tat i j with
  | nil => simp [dues] at hj
  | cons now arrivals ih =>
    obtain ⟨j, rfl⟩ := Nat.exists_eq_succ_of_ne_zero (Nat.ne_zero_of_lt hij)
    have hj' : j < (dues interval (max tat now + interval) arrivals).length := by
      simpa [dues] using hj
    cases i with
    | zero =>
      have hrest := le_due hj'
      rw [add_assoc, ← succ_nsmul'] at hrest
      exact hrest
    | succ i =>
      have hrest := ih (Nat.lt_of_succ_lt_succ hij) hj'
      rw [Nat.succ_sub_succ]
      exact hrest

/-- An arrival is sent within the tolerance before it is due. -/
theorem send_between (htolerance : 0 ≤ tolerance) {i : Nat}
    (hi : i < (sends interval tolerance tat arrivals).length)
    (hi' : i < (dues interval tat arrivals).length) :
    (sends interval tolerance tat arrivals)[i] ≤ (dues interval tat arrivals)[i] ∧
      (dues interval tat arrivals)[i] ≤ (sends interval tolerance tat arrivals)[i] + tolerance := by
  induction arrivals generalizing tat i with
  | nil => simp [dues] at hi'
  | cons now arrivals ih =>
    cases i with
    | zero =>
      constructor
      · exact max_le (le_max_right tat now) (sub_le_self _ htolerance)
      · exact sub_le_iff_le_add.mp (le_max_right now _)
    | succ i =>
      have hsent : i < (sends interval tolerance (max tat now + interval) arrivals).length := by
        simpa [sends] using hi
      have hdue : i < (dues interval (max tat now + interval) arrivals).length := by
        simpa [dues] using hi'
      exact ih hsent hdue

/-- Two sends are at least one interval apart for each place between them, less the tolerance. -/
theorem sends_spaced (htolerance : 0 ≤ tolerance) {i j : Nat} (hij : i < j)
    (hj : j < (sends interval tolerance tat arrivals).length) :
    (sends interval tolerance tat arrivals)[i] + (j - i) • interval ≤
      (sends interval tolerance tat arrivals)[j] + tolerance := by
  have hj' : j < (dues interval tat arrivals).length := by simpa using hj
  have hearly := (send_between htolerance (hij.trans hj) (hij.trans hj')).1
  have hlate := (send_between htolerance hj hj').2
  have hspaced := dues_spaced hij hj'
  exact (add_le_add_left hearly _).trans (hspaced.trans hlate)

/-- Arrivals at one instant are sent at once while the intervals ahead of them fit the tolerance. -/
theorem sends_at_once_from {now : α} (hinterval : 0 ≤ interval) {ahead : Nat}
    (htat : tat ≤ now + ahead • interval) {n : Nat}
    (hfit : ∀ i < n, (ahead + i) • interval ≤ tolerance) (rest : List α) :
    (sends interval tolerance tat (List.replicate n now ++ rest)).take n = List.replicate n now := by
  induction n generalizing ahead tat with
  | zero => simp
  | succ n ih =>
    have hdue : max tat now ≤ now + ahead • interval :=
      max_le htat (le_add_of_nonneg_right (nsmul_nonneg hinterval ahead))
    have hnow : max now (max tat now - tolerance) = now := by
      refine max_eq_left (sub_le_iff_le_add.mpr (hdue.trans ?_))
      gcongr
      exact hfit 0 n.succ_pos
    have hnext : max tat now + interval ≤ now + (ahead + 1) • interval := by
      rw [succ_nsmul, ← add_assoc]
      gcongr
    have hrest := ih hnext fun i hi => by
      rw [add_assoc, Nat.add_comm 1 i]
      exact hfit (i + 1) (Nat.succ_lt_succ hi)
    rw [List.replicate_succ, List.cons_append, sends, List.take_succ_cons, hrest, hnow]

/-- On an idle bucket the arrivals at one instant are sent at once while their intervals fit the
tolerance. -/
theorem sends_at_once {now : α} (hinterval : 0 ≤ interval) (hidle : tat ≤ now) {n : Nat}
    (hfit : ∀ i < n, i • interval ≤ tolerance) (rest : List α) :
    (sends interval tolerance tat (List.replicate n now ++ rest)).take n = List.replicate n now :=
  have htat : tat ≤ now + 0 • interval := by simpa using hidle
  sends_at_once_from hinterval htat (by simpa using hfit) rest

end Ordered

/-! ## Policing -/

/-- The arrival comes no more than the tolerance before it is due. -/
def Conforms (tolerance tat now : α) : Prop :=
  max tat now ≤ now + tolerance

instance (tolerance tat now : α) : Decidable (Conforms tolerance tat now) := by
  unfold Conforms
  infer_instance

/-- The theoretical arrival time after an arrival at a policer. -/
def policedTat (interval tolerance tat now : α) : α :=
  if Conforms tolerance tat now then max tat now + interval else tat

/-- The arrivals, each with whether it conforms. -/
def policed (interval tolerance : α) : α → List α → List (α × Bool)
  | _, [] => []
  | tat, now :: arrivals =>
    (now, decide (Conforms tolerance tat now)) ::
      policed interval tolerance (policedTat interval tolerance tat now) arrivals

/-- The arrival conforms and comes within the span. -/
def PassedIn (start stop : α) (arrival : α × Bool) : Prop :=
  arrival.2 = true ∧ start ≤ arrival.1 ∧ arrival.1 ≤ stop

instance (start stop : α) (arrival : α × Bool) : Decidable (PassedIn start stop arrival) := by
  unfold PassedIn
  infer_instance

section Policing

variable [IsOrderedAddMonoid α] {start stop : α}

theorem le_policed_tat (hinterval : 0 ≤ interval) (now : α) :
    tat ≤ policedTat interval tolerance tat now := by
  unfold policedTat
  split
  · exact (le_max_left tat now).trans (le_add_of_nonneg_right hinterval)
  · exact le_rfl

/-- The arrivals that pass in a span each take an interval of it, the tolerance and one more
interval. -/
theorem policed_span (hinterval : 0 ≤ interval)
    (hsome : (policed interval tolerance tat arrivals).countP (PassedIn start stop) ≠ 0) :
    max tat start + (policed interval tolerance tat arrivals).countP (PassedIn start stop) • interval ≤
      stop + tolerance + interval := by
  induction arrivals generalizing tat with
  | nil => simp [policed] at hsome
  | cons now arrivals ih =>
    rw [policed, List.countP_cons] at hsome ⊢
    set rest := (policed interval tolerance (policedTat interval tolerance tat now) arrivals).countP
      (PassedIn start stop) with hrest
    by_cases hpass : PassedIn start stop (now, decide (Conforms tolerance tat now))
    · obtain ⟨hconforms, hstart, hstop⟩ := hpass
      rw [if_pos (decide_eq_true ⟨hconforms, hstart, hstop⟩)]
      have hconforms : Conforms tolerance tat now := of_decide_eq_true hconforms
      have htat : policedTat interval tolerance tat now = max tat now + interval := if_pos hconforms
      have hmoved : max tat start + interval ≤ policedTat interval tolerance tat now := by
        rw [htat]
        gcongr
      rw [succ_nsmul', ← add_assoc]
      by_cases hzero : rest = 0
      · rw [hzero, zero_nsmul, add_zero]
        have hdue : max tat start ≤ now + tolerance := (max_le_max_left tat hstart).trans hconforms
        gcongr
        exact hdue.trans (by gcongr)
      · have hlater := ih hzero
        rw [← hrest] at hlater
        refine le_trans ?_ hlater
        gcongr
        exact hmoved.trans (le_max_left _ _)
    · rw [if_neg (by simpa using hpass), Nat.add_zero] at hsome ⊢
      have hlater := ih hsome
      refine le_trans ?_ hlater
      rw [← hrest]
      gcongr
      exact le_policed_tat hinterval now

/-- The arrivals that pass in a span, at an interval each, fit the span, the tolerance and one
interval. -/
theorem policed_in_span (hinterval : 0 ≤ interval) (htolerance : 0 ≤ tolerance)
    (hspan : start ≤ stop) :
    (policed interval tolerance tat arrivals).countP (PassedIn start stop) • interval ≤
      stop - start + tolerance + interval := by
  by_cases hnone : (policed interval tolerance tat arrivals).countP (PassedIn start stop) = 0
  · rw [hnone, zero_nsmul]
    exact add_nonneg (add_nonneg (sub_nonneg.mpr hspan) htolerance) hinterval
  · have hall := policed_span hinterval hnone
    have hfrom := (add_le_add_left (le_max_right tat start) _).trans hall
    rw [← le_sub_iff_add_le'] at hfrom
    exact hfrom.trans_eq (by abel)

/-- A policer whose arrivals all lie a burst before an instant is idle at it. -/
theorem policed_idle {now : α} (hidle : tat ≤ now)
    (hsilent : ∀ t ∈ arrivals, t + tolerance + interval ≤ now) :
    arrivals.foldl (policedTat interval tolerance) tat ≤ now := by
  induction arrivals generalizing tat with
  | nil => exact hidle
  | cons t arrivals ih =>
    obtain ⟨ht, hrest⟩ := List.forall_mem_cons.mp hsilent
    refine ih ?_ hrest
    unfold policedTat
    split
    · rename_i hconforms
      exact (add_le_add_left hconforms interval).trans ht
    · exact hidle

/-- Arrivals at one instant conform while the intervals ahead of them fit the tolerance. -/
theorem policed_at_once_from {now : α} (hinterval : 0 ≤ interval) {ahead : Nat}
    (htat : tat ≤ now + ahead • interval) {n : Nat}
    (hfit : ∀ i < n, (ahead + i) • interval ≤ tolerance) :
    policed interval tolerance tat (List.replicate n now) = List.replicate n (now, true) := by
  induction n generalizing ahead tat with
  | zero => rfl
  | succ n ih =>
    have hdue : max tat now ≤ now + ahead • interval :=
      max_le htat (le_add_of_nonneg_right (nsmul_nonneg hinterval ahead))
    have hconforms : Conforms tolerance tat now := by
      refine hdue.trans ?_
      gcongr
      exact hfit 0 n.succ_pos
    have hnext : policedTat interval tolerance tat now ≤ now + (ahead + 1) • interval := by
      rw [policedTat, if_pos hconforms, succ_nsmul, ← add_assoc]
      gcongr
    have hrest := ih hnext fun i hi => by
      rw [add_assoc, Nat.add_comm 1 i]
      exact hfit (i + 1) (Nat.succ_lt_succ hi)
    rw [List.replicate_succ, List.replicate_succ, policed, hrest, decide_eq_true hconforms]

/-- An idle policer lets arrivals at one instant through while their intervals fit the tolerance. -/
theorem policed_at_once {now : α} (hinterval : 0 ≤ interval) (hidle : tat ≤ now) {n : Nat}
    (hfit : ∀ i < n, i • interval ≤ tolerance) :
    policed interval tolerance tat (List.replicate n now) = List.replicate n (now, true) :=
  have htat : tat ≤ now + 0 • interval := by simpa using hidle
  policed_at_once_from hinterval htat (by simpa using hfit)

end Policing

/-! ## A bucket for each key -/

variable {κ : Type*}

/-- When an arrival is sent that is charged to the bucket of its key; one without a key is sent at
once. -/
def sentAt (tolerance : α) (tats : κ → α) : Option κ → α → α
  | none, now => now
  | some key, now => max now (max (tats key) now - tolerance)

theorem le_sent_at (tats : κ → α) (key : Option κ) (now : α) :
    now ≤ sentAt tolerance tats key now := by
  cases key with
  | none => exact le_rfl
  | some key => exact le_max_left _ _

variable [DecidableEq κ]

/-- The buckets after an arrival. -/
def charged (interval : α) (tats : κ → α) : Option κ → α → κ → α
  | none, _ => tats
  | some key, now => Function.update tats key (max (tats key) now + interval)

/-- The instants at which arrivals are sent, each charged to the bucket of its key. -/
def keyedSends (interval tolerance : α) : (κ → α) → List (Option κ × α) → List α
  | _, [] => []
  | tats, (key, now) :: arrivals =>
    sentAt tolerance tats key now ::
      keyedSends interval tolerance (charged interval tats key now) arrivals

def arrivalsOf (key : κ) (arrivals : List (Option κ × α)) : List α :=
  (arrivals.filter fun arrival => decide (arrival.1 = some key)).map Prod.snd

def sendsOf (key : κ) (arrivals : List (Option κ × α)) (sent : List α) : List α :=
  ((arrivals.zip sent).filter fun entry => decide (entry.1.1 = some key)).map Prod.snd

/-- The bucket of a key sees the arrivals of that key and no others. -/
theorem sends_of_keyed (key : κ) (tats : κ → α) (arrivals : List (Option κ × α)) :
    sendsOf key arrivals (keyedSends interval tolerance tats arrivals) =
      sends interval tolerance (tats key) (arrivalsOf key arrivals) := by
  induction arrivals generalizing tats with
  | nil => rfl
  | cons arrival arrivals ih =>
    simp only [sendsOf, arrivalsOf] at ih ⊢
    obtain ⟨_ | other, now⟩ := arrival
    · simp [keyedSends, charged, ih]
    · by_cases h : other = key
      · subst h
        simp [keyedSends, sentAt, charged, sends, ih]
      · simp [keyedSends, charged, ih, h, Function.update_of_ne (Ne.symm h)]

/-- Arrivals without a key are sent as they come. -/
theorem keyed_sends_unkeyed {tats : κ → α} {arrivals : List (Option κ × α)}
    (h : ∀ arrival ∈ arrivals, arrival.1 = none) :
    keyedSends interval tolerance tats arrivals = arrivals.map Prod.snd := by
  induction arrivals with
  | nil => rfl
  | cons arrival arrivals ih =>
    obtain ⟨key, now⟩ := arrival
    obtain ⟨rfl, hrest⟩ := List.forall_mem_cons.mp h
    rw [List.map_cons, ← ih hrest]
    rfl

/-- No arrival is sent before it comes. -/
theorem keyed_sends_max (tats : κ → α) (arrivals : List (Option κ × α)) :
    List.zipWith max (keyedSends interval tolerance tats arrivals) (arrivals.map Prod.snd) =
      keyedSends interval tolerance tats arrivals := by
  induction arrivals generalizing tats with
  | nil => rfl
  | cons arrival arrivals ih =>
    obtain ⟨key, now⟩ := arrival
    rw [keyedSends, List.map_cons, List.zipWith_cons_cons, ih, max_eq_left (le_sent_at tats key now)]

/-! ## What polices -/

section Refines

variable {σ : Type*}

/-- What a program answers to the calls of a key, each with its instant. -/
def answersOf (step : σ → κ × α → Bool × σ) (key : κ) : σ → List (κ × α) → List (α × Bool)
  | _, [] => []
  | s, call :: calls =>
    if call.1 = key then
      (call.2, (step s call).1) :: answersOf step key (step s call).2 calls
    else
      answersOf step key (step s call).2 calls

def leaves (step : σ → κ × α → Bool × σ) (s : σ) (call : κ × α) : σ :=
  (step s call).2

def callsOf (key : κ) (calls : List (κ × α)) : List α :=
  (calls.filter fun call => decide (call.1 = key)).map Prod.snd

/-- A program that answers for a key as a policer does, as long as time does not run backwards:
`R now s tat` relates its state to the theoretical arrival time. -/
structure Polices (step : σ → κ × α → Bool × σ) (interval tolerance : α) (key : κ)
    (R : α → σ → α → Prop) (Valid : α → Prop) : Prop where
  own : ∀ {past now s tat}, R past s tat → past ≤ now → Valid now →
    (step s (key, now)).1 = decide (Conforms tolerance tat now) ∧
      R now (step s (key, now)).2 (policedTat interval tolerance tat now)
  other : ∀ {past now s tat other}, R past s tat → past ≤ now → Valid now → other ≠ key →
    R now (step s (other, now)).2 tat

variable {step : σ → κ × α → Bool × σ} {key : κ} {R : α → σ → α → Prop} {Valid : α → Prop}
  {s : σ} {past : α} {calls : List (κ × α)}

omit [AddCommGroup α] [LinearOrder α] in
theorem calls_of_filter (key : κ) (calls : List (κ × α)) :
    callsOf key (calls.filter fun call => decide (call.1 = key)) = callsOf key calls := by
  simp [callsOf]

omit [AddCommGroup α] [LinearOrder α] in
theorem calls_of_replicate (key : κ) (now : α) (n : Nat) :
    callsOf key (List.replicate n (key, now)) = List.replicate n now := by
  simp [callsOf]

omit [AddCommGroup α] [LinearOrder α] in
/-- Two programs that answer every call alike and go on alike answer alike. -/
theorem answers_of_congr {step' : σ → κ × α → Bool × σ} (s : σ) (calls : List (κ × α))
    (h : EachStep (leaves step) (fun s call => step s call = step' s call) s calls) :
    answersOf step key s calls = answersOf step' key s calls := by
  induction calls generalizing s with
  | nil => rfl
  | cons call calls ih =>
    obtain ⟨hfirst, hrest⟩ := each_step_cons.mp h
    have hanswers := ih (step s call).2 hrest
    rw [answersOf, answersOf, ← hfirst, hanswers]

theorem Polices.answers_of (h : Polices step interval tolerance key R Valid) (hR : R past s tat)
    (hvalid : ∀ call ∈ calls, Valid call.2)
    (hordered : (past :: calls.map Prod.snd).IsChain (· ≤ ·)) :
    answersOf step key s calls = policed interval tolerance tat (callsOf key calls) ∧
      R ((past :: calls.map Prod.snd).getLast (by simp)) (exec (leaves step) s calls)
        ((callsOf key calls).foldl (policedTat interval tolerance) tat) := by
  induction calls generalizing past s tat with
  | nil => exact ⟨rfl, hR⟩
  | cons call calls ih =>
    obtain ⟨caller, now⟩ := call
    obtain ⟨hnow, hrest⟩ := List.forall_mem_cons.mp hvalid
    rw [List.map_cons, List.isChain_cons_cons] at hordered
    by_cases hcaller : caller = key
    · subst hcaller
      obtain ⟨hanswer, hnext⟩ := h.own hR hordered.1 hnow
      obtain ⟨hanswers, hafter⟩ := ih hnext hrest hordered.2
      constructor
      · simp only [answersOf, if_true, hanswer, hanswers]
        simp [callsOf, policed]
      · simpa [callsOf, leaves] using hafter
    · have hnext := h.other hR hordered.1 hnow hcaller
      obtain ⟨hanswers, hafter⟩ := ih hnext hrest hordered.2
      constructor
      · simp only [answersOf, if_neg hcaller, hanswers]
        simp [callsOf, hcaller]
      · simpa [callsOf, leaves, hcaller] using hafter

end Refines

end Lib.Gcra
