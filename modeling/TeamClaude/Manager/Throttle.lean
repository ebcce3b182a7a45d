import TeamClaude.Lib.Gcra
import TeamClaude.Manager.State
import Mathlib.Tactic.Linarith

/-!
# The outbound throttle

A send is charged to the bucket of its account's organisation and to that of its provider's fleet,
where these are configured, and waits for the later of the two. The arithmetic is in exact integers.
-/

namespace TeamClaude

open Lib

/-- `throttle_slot`: the new theoretical arrival time, and the earliest instant allowed. -/
def throttleSlot (tatMs nowMs spacingMs : Int) (burst : Nat) : Int × Int :=
  let tau := spacingMs * ((max burst 1 : Nat) - 1)
  let base := max tatMs nowMs
  (base + spacingMs, base - tau)

/-- The instants at which arrivals are sent that are folded through `throttle_slot`. -/
def slotSends (spacingMs : Int) (burst : Nat) : Int → List Int → List Int
  | _, [] => []
  | tatMs, nowMs :: arrivals =>
    let (newTat, allowAt) := throttleSlot tatMs nowMs spacingMs burst
    max nowMs allowAt :: slotSends spacingMs burst newTat arrivals

def tolerance (spacingMs : Int) (burst : Nat) : Int :=
  spacingMs * ((max burst 1 : Nat) - 1)

theorem slot_sends (spacingMs : Int) (burst : Nat) (tatMs : Int) (arrivals : List Int) :
    slotSends spacingMs burst tatMs arrivals =
      Gcra.sends spacingMs (tolerance spacingMs burst) tatMs arrivals := by
  induction arrivals generalizing tatMs with
  | nil => rfl
  | cons nowMs arrivals ih => rw [slotSends, Gcra.sends, ← ih]; rfl

theorem tolerance_nonneg {spacingMs : Int} (h : 0 ≤ spacingMs) (burst : Nat) :
    0 ≤ tolerance spacingMs burst := by
  have hburst : (0 : Int) ≤ (max burst 1 : Nat) - 1 := by omega
  exact mul_nonneg h hburst

/-- A burst of the given size is spaced as far as the tolerance reaches. -/
theorem tolerance_of_pos (spacingMs : Int) {burst : Nat} (h : 1 ≤ burst) :
    tolerance spacingMs burst = spacingMs * (burst - 1) := by
  rw [tolerance, max_eq_left h]

/-- Sends of one bucket are spaced, but for one burst. -/
theorem slot_sends_spaced {spacingMs : Int} (hspacing : 1 ≤ spacingMs) {burst : Nat}
    (hburst : 1 ≤ burst) {tatMs : Int} {arrivals : List Int} {i j : Nat} (hij : i < j)
    (hj : j < (slotSends spacingMs burst tatMs arrivals).length) :
    ((j : Int) - i - burst + 1) * spacingMs ≤
      (slotSends spacingMs burst tatMs arrivals)[j] -
        (slotSends spacingMs burst tatMs arrivals)[i] := by
  have hnonneg : 0 ≤ spacingMs := by omega
  have htol := tolerance_of_pos spacingMs hburst
  simp only [slot_sends] at hj ⊢
  have hspaced := Gcra.sends_spaced (tolerance_nonneg hnonneg burst) hij hj
  rw [nsmul_eq_mul, Nat.cast_sub hij.le] at hspaced
  have hsplit : ((j : Int) - i - burst + 1) * spacingMs =
      ((j : Int) - i) * spacingMs - spacingMs * (burst - 1) := by ring
  omega

theorem slot_sends_burst {spacingMs : Int} (hspacing : 1 ≤ spacingMs) {burst : Nat}
    (hburst : 1 ≤ burst) {tatMs nowMs : Int} (hidle : tatMs ≤ nowMs - spacingMs * burst)
    (later : List Int) :
    (slotSends spacingMs burst tatMs (List.replicate burst nowMs ++ later)).take burst =
      List.replicate burst nowMs := by
  have hnonneg : 0 ≤ spacingMs := by omega
  have hahead : 0 ≤ spacingMs * burst := mul_nonneg hnonneg (Int.natCast_nonneg burst)
  rw [slot_sends]
  refine Gcra.sends_at_once hnonneg (by omega) (fun i hi => ?_) later
  have hle : (i : Int) ≤ burst - 1 := by omega
  rw [nsmul_eq_mul, tolerance_of_pos spacingMs hburst, mul_comm]
  exact mul_le_mul_of_nonneg_left hle hnonneg

/-- Sends of one bucket are spaced but for one burst, and an idle bucket sends a burst at once. -/
theorem slot_sends_conform {spacingMs : Int} (hspacing : 1 ≤ spacingMs) {burst : Nat}
    (hburst : 1 ≤ burst) (tatMs : Int) :
    (∀ (arrivals : List Int) (i j : Nat) (_ : i < j)
        (hj : j < (slotSends spacingMs burst tatMs arrivals).length),
      ((j : Int) - i - burst + 1) * spacingMs ≤
        (slotSends spacingMs burst tatMs arrivals)[j] -
          (slotSends spacingMs burst tatMs arrivals)[i]) ∧
      ∀ nowMs, tatMs ≤ nowMs - spacingMs * burst → ∀ later,
        (slotSends spacingMs burst tatMs (List.replicate burst nowMs ++ later)).take burst =
          List.replicate burst nowMs :=
  ⟨fun _ _ _ hij hj => slot_sends_spaced hspacing hburst hij hj,
    fun _ hidle later => slot_sends_burst hspacing hburst hidle later⟩

/-- A bucket of two a second apart: the third of three sends at one instant waits a second. -/
theorem burst_of_two_conforms :
    ((2 : Int) - 0 - 2 + 1) * 1000 ≤ (slotSends 1000 2 0 [5000, 5000, 5000])[2] -
        (slotSends 1000 2 0 [5000, 5000, 5000])[0] ∧
      (slotSends 1000 2 0 [5000, 5000, 5000]).take 2 = [5000, 5000] := by
  have hspacing : (1 : Int) ≤ 1000 := by decide
  have hburst : 1 ≤ 2 := by decide
  obtain ⟨hspaced, hidle⟩ := slot_sends_conform hspacing hburst 0
  exact ⟨hspaced [5000, 5000, 5000] 0 2 (by decide) (by decide), hidle 5000 (by decide) [5000]⟩

/-! ## Sending -/

structure ThrottleConfig where
  minSpacingMs : Option Nat := none
  burst : Option Nat := none
  deriving DecidableEq

namespace ThrottleConfig

/-- A spacing of zero is none. -/
def effectiveMinSpacing (config : ThrottleConfig) : Option Nat :=
  match config.minSpacingMs with
  | some 0 => none
  | other => other

def effectiveBurst (config : ThrottleConfig) : Nat :=
  max (config.burst.getD 1) 1

theorem effective_min_spacing_pos {config : ThrottleConfig} {spacing : Nat}
    (h : config.effectiveMinSpacing = some spacing) : 1 ≤ spacing := by
  unfold effectiveMinSpacing at h
  split at h
  · cases h
  · rename_i hne
    rcases Nat.eq_zero_or_pos spacing with rfl | hpos
    · exact absurd h hne
    · exact hpos

theorem effective_burst_pos (config : ThrottleConfig) : 1 ≤ config.effectiveBurst :=
  le_max_right _ _

end ThrottleConfig

def Provider.asStr : Provider → String
  | .anthropic => "anthropic"
  | .codex => "codex"

/-- Telemetry may be exempt from the bucket of its organisation. -/
def throttleExempt (requestClass : RequestClass) : Bool :=
  decide (requestClass = .noise)

def bucketKeyFor (orgUuid orgName : Option String) (idx : Nat) : String :=
  match (presentKey orgUuid).or (presentKey orgName) with
  | some key => "org:" ++ key
  | none => "acct:" ++ toString idx

/-- What `throttle_send` reads and keeps; an absent bucket is at zero. -/
structure Throttle where
  accounts : List AccountRuntime
  accountThrottle : ThrottleConfig := {}
  fleetThrottle : ThrottleConfig := {}
  exemptNoise : Bool := false
  orgTatMs : String → Int := fun _ => 0
  fleetTatMs : Provider → Int := fun _ => 0

/-- A send of an account at an instant. -/
structure Outbound where
  path : String
  idx : Nat
  nowMs : Int
  deriving DecidableEq

namespace Throttle

def throttleBucketKey (s : Throttle) (idx : Nat) : String :=
  let account := s.accounts[idx]?
  let identity := bucketKeyFor (account.bind AccountRuntime.orgUuid)
    (account.bind AccountRuntime.orgName) idx
  match account with
  | some account => account.provider.asStr ++ ":" ++ identity
  | none => identity

/-- The bucket of its organisation that the send is charged to. -/
def orgBucket (s : Throttle) (out : Outbound) : Option (String × Nat) :=
  if s.exemptNoise && throttleExempt (classifyRequest out.path) then none
  else s.accountThrottle.effectiveMinSpacing.map (s.throttleBucketKey out.idx, ·)

def provider (s : Throttle) (idx : Nat) : Option Provider :=
  s.accounts[idx]?.map AccountRuntime.provider

/-- `throttle_send`: the buckets after a send, and the instant it goes out. A send of an account that
is gone is not held back where a fleet is configured. -/
def throttleSend (s : Throttle) (out : Outbound) : Throttle × Int :=
  let (s, allowAt) :=
    match s.orgBucket out with
    | some (key, spacing) =>
      let (newTat, orgAllowAt) := throttleSlot (s.orgTatMs key) out.nowMs spacing
        s.accountThrottle.effectiveBurst
      ({ s with orgTatMs := Function.update s.orgTatMs key newTat }, max out.nowMs orgAllowAt)
    | none => (s, out.nowMs)
  match s.fleetThrottle.effectiveMinSpacing with
  | some spacing =>
    match s.provider out.idx with
    | some provider =>
      let (newTat, fleetAllowAt) := throttleSlot (s.fleetTatMs provider) out.nowMs spacing
        s.fleetThrottle.effectiveBurst
      ({ s with fleetTatMs := Function.update s.fleetTatMs provider newTat },
        max out.nowMs (max allowAt fleetAllowAt))
    | none => (s, out.nowMs)
  | none => (s, max out.nowMs allowAt)

def sendRun : Throttle → List Outbound → List Int
  | _, [] => []
  | s, out :: outs => (s.throttleSend out).2 :: sendRun (s.throttleSend out).1 outs

/-- The bucket of its provider's fleet that the send is charged to. -/
def fleetBucket (s : Throttle) (out : Outbound) : Option (Provider × Nat) :=
  s.fleetThrottle.effectiveMinSpacing.bind fun spacing => (s.provider out.idx).map (·, spacing)

/-- The arrivals of a run, each with the key of its organisation's bucket. -/
def orgArrivals (s : Throttle) (outs : List Outbound) : List (Option String × Int) :=
  outs.map fun out => ((s.orgBucket out).map Prod.fst, out.nowMs)

/-- The arrivals of a run, each with the provider of its fleet's bucket. -/
def fleetArrivals (s : Throttle) (outs : List Outbound) : List (Option Provider × Int) :=
  outs.map fun out => ((s.fleetBucket out).map Prod.fst, out.nowMs)

end Throttle

namespace ThrottleConfig

variable {κ : Type*} [DecidableEq κ]

/-- The spacing, where there is one. -/
def spacingMs (config : ThrottleConfig) : Int :=
  (config.effectiveMinSpacing.getD 0 : Nat)

def toleranceMs (config : ThrottleConfig) : Int :=
  tolerance config.spacingMs config.effectiveBurst

/-- When arrivals would go out if their buckets of one kind decided alone. -/
def sends (config : ThrottleConfig) (tats : κ → Int) (arrivals : List (Option κ × Int)) :
    List Int :=
  Gcra.keyedSends config.spacingMs config.toleranceMs tats arrivals

theorem throttle_slot_keyed {config : ThrottleConfig} {spacing : Nat}
    (h : config.effectiveMinSpacing = some spacing) (tats : κ → Int) (key : κ) (nowMs : Int) :
    Function.update tats key (throttleSlot (tats key) nowMs spacing config.effectiveBurst).1 =
        Gcra.charged config.spacingMs tats (some key) nowMs ∧
      max nowMs (throttleSlot (tats key) nowMs spacing config.effectiveBurst).2 =
        Gcra.sentAt config.toleranceMs tats (some key) nowMs := by
  have hspacing : config.spacingMs = spacing := by rw [spacingMs, h, Option.getD_some]
  rw [toleranceMs, hspacing]
  exact ⟨rfl, rfl⟩

/-- The sends are a spacing apart, but for one burst. -/
def Spaced (config : ThrottleConfig) (spacing : Nat) (sent : List Int) : Prop :=
  ∀ (i j : Nat) (_ : i < j) (hj : j < sent.length),
    ((j : Int) - i - config.effectiveBurst + 1) * spacing ≤ sent[j] - sent[i]

theorem sends_spaced {config : ThrottleConfig} {spacing : Nat}
    (h : config.effectiveMinSpacing = some spacing) (tats : κ → Int) (key : κ)
    (arrivals : List (Option κ × Int)) :
    config.Spaced spacing (Gcra.sendsOf key arrivals (config.sends tats arrivals)) := by
  have hspacing : config.spacingMs = spacing := by rw [spacingMs, h, Option.getD_some]
  have hpos : (1 : Int) ≤ spacing := by exact_mod_cast effective_min_spacing_pos h
  have hsent : Gcra.sendsOf key arrivals (config.sends tats arrivals) =
      slotSends spacing config.effectiveBurst (tats key) (Gcra.arrivalsOf key arrivals) := by
    rw [sends, Gcra.sends_of_keyed, toleranceMs, hspacing, slot_sends]
  rw [hsent]
  exact fun i j hij hj => slot_sends_spaced hpos config.effective_burst_pos hij hj

end ThrottleConfig

namespace Throttle

variable {s : Throttle} {out : Outbound}

theorem org_bucket_spacing {key : String} {spacing : Nat} (h : s.orgBucket out = some (key, spacing)) :
    s.accountThrottle.effectiveMinSpacing = some spacing := by
  unfold orgBucket at h
  split at h
  · cases h
  · obtain ⟨other, hspacing, heq⟩ := Option.map_eq_some_iff.mp h
    cases heq
    exact hspacing

/-- The fleet's bucket of a send of a known account. -/
theorem fleet_bucket_slot {spacing : Nat}
    (h : s.fleetThrottle.effectiveMinSpacing = some spacing) (hknown : (s.provider out.idx).isSome) :
    ∃ provider, s.accounts[out.idx]?.map AccountRuntime.provider = some provider ∧
      (s.fleetBucket out).map Prod.fst = some provider ∧
      Function.update s.fleetTatMs provider (throttleSlot (s.fleetTatMs provider) out.nowMs spacing
          s.fleetThrottle.effectiveBurst).1 =
        Gcra.charged s.fleetThrottle.spacingMs s.fleetTatMs (some provider) out.nowMs ∧
      max out.nowMs (throttleSlot (s.fleetTatMs provider) out.nowMs spacing
          s.fleetThrottle.effectiveBurst).2 =
        Gcra.sentAt s.fleetThrottle.toleranceMs s.fleetTatMs (some provider) out.nowMs := by
  obtain ⟨provider, hprovider⟩ := Option.isSome_iff_exists.mp hknown
  refine ⟨provider, hprovider, ?_, ThrottleConfig.throttle_slot_keyed h _ _ _⟩
  rw [fleetBucket, h, Option.bind_some, hprovider]
  rfl

/-- A send is charged to both its buckets, and goes out at the later of the two. -/
theorem throttle_send_buckets (hknown : s.fleetThrottle.effectiveMinSpacing = none ∨
      (s.provider out.idx).isSome) :
    s.throttleSend out =
      ({ s with
          orgTatMs := Gcra.charged s.accountThrottle.spacingMs s.orgTatMs
            ((s.orgBucket out).map Prod.fst) out.nowMs
          fleetTatMs := Gcra.charged s.fleetThrottle.spacingMs s.fleetTatMs
            ((s.fleetBucket out).map Prod.fst) out.nowMs },
        max (Gcra.sentAt s.accountThrottle.toleranceMs s.orgTatMs
            ((s.orgBucket out).map Prod.fst) out.nowMs)
          (Gcra.sentAt s.fleetThrottle.toleranceMs s.fleetTatMs
            ((s.fleetBucket out).map Prod.fst) out.nowMs)) := by
  cases horg : s.orgBucket out with
  | none =>
    cases hfleet : s.fleetThrottle.effectiveMinSpacing with
    | none => simp [throttleSend, horg, hfleet, fleetBucket, Gcra.charged, Gcra.sentAt]
    | some spacing =>
      obtain ⟨provider, hprovider, hbucket, hcharged, hsent⟩ :=
        fleet_bucket_slot hfleet
          (hknown.resolve_left (by rw [hfleet]; exact Option.some_ne_none spacing))
      rw [hbucket, ← hcharged, ← hsent]
      simp [throttleSend, horg, hfleet, Throttle.provider, hprovider, Gcra.charged, Gcra.sentAt]
  | some bucket =>
    obtain ⟨key, spacing⟩ := bucket
    obtain ⟨hcharged, hsent⟩ := ThrottleConfig.throttle_slot_keyed (org_bucket_spacing horg)
      s.orgTatMs key out.nowMs
    rw [Option.map_some, ← hcharged, ← hsent]
    cases hfleet : s.fleetThrottle.effectiveMinSpacing with
    | none => simp [throttleSend, horg, hfleet, fleetBucket, Gcra.charged, Gcra.sentAt]
    | some spacing =>
      obtain ⟨provider, hprovider, hbucket, hcharged, hsent⟩ :=
        fleet_bucket_slot hfleet
          (hknown.resolve_left (by rw [hfleet]; exact Option.some_ne_none spacing))
      rw [hbucket, ← hcharged, ← hsent]
      simp [throttleSend, horg, hfleet, Throttle.provider, hprovider, max_max_max_comm]

/-- A send waits for the later of its two buckets. -/
theorem send_run (outs : List Outbound)
    (hknown : s.fleetThrottle.effectiveMinSpacing = none ∨
      ∀ out ∈ outs, (s.provider out.idx).isSome) :
    s.sendRun outs =
      List.zipWith max (s.accountThrottle.sends s.orgTatMs (s.orgArrivals outs))
        (s.fleetThrottle.sends s.fleetTatMs (s.fleetArrivals outs)) := by
  induction outs generalizing s with
  | nil => rfl
  | cons out outs ih =>
    have hone : s.fleetThrottle.effectiveMinSpacing = none ∨ (s.provider out.idx).isSome :=
      hknown.imp_right fun h => h out List.mem_cons_self
    rw [sendRun, throttle_send_buckets hone, ih ?_]
    · rfl
    · exact hknown.imp_right fun h out hmem => h out (List.mem_cons_of_mem _ hmem)

/-- With no fleet ceiling the organisations' buckets decide alone. -/
theorem send_run_org (hfleet : s.fleetThrottle.effectiveMinSpacing = none) (outs : List Outbound) :
    s.sendRun outs = s.accountThrottle.sends s.orgTatMs (s.orgArrivals outs) := by
  have hunkeyed : ∀ arrival ∈ s.fleetArrivals outs, arrival.1 = none := by
    intro arrival hmem
    obtain ⟨out, -, rfl⟩ := List.mem_map.mp hmem
    simp [fleetBucket, hfleet]
  have hnow : (s.fleetArrivals outs).map Prod.snd = (s.orgArrivals outs).map Prod.snd := by
    simp [fleetArrivals, orgArrivals]
  rw [send_run outs (.inl hfleet), ThrottleConfig.sends, ThrottleConfig.sends,
    Gcra.keyed_sends_unkeyed hunkeyed, hnow, Gcra.keyed_sends_max]

/-- With no throttle for organisations the fleets' buckets decide alone. -/
theorem send_run_fleet (haccount : s.accountThrottle.effectiveMinSpacing = none)
    (outs : List Outbound) (hknown : ∀ out ∈ outs, (s.provider out.idx).isSome) :
    s.sendRun outs = s.fleetThrottle.sends s.fleetTatMs (s.fleetArrivals outs) := by
  have hunkeyed : ∀ arrival ∈ s.orgArrivals outs, arrival.1 = none := by
    intro arrival hmem
    obtain ⟨out, -, rfl⟩ := List.mem_map.mp hmem
    simp [orgBucket, haccount]
  have hnow : (s.orgArrivals outs).map Prod.snd = (s.fleetArrivals outs).map Prod.snd := by
    simp [fleetArrivals, orgArrivals]
  rw [send_run outs (.inr hknown), ThrottleConfig.sends, ThrottleConfig.sends,
    Gcra.keyed_sends_unkeyed hunkeyed, hnow, List.zipWith_comm_of_comm max_comm,
    Gcra.keyed_sends_max]

/-- Where the organisations' buckets decide alone, the sends of one organisation are spaced. -/
theorem org_sends_spaced (hfleet : s.fleetThrottle.effectiveMinSpacing = none) {spacing : Nat}
    (hspacing : s.accountThrottle.effectiveMinSpacing = some spacing) (outs : List Outbound)
    (key : String) :
    s.accountThrottle.Spaced spacing (Gcra.sendsOf key (s.orgArrivals outs) (s.sendRun outs)) := by
  rw [send_run_org hfleet]
  exact ThrottleConfig.sends_spaced hspacing s.orgTatMs key _

/-- Where the fleets' buckets decide alone, the sends to one provider are spaced. -/
theorem fleet_sends_spaced (haccount : s.accountThrottle.effectiveMinSpacing = none) {spacing : Nat}
    (hspacing : s.fleetThrottle.effectiveMinSpacing = some spacing) (outs : List Outbound)
    (hknown : ∀ out ∈ outs, (s.provider out.idx).isSome) (provider : Provider) :
    s.fleetThrottle.Spaced spacing
      (Gcra.sendsOf provider (s.fleetArrivals outs) (s.sendRun outs)) := by
  rw [send_run_fleet haccount outs hknown]
  exact ThrottleConfig.sends_spaced hspacing s.fleetTatMs provider _

end Throttle

end TeamClaude
