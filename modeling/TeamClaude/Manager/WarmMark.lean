import TeamClaude.Manager.CappedSet
import TeamClaude.Manager.PinFile

/-!
# The one-hour mark

A request notes whether it asked for the one-hour cache, and pins its session afterwards. The
flusher copies the pins under one lock and prunes the marks to that copy under the other, so a
session that is noted and pinned in between is pruned against a copy without it.
-/

namespace TeamClaude

open Lib

/-- Where one run of `affinity_pin_snapshot` stands between its lock sections. -/
inductive SnapshotRun
  | idle
  | copied (pins : List LivePin)
  | pruned (pins : List LivePin) (extended : Finset UInt64)
  | returned

/-- The pins and the marks, each under its own lock, and the runs of the flusher. -/
structure WarmMarks where
  affinity : CappedMap UInt64 (Nat × Int64)
  extended : CappedSet UInt64
  runs : Nat → SnapshotRun

/-- One lock section. -/
inductive MarkAct
  | note (key : UInt64) (extended : Bool)
  | pin (key : UInt64) (value : Nat × Int64)
  | copy (run : Nat)
  | prune (run : Nat)
  | build (run : Nat) (accounts : List AccountRuntime)

namespace WarmMarks

/-- `Manager::new` -/
def new : WarmMarks :=
  { affinity := .new affinityCap fun pin => pin.2.toInt
    extended := .new affinityCap
    runs := fun _ => .idle }

def noteAffinityTtl (s : WarmMarks) (key : UInt64) (extended : Bool) : WarmMarks :=
  { s with extended := if extended then (s.extended.insert key).1 else (s.extended.remove key).1 }

def warmWindow (s : WarmMarks) : Option UInt64 → WarmWindow
  | none => .default
  | some key => if key ∈ s.extended.set then .extended else .default

def livePins (s : WarmMarks) : List LivePin :=
  s.affinity.map.entries.map fun e => { key := e.1, index := e.2.1, touchedAtMs := e.2.2 }

def liveKeys (pins : List LivePin) : Finset UInt64 :=
  (pins.map LivePin.key).toFinset

/-- The first lock section of `affinity_pin_snapshot`. -/
def copyPins (s : WarmMarks) (run : Nat) : WarmMarks :=
  match s.runs run with
  | .idle => { s with runs := Function.update s.runs run (.copied s.livePins) }
  | _ => s

/-- The marks that a prune against the pins leaves. -/
def kept (s : WarmMarks) (pins : List LivePin) : CappedSet UInt64 :=
  s.extended.retain fun key => decide (key ∈ liveKeys pins)

/-- The second lock section: a run that copied no pin clears the marks and returns. -/
def pruneMarks (s : WarmMarks) (run : Nat) : WarmMarks :=
  match s.runs run with
  | .copied [] =>
    { s with extended := s.extended.clear, runs := Function.update s.runs run .returned }
  | .copied pins =>
    { s with
      extended := s.kept pins
      runs := Function.update s.runs run (.pruned pins (s.kept pins).set) }
  | _ => s

/-- The end of the run, under the accounts lock. -/
def buildPins (s : WarmMarks) (run : Nat) : WarmMarks :=
  match s.runs run with
  | .pruned _ _ => { s with runs := Function.update s.runs run .returned }
  | _ => s

def step (s : WarmMarks) : MarkAct → WarmMarks
  | .note key extended => s.noteAffinityTtl key extended
  | .pin key value => { s with affinity := s.affinity.insert key value }
  | .copy run => s.copyPins run
  | .prune run => s.pruneMarks run
  | .build run _ => s.buildPins run

/-- What a run that ends with the step returns. -/
def returns (s : WarmMarks) : MarkAct → Option (List StoredPin)
  | .build run accounts =>
    match s.runs run with
    | .pruned pins extended => some (affinityPinSnapshot accounts extended pins)
    | _ => none
  | _ => none

/-! ## What the mark promises -/

/-- A later pin does not push the session's pin out of the map. -/
def PinKept (key : UInt64) (s : WarmMarks) : MarkAct → Prop
  | .pin other value => (s.affinity.put other value).victim other ≠ some key
  | _ => True

/-- The last note of the session said extended, and the session has been pinned since. -/
def Warm (key : UInt64) (acts : List MarkAct) : Prop :=
  ∃ before since, acts = before ++ .note key true :: since ∧
    (∃ value, .pin key value ∈ since) ∧ .note key false ∉ since

/-- A session that was noted and pinned is warm, and the runs begun since return its pin with the
extended window, until it is noted otherwise. -/
structure Survives (start : WarmMarks) (key : UInt64) (acts : List MarkAct) : Prop where
  window : Warm key acts → (exec step start acts).warmWindow (some key) = .extended
  written : ∀ before run between accounts, acts = before ++ .copy run :: between →
    Warm key before → .note key false ∉ between → (exec step start before).runs run = .idle →
    ∀ pins, (exec step start acts).returns (.build run accounts) = some pins →
      (∀ pin ∈ pins, pin.key = key → pin.extendedTtl = true) ∧
      ∀ value, (exec step start before).affinity.get key = some value → value.1 < accounts.length →
        ∃ pin ∈ pins, pin.key = key

/-- A run prunes a marked session only with a copy of the pins that has it, and a note of another
session does not push the mark out of the set. -/
def MarkSpared (key : UInt64) (s : WarmMarks) : MarkAct → Prop
  | .prune run => ∀ pins, s.runs run = .copied pins → key ∈ s.extended.set → key ∈ liveKeys pins
  | .note other true => other ≠ key → key ∈ s.extended.set →
      (s.extended.order.put other (s.extended.next + 1)).victim other ≠ some key
  | _ => True

/-! ## One lock section -/

variable {s start : WarmMarks} {key : UInt64} {act : MarkAct} {acts : List MarkAct}

theorem note_marks (s : WarmMarks) (key : UInt64) :
    key ∈ (s.step (.note key true)).extended.set := by
  simp [step, noteAffinityTtl, CappedSet.insert]

theorem marked_insert {other : UInt64} (h : key ∈ s.extended.set)
    (hspared : other ≠ key →
      (s.extended.order.put other (s.extended.next + 1)).victim other ≠ some key) :
    key ∈ (s.extended.insert other).1.set := by
  unfold CappedSet.insert
  simp only [Finset.mem_insert]
  by_cases hother : other = key
  · exact .inl hother.symm
  · right
    have hvictim := hspared hother
    split
    · rename_i evicted hevicted
      rw [hevicted] at hvictim
      refine Finset.mem_erase.mpr ⟨?_, h⟩
      rintro rfl
      exact hvictim rfl
    · exact h

theorem mem_kept {pins : List LivePin} :
    key ∈ (s.kept pins).set ↔ key ∈ s.extended.set ∧ key ∈ liveKeys pins := by
  simp [kept, CappedSet.retain]

theorem prune_copied {run : Nat} {pins : List LivePin} (h : s.runs run = .copied pins)
    (hlive : key ∈ liveKeys pins) : s.pruneMarks run =
      { s with
        extended := s.kept pins
        runs := Function.update s.runs run (.pruned pins (s.kept pins).set) } := by
  unfold pruneMarks
  cases pins with
  | nil => simp [liveKeys] at hlive
  | cons pin pins => simp only [h]

theorem prune_none {run : Nat} (h : ∀ pins, s.runs run ≠ .copied pins) : s.pruneMarks run = s := by
  unfold pruneMarks
  cases hrun : s.runs run with
  | copied pins => exact absurd hrun (h pins)
  | _ => rfl

theorem copy_spares (s : WarmMarks) (run : Nat) :
    (s.copyPins run).extended = s.extended ∧ (s.copyPins run).affinity = s.affinity := by
  unfold copyPins
  split <;> exact ⟨rfl, rfl⟩

theorem build_spares (s : WarmMarks) (run : Nat) :
    (s.buildPins run).extended = s.extended ∧ (s.buildPins run).affinity = s.affinity := by
  unfold buildPins
  split <;> exact ⟨rfl, rfl⟩

theorem prune_affinity (s : WarmMarks) (run : Nat) : (s.pruneMarks run).affinity = s.affinity := by
  unfold pruneMarks
  split <;> rfl

/-- A section that spares the mark and does not note the session otherwise keeps the mark. -/
theorem marked_step (h : key ∈ s.extended.set) (hspared : MarkSpared key s act)
    (hact : act ≠ .note key false) : key ∈ (s.step act).extended.set := by
  cases act with
  | note other extended =>
    cases extended with
    | true => exact marked_insert h fun hother => hspared hother h
    | false =>
      have hother : key ≠ other := fun he => hact (he ▸ rfl)
      exact Finset.mem_erase.mpr ⟨hother, h⟩
  | pin other value => exact h
  | copy run =>
    rw [step, (copy_spares s run).1]
    exact h
  | prune run =>
    rw [step]
    by_cases hrun : ∃ pins, s.runs run = .copied pins
    · obtain ⟨pins, hrun⟩ := hrun
      have hlive := hspared pins hrun h
      rw [prune_copied hrun hlive]
      exact mem_kept.mpr ⟨h, hlive⟩
    · rw [prune_none fun pins hpins => hrun ⟨pins, hpins⟩]
      exact h
  | build run accounts =>
    rw [step, (build_spares s run).1]
    exact h

theorem marked_run {acts : List MarkAct} (h : key ∈ s.extended.set)
    (hspared : EachStep step (MarkSpared key) s acts) (hacts : .note key false ∉ acts) :
    key ∈ (exec step s acts).extended.set := by
  induction acts generalizing s with
  | nil => exact h
  | cons act acts ih =>
    obtain ⟨hfirst, hrest⟩ := each_step_cons.mp hspared
    rw [List.mem_cons, not_or] at hacts
    exact ih (marked_step h hfirst (Ne.symm hacts.1)) hrest hacts.2

theorem pinned_step (h : (s.affinity.get key).isSome) (hkept : PinKept key s act) :
    ((s.step act).affinity.get key).isSome := by
  cases act with
  | note other extended => exact h
  | pin other value =>
    rw [step]
    by_cases hother : key = other
    · subst hother
      rw [CappedMap.get_insert_self]
      rfl
    · rw [CappedMap.get_insert_ne _ _ hother hkept]
      exact h
  | copy run =>
    rw [step, (copy_spares s run).2]
    exact h
  | prune run =>
    rw [step, prune_affinity]
    exact h
  | build run accounts =>
    rw [step, (build_spares s run).2]
    exact h

theorem pinned_run {acts : List MarkAct} (h : (s.affinity.get key).isSome)
    (hkept : EachStep step (PinKept key) s acts) :
    ((exec step s acts).affinity.get key).isSome := by
  have hkeep : ∀ s act, (s.affinity.get key).isSome → PinKept key s act →
      ((step s act).affinity.get key).isSome := fun s act => pinned_step
  exact exec_invariant (I := fun s => (s.affinity.get key).isSome) hkeep h hkept acts
    List.prefix_rfl

/-! ## Runs -/

/-- A warm session is marked and pinned. -/
theorem warm_spec (hkept : EachStep step (PinKept key) start acts)
    (hspared : EachStep step (MarkSpared key) start acts) (h : Warm key acts) :
    key ∈ (exec step start acts).extended.set ∧
      ((exec step start acts).affinity.get key).isSome := by
  obtain ⟨before, since, rfl, ⟨value, hpin⟩, hnoted⟩ := h
  rw [exec_append, exec_cons]
  have hspared' := (each_step_cons.mp (each_step_append.mp hspared).2).2
  have hkept' := (each_step_cons.mp (each_step_append.mp hkept).2).2
  refine ⟨marked_run (note_marks _ key) hspared' hnoted, ?_⟩
  obtain ⟨early, late, rfl⟩ := List.append_of_mem hpin
  rw [exec_append, exec_cons]
  have hlate := (each_step_cons.mp (each_step_append.mp hkept').2).2
  refine pinned_run ?_ hlate
  simp [step]

theorem mem_live_keys {value : Nat × Int64} (h : s.affinity.get key = some value) :
    { key, index := value.1, touchedAtMs := value.2 } ∈ s.livePins :=
  List.mem_map.mpr ⟨⟨key, value⟩, AList.mem_lookup_iff.mp h, rfl⟩

/-- The run began with the pins, of a session that is still marked: once it has pruned, it holds the
mark. -/
structure Begun (key : UInt64) (run : Nat) (pins : List LivePin) (s : WarmMarks) : Prop where
  marked : key ∈ s.extended.set
  holds : s.runs run = .copied pins ∨ (∃ extended, s.runs run = .pruned pins extended ∧
    key ∈ extended) ∨ s.runs run = .returned

theorem runs_ne {run other : Nat} (hother : run ≠ other) (s : WarmMarks) :
    (s.copyPins other).runs run = s.runs run ∧ (s.pruneMarks other).runs run = s.runs run ∧
      (s.buildPins other).runs run = s.runs run := by
  unfold copyPins pruneMarks buildPins
  refine ⟨?_, ?_, ?_⟩ <;> split <;> simp [hother]

theorem copy_busy {run : Nat} (h : s.runs run ≠ .idle) : s.copyPins run = s := by
  unfold copyPins
  cases hrun : s.runs run with
  | idle => exact absurd hrun h
  | _ => rfl

theorem build_none {run : Nat} (h : ∀ pins extended, s.runs run ≠ .pruned pins extended) :
    s.buildPins run = s := by
  unfold buildPins
  cases hrun : s.runs run with
  | pruned pins extended => exact absurd hrun (h pins extended)
  | _ => rfl

theorem Begun.step {run : Nat} {pins : List LivePin} (h : Begun key run pins s)
    (hlive : key ∈ liveKeys pins) (hspared : MarkSpared key s act) (hact : act ≠ .note key false) :
    Begun key run pins (s.step act) := by
  refine ⟨marked_step h.marked hspared hact, ?_⟩
  have hholds := h.holds
  cases act with
  | note other extended => exact hholds
  | pin other value => exact hholds
  | copy other =>
    by_cases hother : run = other
    · subst hother
      have hbusy : s.runs run ≠ .idle := by
        rcases hholds with hrun | ⟨extended, hrun, -⟩ | hrun <;> simp [hrun]
      rw [WarmMarks.step, copy_busy hbusy]
      exact hholds
    · rw [WarmMarks.step, (runs_ne hother s).1]
      exact hholds
  | prune other =>
    by_cases hother : run = other
    · subst hother
      rcases hholds with hrun | hrest
      · rw [WarmMarks.step, prune_copied hrun hlive]
        refine .inr (.inl ⟨(s.kept pins).set, Function.update_self .., ?_⟩)
        exact mem_kept.mpr ⟨h.marked, hlive⟩
      · have hpruned : ∀ pins, s.runs run ≠ .copied pins := by
          rcases hrest with ⟨extended, hrun, -⟩ | hrun <;> simp [hrun]
        rw [WarmMarks.step, prune_none hpruned]
        exact .inr hrest
    · rw [WarmMarks.step, (runs_ne hother s).2.1]
      exact hholds
  | build other accounts =>
    by_cases hother : run = other
    · subst hother
      by_cases hrun : ∃ pins extended, s.runs run = .pruned pins extended
      · obtain ⟨pins', extended, hrun⟩ := hrun
        right
        right
        rw [WarmMarks.step, buildPins]
        simp only [hrun, Function.update_self]
      · rw [WarmMarks.step, build_none fun pins extended he => hrun ⟨pins, extended, he⟩]
        exact hholds
    · rw [WarmMarks.step, (runs_ne hother s).2.2]
      exact hholds

theorem Begun.run {run : Nat} {pins : List LivePin} (h : Begun key run pins s)
    (hlive : key ∈ liveKeys pins) {acts : List MarkAct}
    (hspared : EachStep WarmMarks.step (MarkSpared key) s acts) (hacts : .note key false ∉ acts) :
    Begun key run pins (exec WarmMarks.step s acts) := by
  induction acts generalizing s with
  | nil => exact h
  | cons act acts ih =>
    obtain ⟨hfirst, hrest⟩ := each_step_cons.mp hspared
    rw [List.mem_cons, not_or] at hacts
    exact ih (h.step hlive hfirst (Ne.symm hacts.1)) hrest hacts.2

theorem Begun.returns {run : Nat} {pins : List LivePin} (h : Begun key run pins s)
    {accounts : List AccountRuntime} {stored : List StoredPin}
    (hreturns : s.returns (.build run accounts) = some stored) :
    ∃ extended, key ∈ extended ∧ stored = affinityPinSnapshot accounts extended pins := by
  rcases h.holds with hrun | ⟨extended, hrun, hmem⟩ | hrun
  · simp [WarmMarks.returns, hrun] at hreturns
  · refine ⟨extended, hmem, ?_⟩
    simpa [WarmMarks.returns, hrun] using hreturns.symm
  · simp [WarmMarks.returns, hrun] at hreturns

/-- In every run that spares the session's mark and keeps its pin, the mark survives the flusher. -/
theorem mark_survives (hkept : EachStep step (PinKept key) start acts)
    (hspared : EachStep step (MarkSpared key) start acts) : Survives start key acts where
  window hwarm := by
    have hmarked := (warm_spec hkept hspared hwarm).1
    exact if_pos hmarked
  written before run between accounts hacts hwarm hnoted hidle stored hreturns := by
    subst hacts
    obtain ⟨hspared, hlater⟩ := each_step_append.mp hspared
    obtain ⟨hmarked, hpinned⟩ := warm_spec (each_step_append.mp hkept).1 hspared hwarm
    rw [exec_append, exec_cons] at hreturns
    set s := exec step start before with hs
    obtain ⟨value, hvalue⟩ := Option.isSome_iff_exists.mp hpinned
    have hlive : key ∈ liveKeys s.livePins :=
      List.mem_toFinset.mpr (List.mem_map.mpr ⟨_, mem_live_keys hvalue, rfl⟩)
    have hcopied : (s.step (.copy run)).runs run = .copied s.livePins := by
      rw [step, copyPins]
      simp only [hidle, Function.update_self]
    have hmarked' : key ∈ (s.step (.copy run)).extended.set := by
      rw [step, (copy_spares s run).1]
      exact hmarked
    have hbegun : Begun key run s.livePins (s.step (.copy run)) := ⟨hmarked', .inl hcopied⟩
    have hend := hbegun.run hlive (each_step_cons.mp hlater).2 hnoted
    obtain ⟨extended, hmem, rfl⟩ := hend.returns hreturns
    refine ⟨fun pin hpin hkey => ?_, fun value hvalue hindex => ?_⟩
    · obtain ⟨live, -, hstored⟩ := List.mem_filterMap.mp hpin
      obtain ⟨account, -, hpinkey, -, hext, -⟩ := stored_eq_some.mp hstored
      rw [hext, ← hpinkey, hkey]
      exact decide_eq_true hmem
    · have hstored : ({ key, index := value.1, touchedAtMs := value.2 } : LivePin).stored accounts
          extended ≠ none := by
        simp [LivePin.stored, List.getElem?_eq_getElem hindex]
      obtain ⟨pin, hpin⟩ := Option.ne_none_iff_exists'.mp hstored
      obtain ⟨account, -, hkey, -⟩ := stored_eq_some.mp hpin
      exact ⟨pin, List.mem_filterMap.mpr ⟨_, mem_live_keys hvalue, hpin⟩, hkey⟩

/-- A session noted and pinned between the runs of the flusher. -/
def orderly : List MarkAct :=
  [.copy 0, .prune 0, .note 5 true, .pin 5 (0, 1000), .copy 1, .prune 1]

theorem pin_kept_self (s : WarmMarks) (key : UInt64) (value : Nat × Int64) :
    PinKept key s (.pin key value) :=
  fun hvictim => CappedMap.victim_ne hvictim rfl

theorem mark_survives_orderly : Survives new 5 orderly := by
  apply mark_survives
  · simp only [orderly, each_step_cons]
    exact ⟨trivial, trivial, trivial, pin_kept_self _ _ _, trivial, trivial, each_step_nil⟩
  · simp only [orderly, each_step_cons]
    refine ⟨trivial, fun pins _ hmarked => ?_, fun hne => absurd rfl hne, trivial, trivial,
      fun pins hpins _ => ?_, each_step_nil⟩
    · cases hmarked
    · obtain rfl := SnapshotRun.copied.inj hpins
      decide

/-- A session noted and pinned within a run of the flusher. -/
def straddled : List MarkAct :=
  [.copy 0, .note 5 true, .pin 5 (0, 1000), .prune 0]

/-- The prune against the pins of before drops the mark of a session that is pinned by now. -/
theorem straddled_forgets :
    EachStep step (PinKept 5) new straddled ∧ ¬ Survives new 5 straddled := by
  constructor
  · simp only [straddled, each_step_cons]
    exact ⟨trivial, trivial, pin_kept_self _ _ _, trivial, each_step_nil⟩
  · intro h
    have hwarm : Warm 5 straddled :=
      ⟨[.copy 0], [.pin 5 (0, 1000), .prune 0], rfl, ⟨(0, 1000), by simp⟩, by simp⟩
    have hwindow := h.window hwarm
    revert hwindow
    decide +kernel

end WarmMarks

end TeamClaude
