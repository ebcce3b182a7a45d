import TeamClaude.Proxy.Moves

/-!
# A benched account is not tried again

A book of the accounts a request has benched and why, kept from the moves alone: the soft wait takes
back a parked account whose hold has run out, the release of a held conversation takes back what its
hold benched, and nothing takes back any other. The ladder, with its four sets, agrees with the book
over every run, so that no attempt is made on an account that the book has out.
-/

namespace TeamClaude

structure BenchBook where
  handling : Handling
  out : Nat → Option BenchKind
  waited : Bool := false

namespace BenchBook

/-- What a move makes of the book. -/
def enter (out : Nat → Option BenchKind) : Move → Nat → Option BenchKind
  | .idle => out
  | .waited m nowMs => fun idx =>
    if out idx = some .parked ∧ m.holdExpired idx nowMs = true then none else out idx
  | .released => fun idx => if out idx = some .hold then none else out idx
  | .benched idx kind => Function.update out idx (some kind)

def spent (waited : Bool) : Move → Bool
  | .waited _ _ => true
  | _ => waited

theorem enter_waited (out : Nat → Option BenchKind) (m : Manager) (nowMs : Int) (idx : Nat) :
    enter out (.waited m nowMs) idx =
      if out idx = some .parked ∧ m.holdExpired idx nowMs = true then none else out idx := rfl

theorem enter_released (out : Nat → Option BenchKind) (idx : Nat) :
    enter out .released idx = if out idx = some .hold then none else out idx := rfl

def step (ask : Ask) (b : BenchBook) (t : Turn) : BenchBook where
  handling := b.handling.turn ask t
  out := enter b.out (b.handling.observe ask t).move
  waited := spent b.waited (b.handling.observe ask t).move

/-- The accounts outside the request's set are out, and for a held request every other one that was
not. -/
def opening (m : Manager) (ask : Ask) (n : Nat) (boundTo : Option Nat) (idx : Nat) :
    Option BenchKind :=
  if idx < n ∧ outOfScope m ask idx = true then some .scope
  else if idx < n ∧ boundTo.any (fun bound => decide (idx ≠ bound)) = true then some .hold
  else none

def start (m : Manager) (disk : Option Config) (ask : Ask) (o : Opening) : BenchBook where
  handling := openRequest m disk ask o
  out := opening (m.reloadGroupsIfChanged disk) ask m.accounts.length
    (openRequest m disk ask o).boundTo

/-- The turn sends on no account that is out, waits only once, and leaves the ladder and the book in
agreement on who is out. -/
structure KeepsBenched (ask : Ask) (b : BenchBook) (t : Turn) : Prop where
  sent : ∀ idx, (b.handling.observe ask t).sent = some idx → b.out idx = none
  once : ∀ m nowMs, (b.handling.observe ask t).move = .waited m nowMs → b.waited = false
  agrees : ∀ s, (b.step ask t).handling = .running s →
    ∀ idx, idx ∈ s.ladder.tried ↔ (b.step ask t).out idx ≠ none

/-- The four sets of a ladder against the book. -/
structure Keeps (l : Ladder) (out : Nat → Option BenchKind) (waited : Bool) : Prop where
  tried : ∀ idx, idx ∈ l.tried ↔ out idx ≠ none
  parked : ∀ idx, idx ∈ l.parkedTransient ↔ out idx = some .parked
  held : ∀ idx, idx ∈ l.benchedForHold ↔ out idx = some .hold
  next : ∀ idx, l.nextIdx = some idx → idx ∉ l.tried
  waited : l.softWaitedExhaustion = waited

section Keeps

variable {l l' : Ladder} {out : Nat → Option BenchKind} {waited : Bool} {idx : Nat}

theorem Keeps.in_of_untried (h : Keeps l out waited) (huntried : idx ∉ l.tried) : out idx = none := by
  by_contra hout
  exact huntried ((h.tried idx).mpr hout)

theorem Keeps.chosen {s : Rotation} (h : Keeps s.ladder out waited) (hchosen : s.Chosen idx) :
    idx ∉ s.ladder.tried :=
  hchosen.elim (h.next idx) And.right

theorem Keeps.same (h : Keeps l out waited) (hsame : l.SameBenches l') : Keeps l' out waited where
  tried i := by rw [hsame.tried]; exact h.tried i
  parked i := by rw [hsame.parkedTransient]; exact h.parked i
  held i := by rw [hsame.benchedForHold]; exact h.held i
  next i := by rw [hsame.nextIdx, hsame.tried]; exact h.next i
  waited := hsame.softWaitedExhaustion.trans h.waited

theorem Keeps.set_next (h : Keeps l out waited) {next : Option Nat}
    (hnext : ∀ idx, next = some idx → idx ∉ l.tried) : Keeps (l.setNext next) out waited :=
  ⟨h.tried, h.parked, h.held, hnext, h.waited⟩

theorem Keeps.clear_next (h : Keeps l out waited) : Keeps (l.setNext none) out waited :=
  h.set_next fun _ heq => by cases heq

theorem not_named (hnone : l.nextIdx = none) (out : Finset Nat) :
    ∀ idx, l.nextIdx = some idx → idx ∉ out := by
  intro idx hnext
  rw [hnone] at hnext
  cases hnext

theorem Keeps.mem_insert_tried (h : Keeps l out waited) (idx : Nat) (kind : BenchKind) (i : Nat) :
    i ∈ insert idx l.tried ↔ Function.update out idx (some kind) i ≠ none := by
  rw [Finset.mem_insert, Function.update_apply, h.tried]
  by_cases heq : i = idx
  · simp [heq]
  · simp [heq]

theorem update_other {kind other : BenchKind} (hin : out idx = none) (hne : kind ≠ other) (i : Nat) :
    Function.update out idx (some kind) i = some other ↔ out i = some other := by
  rw [Function.update_apply]
  by_cases heq : i = idx
  · simp [heq, hin, hne]
  · simp [heq]

/-- An account joins the benched ones, by a move that neither parks nor holds it. -/
theorem Keeps.bench (h : Keeps l out waited) (huntried : idx ∉ l.tried) (hnone : l.nextIdx = none)
    {kind : BenchKind} (hparked : kind ≠ .parked) (hheld : kind ≠ .hold) :
    Keeps (l.bench idx) (Function.update out idx (some kind)) waited := by
  have hin := h.in_of_untried huntried
  exact ⟨h.mem_insert_tried idx kind, fun i => (h.parked i).trans (update_other hin hparked i).symm,
    fun i => (h.held i).trans (update_other hin hheld i).symm, not_named hnone _, h.waited⟩

theorem Keeps.park (h : Keeps l out waited) (huntried : idx ∉ l.tried) (hnone : l.nextIdx = none) :
    Keeps (l.park idx) (Function.update out idx (some .parked)) waited := by
  have hin := h.in_of_untried huntried
  refine ⟨h.mem_insert_tried idx .parked, fun i => ?_,
    fun i => (h.held i).trans (update_other hin (by simp) i).symm, not_named hnone _, h.waited⟩
  show i ∈ insert idx l.parkedTransient ↔ _
  rw [Finset.mem_insert, Function.update_apply, h.parked]
  by_cases heq : i = idx
  · simp [heq]
  · simp [heq]

/-- The wait is over: the parked accounts whose hold has run out are back. -/
theorem Keeps.readmit (h : Keeps l out waited) (hnone : l.nextIdx = none) (m : Manager)
    (nowMs : Int) :
    Keeps (l.spendSoftWait.readmitExpiredParks m nowMs) (enter out (.waited m nowMs)) true := by
  have hfreed : ∀ i, i ∈ l.freed m nowMs ↔ out i = some .parked ∧ m.holdExpired i nowMs = true := by
    intro i
    rw [Ladder.freed, Finset.mem_filter, h.parked]
  refine ⟨fun i => ?_, fun i => ?_, fun i => ?_, not_named hnone _, rfl⟩
  · show i ∈ l.tried \ l.freed m nowMs ↔ _
    rw [Finset.mem_sdiff, hfreed, h.tried, enter_waited]
    split
    · rename_i hback
      simp [hback]
    · rename_i hstay
      simp [hstay]
  · show i ∈ l.parkedTransient \ l.freed m nowMs ↔ _
    rw [Finset.mem_sdiff, hfreed, h.parked, enter_waited]
    split
    · rename_i hback
      simp [hback]
    · rename_i hstay
      simp [hstay]
  · show i ∈ l.benchedForHold ↔ _
    rw [h.held, enter_waited]
    split
    · rename_i hback
      simp [hback.1]
    · rfl

/-- The hold is released: what it benched is back. -/
theorem Keeps.release (h : Keeps l out waited) (hnone : l.nextIdx = none) :
    Keeps l.releaseHold (enter out .released) waited := by
  refine ⟨fun i => ?_, fun i => ?_, fun i => ?_, not_named hnone _, h.waited⟩
  · show i ∈ l.tried \ l.benchedForHold.toFinset ↔ _
    rw [Finset.mem_sdiff, List.mem_toFinset, h.held, h.tried, enter_released]
    split
    · rename_i hback
      simp [hback]
    · rename_i hstay
      simp [hstay]
  · show i ∈ l.parkedTransient ↔ _
    rw [h.parked, enter_released]
    split
    · rename_i hback
      simp [hback]
    · rfl
  · show i ∈ ([] : List Nat) ↔ _
    rw [enter_released]
    split
    · simp
    · rename_i hstay
      simp [hstay]

end Keeps

section Turned

variable {ask : Ask} {s : Rotation} {t : Turn} {out : Nat → Option BenchKind} {waited : Bool}

/-- The ladder of a picked account, once the attempt has run. -/
theorem Keeps.attempted (h : Keeps s.ladder out waited) {l : Ladder}
    (hsame : (s.ladder.setNext none).SameBenches l) : Keeps l out waited ∧ l.nextIdx = none :=
  ⟨h.clear_next.same hsame, hsame.nextIdx⟩

theorem Keeps.turned (h : Keeps s.ladder out waited) {o : Observed} {h' : Handling}
    (hturned : s.Turned t o h') {s' : Rotation} (hs' : h' = .running s') :
    Keeps s'.ladder (enter out o.move) (spent waited o.move) := by
  cases hturned with
  | replied reply => cases hs'
  | waited hnext hfirst hladder hbound =>
    cases hs'
    rw [hladder]
    exact h.readmit hnext _ _
  | released hnext hheld hladder huntried hbound =>
    cases hs'
    rw [hladder]
    exact (h.release hnext).set_next huntried
  | unsendable hchosen hladder hbound =>
    cases hs'
    rw [hladder]
    exact h.clear_next.bench (h.chosen hchosen) rfl (by simp) (by simp)
  | finished hchosen hsend reply => cases hs'
  | retried hchosen hsend hsame hladder hbound =>
    cases hs'
    obtain ⟨hl, -⟩ := h.attempted hsame
    rw [hladder]
    refine hl.set_next fun idx heq => ?_
    obtain rfl := Option.some_injective _ heq
    rw [hsame.tried]
    exact h.chosen hchosen
  | rotated hchosen hsend hsame hladder hbound =>
    cases hs'
    obtain ⟨hl, hnone⟩ := h.attempted hsame
    rw [hladder]
    exact hl.bench (hsame.tried ▸ h.chosen hchosen) hnone (by simp) (by simp)
  | parked hchosen hsend hsame hladder hbound =>
    cases hs'
    obtain ⟨hl, hnone⟩ := h.attempted hsame
    rw [hladder]
    exact hl.park (hsame.tried ▸ h.chosen hchosen) hnone
  | @failedOver _ l idx other hchosen hsend hsame hother hladder hbound =>
    cases hs'
    obtain ⟨hl, hnone⟩ := h.attempted hsame
    have hbenched : Keeps (l.bench idx) (Function.update out idx (some .failedOver)) waited :=
      hl.bench (hsame.tried ▸ h.chosen hchosen) hnone (by simp) (by simp)
    have hnamed : Keeps ((l.bench idx).setNext (some other))
        (Function.update out idx (some .failedOver)) waited :=
      hbenched.set_next fun i heq => Option.some_injective _ heq ▸ hother
    rw [hladder]
    exact hnamed.same ⟨rfl, rfl, rfl, rfl, rfl⟩

theorem Keeps.sent (h : Keeps s.ladder out waited) {o : Observed} {h' : Handling}
    (hturned : s.Turned t o h') {idx : Nat} (hsent : o.sent = some idx) : out idx = none := by
  refine h.in_of_untried ?_
  cases hturned with
  | finished hchosen | retried hchosen | rotated hchosen | parked hchosen | failedOver hchosen =>
    obtain rfl := Option.some_injective _ hsent
    exact h.chosen hchosen
  | _ => cases hsent

theorem Keeps.once (h : Keeps s.ladder out waited) {o : Observed} {h' : Handling}
    (hturned : s.Turned t o h') {m : Manager} {nowMs : Int} (hmove : o.move = .waited m nowMs) :
    waited = false := by
  cases hturned with
  | waited hnext hfirst hladder hbound => exact h.waited.symm.trans hfirst
  | _ => cases hmove

end Turned

def Agrees (b : BenchBook) : Prop :=
  ∀ s, b.handling = .running s → Keeps s.ladder b.out b.waited

theorem agrees_step {ask : Ask} {b : BenchBook} (h : b.Agrees) (t : Turn) : (b.step ask t).Agrees := by
  intro s' hs'
  obtain ⟨handling, out, waited⟩ := b
  cases handling with
  | answered reply => cases hs'
  | running s => exact (h s rfl).turned (s.turned ask t) hs'

theorem keeps_benched_of_agrees {ask : Ask} {b : BenchBook} (h : b.Agrees) (t : Turn) :
    b.KeepsBenched ask t := by
  have hnext : (b.step ask t).Agrees := agrees_step h t
  obtain ⟨handling, out, waited⟩ := b
  cases handling with
  | answered reply =>
    refine ⟨fun idx hsent => ?_, fun m nowMs hmove => ?_, fun s hs => ?_⟩
    · cases hsent
    · cases hmove
    · cases hs
  | running s =>
    have hturned := s.turned ask t
    exact ⟨fun idx => (h s rfl).sent hturned, fun m nowMs => (h s rfl).once hturned,
      fun s' hs' => (hnext s' hs').tried⟩

section Opened

variable (m : Manager) (ask : Ask) (n bound : Nat)

theorem opening_free (idx : Nat) : opening m ask n none idx =
    if idx < n ∧ outOfScope m ask idx = true then some .scope else none := by
  simp [opening]

theorem opening_held (idx : Nat) : opening m ask n (some bound) idx =
    if idx < n ∧ outOfScope m ask idx = true then some .scope
    else if idx < n ∧ idx ≠ bound then some .hold else none := by
  simp [opening]

theorem keeps_in_scope : Keeps (Ladder.inScope m ask n) (opening m ask n none) false := by
  obtain ⟨hheld, hnext, hparked, hwaited⟩ := Ladder.fresh_in_scope m ask n
  refine ⟨fun i => ?_, fun i => ?_, fun i => ?_, not_named hnext _, hwaited⟩
  · rw [Ladder.mem_in_scope, opening_free]
    split
    · rename_i hout
      simp [hout]
    · rename_i hin
      simp [hin]
  · rw [hparked, opening_free]
    split
    · simp
    · simp
  · rw [hheld, opening_free]
    split
    · simp
    · simp

/-- The hold remembers the accounts it benches, and not those that are outside the set anyway. -/
theorem keeps_hold_to : Keeps ((Ladder.inScope m ask n).holdTo bound n)
    (opening m ask n (some bound)) false := by
  obtain ⟨hheld, hnext, hparked, hwaited⟩ := Ladder.fresh_in_scope m ask n
  obtain ⟨hnext', hparked', hwaited'⟩ := Ladder.hold_to_rest bound n (Ladder.inScope m ask n)
  refine ⟨fun i => ?_, fun i => ?_, fun i => ?_, not_named (hnext'.trans hnext) _,
    hwaited'.trans hwaited⟩
  · rw [Ladder.mem_hold_to, Ladder.mem_in_scope, opening_held]
    split
    · rename_i hout
      simp [hout]
    split
    · rename_i hbenched
      simp [hbenched]
    · rename_i hout hin
      simp [hout, hin]
  · rw [hparked', hparked, opening_held]
    split
    · simp
    split
    · simp
    · simp
  · rw [Ladder.mem_held_hold_to, Ladder.mem_in_scope, hheld, opening_held]
    split
    · rename_i hout
      simp [hout]
    split
    · rename_i hout hbenched
      have hinside : ¬outOfScope m ask i = true := fun houtside => hout ⟨hbenched.1, houtside⟩
      simp [hinside, hbenched]
    · rename_i hout hin
      simp [hin]

end Opened

theorem agrees_start (m : Manager) (disk : Option Config) (ask : Ask) (o : Opening) :
    (start m disk ask o).Agrees := by
  intro s hs
  have hopened := opened m disk ask o
  have hrun : openRequest m disk ask o = .running s := hs
  show Keeps s.ladder (opening (m.reloadGroupsIfChanged disk) ask m.accounts.length
    (openRequest m disk ask o).boundTo) false
  rw [hrun] at hopened ⊢
  show Keeps s.ladder (opening _ ask _ s.boundTo) false
  cases hopened with
  | free hladder huntried hbound =>
    rw [hladder, hbound]
    exact (keeps_in_scope _ ask _).set_next huntried
  | held hladder hbound =>
    rw [hladder, hbound]
    exact keeps_hold_to _ ask _ _

/-- Over every run of the rotation, no attempt is made on a benched account: the soft wait, which
happens once, takes back only parked accounts whose hold has run out, and the release of a hold only
what that hold benched. -/
theorem benched_stays_out (m : Manager) (disk : Option Config) (ask : Ask) (o : Opening)
    (turns : List Turn) :
    Lib.EachStep (step ask) (KeepsBenched ask) (start m disk ask o) turns :=
  Lib.each_step_of_invariant (I := Agrees) (A := fun _ _ => True) (fun _ t h _ => agrees_step h t)
    (fun _ t h _ => keeps_benched_of_agrees h t) (agrees_start m disk ask o) fun _ _ _ => trivial

end BenchBook

end TeamClaude
