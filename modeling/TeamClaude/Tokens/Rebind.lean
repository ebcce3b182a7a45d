import TeamClaude.Proxy.Rotation
import TeamClaude.Tokens.Store

/-!
# Re-binding a served history

A rebind call reads the entries of a history's tokens, asks the accounts which of them may move, and
then moves them one by one, each only while its entry still names the account it was read with. Any
number of such calls and of records interleave, each operation on a part of the store being atomic.
-/

namespace TeamClaude

/-- An entry as a rebind call read it, with the number of records its hash had had by then. -/
structure ReadEntry where
  hash : String
  minted : Minted
  seen : Nat
  deriving DecidableEq

/-- A call of `rebind_served_history`, between two of its operations. -/
structure RebindCall where
  servedIdx : Nat := 0
  orgBound : Bool := false
  nowMs : Int := 0
  /-- Still to be read. -/
  hashes : List String := []
  /-- Read, on another account, and still to be checked against the accounts. -/
  elsewhere : List ReadEntry := []
  /-- Still to be moved. -/
  moves : List ReadEntry := []

namespace RebindCall

def idle (c : RebindCall) : Bool :=
  c.hashes.isEmpty && c.elsewhere.isEmpty && c.moves.isEmpty

/-- The entries the call has read and not yet moved or passed over. -/
def pending (c : RebindCall) : List ReadEntry :=
  c.elsewhere ++ c.moves

/-- The entry the call moves next, once everything is read and checked. -/
def nextMove (c : RebindCall) : Option ReadEntry :=
  if c.hashes.isEmpty && c.elsewhere.isEmpty then c.moves.head? else none

end RebindCall

/-- What last wrote a token's entry: a record, or a rebind and the records its read had seen. -/
inductive EntrySource
  | recorded
  | rebound (servedIdx seen : Nat)
  deriving DecidableEq

/-- The store, the calls in flight, and the history of each token. -/
structure TokenState where
  store : ShardedBoundTokens
  calls : Nat → RebindCall
  records : String → Nat
  lastRecord : String → Option Nat
  source : String → EntrySource

/-- One atomic operation. -/
inductive TokenAction
  /-- One token of `record_bound_tokens`. -/
  | record (hash : String) (idx : Nat) (kind : BoundTokenKind) (nowMs : Int)
  | start (id : Nat) (hashes : List String) (servedIdx : Nat) (model : Option String) (nowMs : Int)
  /-- The lookup of the call's next hash, by the clock of that moment. -/
  | read (id : Nat) (wallMs : Int)
  /-- The next entry against the accounts: whether the serving account is outside its organization. -/
  | check (id : Nat) (outside : Bool)
  | compare (id : Nat)

namespace TokenState

/-- A thinking block, which an org-bound model drops outside its organization. -/
def isThinking : BoundTokenKind → Bool
  | .thinkingSignature => true
  | .redactedThinking => true
  | .serverToolUse => false
  | .messageId => false

/-- The store before the first operation, with its entries taken for records. -/
def initial (hasher : String → Nat) (store : ShardedBoundTokens) : TokenState where
  store := store
  calls := fun _ => {}
  records := fun _ => 0
  lastRecord := fun hash => ((store.shard hasher hash).get hash).map Minted.idx
  source := fun _ => .recorded

section Step

variable (hasher : String → Nat) (s : TokenState)

/-- The entry of a hash, expired or not. -/
def entry (hash : String) : Option Minted :=
  (s.store.shard hasher hash).get hash

def recordToken (hash : String) (idx : Nat) (kind : BoundTokenKind) (nowMs : Int) : TokenState :=
  { s with
    store := s.store.record hasher hash { idx, kind, ms := nowMs } nowMs
    records := Function.update s.records hash (s.records hash + 1)
    lastRecord := Function.update s.lastRecord hash (some idx)
    source := Function.update s.source hash .recorded }

def setCall (id : Nat) (call : RebindCall) : TokenState :=
  { s with calls := Function.update s.calls id call }

def startCall (id : Nat) (hashes : List String) (servedIdx : Nat) (model : Option String)
    (nowMs : Int) : TokenState :=
  if (s.calls id).idle then
    s.setCall id { servedIdx, orgBound := model.any thinkingIsOrgBound, nowMs, hashes }
  else s

/-- An entry that names the serving account already is not kept. -/
def readNext (id : Nat) (wallMs : Int) : TokenState :=
  let call := s.calls id
  match call.hashes with
  | [] => s
  | hash :: rest =>
    let found := (s.store.get hasher hash wallMs).filter fun m => decide (m.idx ≠ call.servedIdx)
    s.setCall id
      { call with
        hashes := rest
        elsewhere := call.elsewhere ++
          (found.map fun minted => ⟨hash, minted, s.records hash⟩).toList }

/-- A thinking block of an org-bound model stays where it was minted. -/
def checkNext (id : Nat) (outside : Bool) : TokenState :=
  let call := s.calls id
  match call.hashes, call.elsewhere with
  | [], p :: rest =>
    s.setCall id
      { call with
        elsewhere := rest
        moves :=
          if call.orgBound && isThinking p.minted.kind && outside then call.moves
          else call.moves ++ [p] }
  | _, _ => s

/-- The compare-and-set of the call's next entry. -/
def compareNext (id : Nat) : TokenState :=
  let call := s.calls id
  match call.nextMove with
  | none => s
  | some p =>
    let moved := s.store.rebind hasher p.hash p.minted.idx
      { idx := call.servedIdx, kind := p.minted.kind, ms := call.nowMs } call.nowMs
    { s.setCall id { call with moves := call.moves.tail } with
      store := moved.2
      source :=
        if moved.1 then Function.update s.source p.hash (.rebound call.servedIdx p.seen)
        else s.source }

def step : TokenAction → TokenState
  | .record hash idx kind nowMs => s.recordToken hasher hash idx kind nowMs
  | .start id hashes servedIdx model nowMs => s.startCall id hashes servedIdx model nowMs
  | .read id wallMs => s.readNext hasher id wallMs
  | .check id outside => s.checkNext id outside
  | .compare id => s.compareNext hasher id

def written : TokenAction → Option (String × Nat)
  | .record hash idx _ _ => some (hash, idx)
  | .compare id =>
    (s.calls id).nextMove.bind fun p =>
      if (s.entry hasher p.hash).any fun minted => decide (minted.idx = p.minted.idx) then
        some (p.hash, (s.calls id).servedIdx)
      else none
  | _ => none

/-- The step does not put a token under the account a call in flight has read it with, once a record
is newer than that read. -/
def NoReturn (a : TokenAction) : Prop :=
  ∀ hash idx, s.written hasher a = some (hash, idx) →
    ∀ id, ∀ p ∈ (s.calls id).pending, p.hash = hash → p.minted.idx = idx →
      (s.step hasher a).records hash ≤ p.seen

/-- A rebind whose read a record has outdated moves nothing. -/
def KeepsMint (a : TokenAction) : Prop :=
  ∀ id p, a = .compare id → (s.calls id).nextMove = some p → p.seen < s.records p.hash →
    (s.step hasher a).store = s.store

/-- A token names the account of its latest record, or of a rebind whose read saw that record. -/
def Named : Prop :=
  ∀ hash minted, s.entry hasher hash = some minted →
    (s.source hash = .recorded ∧ s.lastRecord hash = some minted.idx) ∨
      s.source hash = .rebound minted.idx (s.records hash)

end Step

/-! ## One step -/

/-- What carries the property: the entries in flight that a record has outdated name an account that
their token is not under. -/
structure Guarded (hasher : String → Nat) (s : TokenState) : Prop where
  seen_le : ∀ id, ∀ p ∈ (s.calls id).pending, p.seen ≤ s.records p.hash
  outdated : ∀ id, ∀ p ∈ (s.calls id).pending, p.seen < s.records p.hash →
    ∀ minted, s.entry hasher p.hash = some minted → minted.idx ≠ p.minted.idx
  named : s.Named hasher

section OneStep

variable {hasher : String → Nat} {s : TokenState}

theorem next_move_pending {c : RebindCall} {p : ReadEntry} (h : c.nextMove = some p) :
    p ∈ c.pending := by
  unfold RebindCall.nextMove at h
  split at h
  · exact List.mem_append_right _ (List.mem_of_head? h)
  · cases h

theorem calls_set_call_self (id : Nat) (call : RebindCall) : (s.setCall id call).calls id = call :=
  Function.update_self _ _ _

theorem calls_set_call_ne {i id : Nat} (call : RebindCall) (h : i ≠ id) :
    (s.setCall id call).calls i = s.calls i :=
  Function.update_of_ne h _ _

/-- A step that changes one call and nothing else keeps what holds, if every entry the call has in
flight was in flight before or has just been read. -/
theorem Guarded.set_call (h : Guarded hasher s) {id : Nat} {call : RebindCall}
    (hp : ∀ p ∈ call.pending, p ∈ (s.calls id).pending ∨ p.seen = s.records p.hash) :
    Guarded hasher (s.setCall id call) := by
  have hcases : ∀ i, ∀ p ∈ ((s.setCall id call).calls i).pending,
      p ∈ (s.calls i).pending ∨ p.seen = s.records p.hash := by
    intro i p hmem
    by_cases hi : i = id
    · subst hi
      rw [calls_set_call_self] at hmem
      exact hp p hmem
    · rw [calls_set_call_ne call hi] at hmem
      exact Or.inl hmem
  refine ⟨fun i p hmem => ?_, fun i p hmem hlt minted hm => ?_, h.named⟩
  · rcases hcases i p hmem with hold | hnew
    · exact h.seen_le i p hold
    · exact hnew.le
  · rcases hcases i p hmem with hold | hnew
    · exact h.outdated i p hold hlt minted hm
    · exact absurd hlt (by rw [hnew]; exact Nat.lt_irrefl _)

theorem Guarded.start (h : Guarded hasher s) (id : Nat) (hashes : List String) (servedIdx : Nat)
    (model : Option String) (nowMs : Int) :
    Guarded hasher (s.startCall id hashes servedIdx model nowMs) := by
  unfold startCall
  split
  · exact h.set_call (by simp [RebindCall.pending])
  · exact h

theorem Guarded.read (h : Guarded hasher s) (id : Nat) (wallMs : Int) :
    Guarded hasher (s.readNext hasher id wallMs) := by
  simp only [readNext]
  split
  · exact h
  · refine h.set_call fun p hp => ?_
    simp only [RebindCall.pending, List.mem_append, Option.mem_toList, Option.map_eq_some_iff] at hp
    rcases hp with (hp | ⟨minted, -, rfl⟩) | hp
    · exact Or.inl (List.mem_append_left _ hp)
    · exact Or.inr rfl
    · exact Or.inl (List.mem_append_right _ hp)

theorem Guarded.check (h : Guarded hasher s) (id : Nat) (outside : Bool) :
    Guarded hasher (s.checkNext id outside) := by
  simp only [checkNext]
  split
  · rename_i q rest _ helse
    refine h.set_call fun p hp => Or.inl ?_
    simp only [RebindCall.pending, List.mem_append] at hp ⊢
    rw [helse]
    rcases hp with hp | hp
    · exact Or.inl (List.mem_cons_of_mem _ hp)
    · split at hp
      · exact Or.inr hp
      · rcases List.mem_append.mp hp with hp | hp
        · exact Or.inr hp
        · exact Or.inl (by rw [List.mem_singleton.mp hp]; exact List.mem_cons_self)
  · exact h

theorem Guarded.record (h : Guarded hasher s) {hash : String} {idx : Nat} {kind : BoundTokenKind}
    {nowMs : Int} (hno : s.NoReturn hasher (.record hash idx kind nowMs)) :
    Guarded hasher (s.recordToken hasher hash idx kind nowMs) := by
  have hself : ∀ minted, (s.recordToken hasher hash idx kind nowMs).entry hasher hash = some minted →
      minted.idx = idx := by
    intro minted hm
    rw [ShardedBoundTokens.get_put_self hm]
  have hother : ∀ k minted, k ≠ hash →
      (s.recordToken hasher hash idx kind nowMs).entry hasher k = some minted →
      s.entry hasher k = some minted :=
    fun k minted hk hm => ShardedBoundTokens.get_put_other hk hm
  have hrecords : (s.recordToken hasher hash idx kind nowMs).records hash = s.records hash + 1 :=
    Function.update_self _ _ _
  have hsame : ∀ k, k ≠ hash → (s.recordToken hasher hash idx kind nowMs).records k = s.records k :=
    fun k hk => Function.update_of_ne hk _ _
  refine ⟨fun id p hp => ?_, fun id p hp hlt minted hm => ?_, fun k minted hm => ?_⟩
  · by_cases hk : p.hash = hash
    · rw [hk, hrecords, ← hk]
      exact (h.seen_le id p hp).trans (Nat.le_succ _)
    · rw [hsame _ hk]
      exact h.seen_le id p hp
  · by_cases hk : p.hash = hash
    · rw [hk] at hm
      rw [hself minted hm]
      intro hidx
      have hle := hno hash idx rfl id p hp hk hidx.symm
      rw [hk] at hlt
      exact absurd hlt (not_lt.mpr hle)
    · rw [hsame _ hk] at hlt
      exact h.outdated id p hp hlt minted (hother _ minted hk hm)
  · by_cases hk : k = hash
    · subst hk
      refine Or.inl ⟨Function.update_self _ _ _, ?_⟩
      rw [hself minted hm]
      exact Function.update_self _ _ _
    · have hold := h.named k minted (hother k minted hk hm)
      have hsource : (s.recordToken hasher hash idx kind nowMs).source k = s.source k :=
        Function.update_of_ne hk _ _
      have hlast : (s.recordToken hasher hash idx kind nowMs).lastRecord k = s.lastRecord k :=
        Function.update_of_ne hk _ _
      rw [hsource, hlast, hsame k hk]
      exact hold

/-- A compare with the entry under another account than it was read with writes nothing. -/
theorem compare_fails {id : Nat} {p : ReadEntry} (hp : (s.calls id).nextMove = some p)
    (hentry : ((s.entry hasher p.hash).any fun m => decide (m.idx = p.minted.idx)) = false) :
    s.compareNext hasher id =
      s.setCall id { s.calls id with moves := (s.calls id).moves.tail } := by
  have hrebind : ∀ value nowMs, s.store.rebind hasher p.hash p.minted.idx value nowMs =
      (false, s.store) := by
    intro value nowMs
    unfold ShardedBoundTokens.rebind
    rw [if_neg]
    intro hany
    rw [show ((s.store.shard hasher p.hash).get p.hash).any _ = false from hentry] at hany
    cases hany
  simp only [compareNext, hp, hrebind]
  rfl

/-- A compare that finds the entry under the account it was read with writes it. -/
theorem compare_moves {id : Nat} {p : ReadEntry} (hp : (s.calls id).nextMove = some p)
    (hentry : ((s.entry hasher p.hash).any fun m => decide (m.idx = p.minted.idx)) = true) :
    s.compareNext hasher id =
      { s.setCall id { s.calls id with moves := (s.calls id).moves.tail } with
        store := s.store.put hasher p.hash
          { idx := (s.calls id).servedIdx, kind := p.minted.kind, ms := (s.calls id).nowMs }
          (s.calls id).nowMs
        source := Function.update s.source p.hash (.rebound (s.calls id).servedIdx p.seen) } := by
  have hrebind : ∀ value nowMs, s.store.rebind hasher p.hash p.minted.idx value nowMs =
      (true, s.store.put hasher p.hash value nowMs) := by
    intro value nowMs
    unfold ShardedBoundTokens.rebind
    rw [if_pos]
    exact hentry
  simp only [compareNext, hp, hrebind]
  rfl

/-- The compare asks for the account alone: an entry back under the account it was read with is
taken, however many records are newer than the read. -/
theorem compare_takes_return {id : Nat} {p : ReadEntry} {minted : Minted}
    (hp : (s.calls id).nextMove = some p) (he : s.entry hasher p.hash = some minted)
    (hidx : minted.idx = p.minted.idx) :
    (s.compareNext hasher id).source p.hash = .rebound (s.calls id).servedIdx p.seen := by
  rw [compare_moves hp (by simp [he, hidx])]
  exact Function.update_self _ _ _

/-- The entries in flight after a call passes over its next one. -/
theorem pending_tail {c : RebindCall} {p : ReadEntry} (h : p ∈ ({ c with moves := c.moves.tail } :
    RebindCall).pending) : p ∈ c.pending := by
  simp only [RebindCall.pending, List.mem_append] at h ⊢
  exact h.imp_right List.mem_of_mem_tail

/-- An outdated entry is no longer under the account it was read with. -/
theorem Guarded.outdated_any (h : Guarded hasher s) {id : Nat} {p : ReadEntry}
    (hp : p ∈ (s.calls id).pending) (hlt : p.seen < s.records p.hash) :
    ((s.entry hasher p.hash).any fun m => decide (m.idx = p.minted.idx)) = false := by
  cases he : s.entry hasher p.hash with
  | none => rfl
  | some minted => simp [h.outdated id p hp hlt minted he]

theorem Guarded.compare (h : Guarded hasher s) {id : Nat}
    (hno : s.NoReturn hasher (.compare id)) : Guarded hasher (s.compareNext hasher id) := by
  cases hp : (s.calls id).nextMove with
  | none =>
    have hsame : s.compareNext hasher id = s := by
      simp only [compareNext, hp]
    rwa [hsame]
  | some p =>
    have hpass : Guarded hasher
        (s.setCall id { s.calls id with moves := (s.calls id).moves.tail }) :=
      h.set_call fun q hq => Or.inl (pending_tail hq)
    cases hentry : (s.entry hasher p.hash).any fun m => decide (m.idx = p.minted.idx) with
    | false => rwa [compare_fails hp hentry]
    | true =>
      have hfresh : p.seen = s.records p.hash := by
        refine le_antisymm (h.seen_le id p (next_move_pending hp)) (not_lt.mp fun hlt => ?_)
        rw [h.outdated_any (next_move_pending hp) hlt] at hentry
        cases hentry
      rw [compare_moves hp hentry]
      refine ⟨hpass.seen_le, fun i q hq hlt minted hm => ?_, fun k minted hm => ?_⟩
      · by_cases hk : q.hash = p.hash
        · have hm' := hk ▸ hm
          rw [ShardedBoundTokens.get_put_self hm']
          intro hidx
          have hq' : q ∈ (s.calls i).pending := by
            replace hq : q ∈ ((s.setCall id
                { s.calls id with moves := (s.calls id).moves.tail }).calls i).pending := hq
            by_cases hi : i = id
            · subst hi
              rw [calls_set_call_self] at hq
              exact pending_tail hq
            · rwa [calls_set_call_ne _ hi] at hq
          have hle := hno p.hash (s.calls id).servedIdx (by simp [written, hp, hentry]) i q hq' hk
            hidx.symm
          have hrecords : (s.step hasher (.compare id)).records = s.records := by
            show (s.compareNext hasher id).records = _
            rw [compare_moves hp hentry]
            rfl
          rw [hrecords, ← hk] at hle
          exact absurd hlt (not_lt.mpr hle)
        · exact hpass.outdated i q hq hlt minted (ShardedBoundTokens.get_put_other hk hm)
      · by_cases hk : k = p.hash
        · subst hk
          refine Or.inr ?_
          rw [ShardedBoundTokens.get_put_self hm]
          refine (Function.update_self _ _ _).trans ?_
          rw [hfresh]
          rfl
        · have hold := h.named k minted (ShardedBoundTokens.get_put_other hk hm)
          have hsource : Function.update s.source p.hash (.rebound (s.calls id).servedIdx p.seen) k =
              s.source k := Function.update_of_ne hk _ _
          show (Function.update s.source p.hash _ k = _ ∧ _) ∨ Function.update s.source p.hash _ k = _
          rw [hsource]
          exact hold

theorem Guarded.step (h : Guarded hasher s) (a : TokenAction) (hno : s.NoReturn hasher a) :
    Guarded hasher (s.step hasher a) := by
  cases a with
  | record hash idx kind nowMs => exact h.record hno
  | start id hashes servedIdx model nowMs => exact h.start id hashes servedIdx model nowMs
  | read id wallMs => exact h.read id wallMs
  | check id outside => exact h.check id outside
  | compare id => exact h.compare hno

theorem Guarded.keeps_mint (h : Guarded hasher s) (a : TokenAction) : s.KeepsMint hasher a := by
  rintro id p rfl hp hlt
  show (s.compareNext hasher id).store = _
  rw [compare_fails hp (h.outdated_any (next_move_pending hp) hlt)]
  rfl

theorem guarded_initial (hasher : String → Nat) (store : ShardedBoundTokens) :
    Guarded hasher (initial hasher store) := by
  refine ⟨fun id p hp => ?_, fun id p hp => ?_, fun hash minted hm => Or.inl ⟨rfl, ?_⟩⟩
  · cases hp
  · cases hp
  · show ((initial hasher store).entry hasher hash).map Minted.idx = _
    rw [hm]
    rfl

end OneStep

/-! ## Runs -/

/-- In every run in which no write puts a token under the account that a call in flight has read it
with before its latest record, no rebind replaces a mint newer than its read, and at every step a
token names the account of its latest record or of a rebind whose read saw that record. -/
theorem rebind_keeps_fresher_mint (hasher : String → Nat) (store : ShardedBoundTokens)
    (actions : List TokenAction)
    (hno : Lib.EachStep (step hasher) (NoReturn hasher) (initial hasher store) actions) :
    Lib.EachStep (step hasher) (KeepsMint hasher) (initial hasher store) actions ∧
    ∀ pre, pre <+: actions → (Lib.exec (step hasher) (initial hasher store) pre).Named hasher := by
  constructor
  · exact Lib.each_step_of_invariant (I := Guarded hasher) (fun s a h hno => h.step a hno)
      (fun s a h _ => h.keeps_mint a) (guarded_initial hasher store) hno
  · intro pre hpre
    exact (Lib.exec_invariant (I := Guarded hasher) (fun s a h hno => h.step a hno)
      (guarded_initial hasher store) hno pre hpre).named

/-- A token minted on account 0, read by a rebind to account 1, and minted once more on account
`idx` before the rebind compares. -/
def remintRun (idx : Nat) : List TokenAction :=
  [.record "00000000" 0 .messageId 0, .start 1 ["00000000"] 1 none 0, .read 1 0, .check 1 false,
    .record "00000000" idx .messageId 1, .compare 1]

def remintState (actions : List TokenAction) : TokenState :=
  Lib.exec (step fun _ => 0) (initial (fun _ => 0) .empty) actions

def callOf : TokenAction → Option Nat
  | .record _ _ _ _ => none
  | .start id _ _ _ _ => some id
  | .read id _ => some id
  | .check id _ => some id
  | .compare id => some id

/-- An operation leaves the other calls where they were. -/
theorem step_calls_ne {hasher : String → Nat} {s : TokenState} {a : TokenAction} {i : Nat}
    (h : callOf a ≠ some i) : (s.step hasher a).calls i = s.calls i := by
  cases a with
  | record hash idx kind nowMs => rfl
  | start id hashes servedIdx model nowMs =>
    have hi : i ≠ id := fun he => h (by rw [he]; rfl)
    simp only [step, startCall]
    split
    · exact calls_set_call_ne _ hi
    · rfl
  | read id wallMs =>
    have hi : i ≠ id := fun he => h (by rw [he]; rfl)
    simp only [step, readNext]
    split
    · rfl
    · exact calls_set_call_ne _ hi
  | check id outside =>
    have hi : i ≠ id := fun he => h (by rw [he]; rfl)
    simp only [step, checkNext]
    split
    · exact calls_set_call_ne _ hi
    · rfl
  | compare id =>
    have hi : i ≠ id := fun he => h (by rw [he]; rfl)
    simp only [step, compareNext]
    split
    · rfl
    · exact calls_set_call_ne _ hi

theorem exec_calls_ne {hasher : String → Nat} {i : Nat} (actions : List TokenAction)
    (s : TokenState) (h : ∀ a ∈ actions, callOf a ≠ some i) :
    (Lib.exec (step hasher) s actions).calls i = s.calls i := by
  induction actions generalizing s with
  | nil => rfl
  | cons a actions ih =>
    rw [Lib.exec_cons, ih _ fun b hb => h b (List.mem_cons_of_mem _ hb)]
    exact step_calls_ne (h a List.mem_cons_self)

theorem no_return_of_unwritten {hasher : String → Nat} {s : TokenState} {a : TokenAction}
    (h : s.written hasher a = none) : s.NoReturn hasher a := by
  intro hash idx hw
  rw [h] at hw
  cases hw

/-- A record on an account no call in flight has read the token with. -/
theorem no_return_record {hasher : String → Nat} {s : TokenState} {hash : String} {idx : Nat}
    {kind : BoundTokenKind} {nowMs : Int}
    (h : ∀ id, ∀ p ∈ (s.calls id).pending, p.minted.idx ≠ idx) :
    s.NoReturn hasher (.record hash idx kind nowMs) := by
  intro hash' idx' hw id p hp _ hidx
  cases hw
  exact absurd hidx (h id p hp)

/-- The second mint is on a third account, so the rebind leaves the token to it. -/
theorem remint_elsewhere_kept : (remintState (remintRun 2)).Named (fun _ => 0) := by
  refine (rebind_keeps_fresher_mint (fun _ => 0) .empty (remintRun 2) ?_).2 _ (List.prefix_refl _)
  rw [remintRun, Lib.each_step_cons, Lib.each_step_cons, Lib.each_step_cons, Lib.each_step_cons,
    Lib.each_step_cons, Lib.each_step_cons]
  refine ⟨no_return_record fun id p hp => ?_, no_return_of_unwritten rfl, no_return_of_unwritten rfl,
    no_return_of_unwritten rfl, no_return_record fun id p hp => ?_,
    no_return_of_unwritten (by decide +kernel), Lib.each_step_nil⟩
  · cases hp
  · replace hp : p ∈ ((remintState ((remintRun 2).take 4)).calls id).pending := hp
    by_cases hid : id = 1
    · subst hid
      have hread : ((remintState ((remintRun 2).take 4)).calls 1).pending =
          [⟨"00000000", ⟨0, .messageId, 0⟩, 1⟩] := by decide +kernel
      rw [hread, List.mem_singleton] at hp
      rw [hp]
      decide
    · rw [remintState, exec_calls_ne] at hp
      · cases hp
      · intro a ha
        simp only [remintRun, List.take_succ_cons, List.take_zero, List.mem_cons, List.not_mem_nil,
          or_false] at ha
        rcases ha with rfl | rfl | rfl | rfl <;> simp [callOf, Ne.symm hid]

/-- The second mint is on the account the rebind read: the compare takes it for the entry it read,
and the token names neither the account of its latest record nor one whose rebind saw it. -/
theorem remint_overwritten :
    ¬ Lib.EachStep (step fun _ => 0) (KeepsMint fun _ => 0) (initial (fun _ => 0) .empty)
        (remintRun 0) ∧
    ¬ (remintState (remintRun 0)).Named (fun _ => 0) := by
  constructor
  · intro h
    have hlast := h ((remintRun 0).take 5) (.compare 1) (List.prefix_refl _) 1
      ⟨"00000000", ⟨0, .messageId, 0⟩, 1⟩ rfl (by decide +kernel) (by decide +kernel)
    have hentry := congrArg (fun store : ShardedBoundTokens =>
      (((store.shard (fun _ => 0) "00000000").get "00000000").map Minted.idx)) hlast
    exact absurd hentry (by decide +kernel)
  · intro h
    have hentry : (remintState (remintRun 0)).entry (fun _ => 0) "00000000" =
        some ⟨1, .messageId, 0⟩ := by decide +kernel
    have hsource : (remintState (remintRun 0)).source "00000000" = .rebound 1 1 := by decide +kernel
    have hrecords : (remintState (remintRun 0)).records "00000000" = 2 := by decide +kernel
    rcases h _ _ hentry with ⟨hs, -⟩ | hs
    · rw [hsource] at hs
      cases hs
    · rw [hsource, hrecords] at hs
      cases hs

end TokenState

end TeamClaude
