import TeamClaude.Peer.State

/-!
# Who lifts a ban

No operation but an unblock of the address takes a ban row away. The key of the row is another
matter: the row holds the key of the last ban of its address that was given one.
-/

namespace TeamClaude

inductive StateOp
  | ban (addr : String) (key : Option PeerId) (reason : BanReason) (nowMs : Int)
  | unblock (addr : String)
  | mute (addr : String) (nowMs : Int)
  | expire (nowMs : Int)
  | reserve (addr : String) (nowMs : Int)
  | record (addr : String) (instanceId : InstanceId) (proposedName : Option String)
      (wireVersion : Nat) (listenPort : Option Nat) (nowMs : Int)
  | release (addr : String) (reservedAtMs : Int)
  | accept (selector : Selector) (nowMs windowSecs : Int)
  | find (selector : Selector)
  | observe (rows : List Found) (nowMs : Int)
  | learnKey (addr : String) (key : PeerId)
  | spendAsk (id : Nat)

def StateOp.apply (s : PeerState) : StateOp → PeerState
  | ban addr key reason nowMs => s.ban addr key reason nowMs
  | unblock addr => (s.unblock addr).2
  | mute addr nowMs => s.mute addr nowMs
  | expire nowMs => (s.expire nowMs).2
  | reserve addr nowMs => (s.reserveKnockSlot addr nowMs).2
  | record addr instanceId proposedName wireVersion listenPort nowMs =>
    (s.recordKnock addr instanceId proposedName wireVersion listenPort nowMs).2
  | release addr reservedAtMs => s.releaseKnockReservation addr reservedAtMs
  | accept selector nowMs windowSecs => (s.acceptKnock selector nowMs windowSecs).2
  | find _ => s
  | observe rows nowMs => s.observeFound rows nowMs
  | learnKey addr key => s.recordPairingKey addr key
  | spendAsk id => (s.spendAsk id).2

/-- The key the call gives the ban of an address. -/
def StateOp.keyFor (addr : String) : StateOp → Option PeerId
  | ban other key _ _ => if other = addr then key else none
  | _ => none

namespace PeerState

def keyHeldAt (s : PeerState) (addr : String) : Option PeerId :=
  (s.banned.find? fun ban => ban.addr = addr).bind Ban.key

variable {s : PeerState} {addr : String} {key : PeerId}

/-! ## What a call may do to the bans -/

@[simp] theorem reserve_banned (s : PeerState) (addr : String) (nowMs : Int) :
    (s.reserveKnockSlot addr nowMs).2.banned = s.banned := by
  unfold reserveKnockSlot
  split
  · rfl
  · split <;> rfl

@[simp] theorem record_banned (s : PeerState) (addr : String) (instanceId : InstanceId)
    (proposedName : Option String) (wireVersion : Nat) (listenPort : Option Nat) (nowMs : Int) :
    (s.recordKnock addr instanceId proposedName wireVersion listenPort nowMs).2.banned =
      s.banned := by
  unfold recordKnock
  split
  · rfl
  split
  · rfl
  split <;> rfl

@[simp] theorem accept_banned (s : PeerState) (selector : Selector) (nowMs windowSecs : Int) :
    (s.acceptKnock selector nowMs windowSecs).2.banned = s.banned := by
  unfold acceptKnock
  split <;> rfl

/-- Only a ban and an unblock write the bans. -/
theorem apply_banned (s : PeerState) (op : StateOp) :
    (op.apply s).banned = s.banned ∨
    (∃ addr key reason nowMs, op = .ban addr key reason nowMs) ∨ ∃ addr, op = .unblock addr := by
  cases op with
  | ban addr key reason nowMs => exact .inr (.inl ⟨addr, key, reason, nowMs, rfl⟩)
  | unblock addr => exact .inr (.inr ⟨addr, rfl⟩)
  | reserve addr nowMs => exact .inl (reserve_banned s addr nowMs)
  | record addr instanceId proposedName wireVersion listenPort nowMs =>
    exact .inl (record_banned s addr instanceId proposedName wireVersion listenPort nowMs)
  | accept selector nowMs windowSecs => exact .inl (accept_banned s selector nowMs windowSecs)
  | mute | expire | release | find | observe | learnKey | spendAsk => exact .inl rfl

theorem address_banned_iff : s.isAddressBanned addr = true ↔ addr ∈ s.banned.map Ban.addr := by
  simp [isAddressBanned]

theorem find_ban_isSome : (s.banned.find? fun ban => ban.addr = addr).isSome =
    s.isAddressBanned addr := by
  rw [isAddressBanned, Bool.eq_iff_iff, List.find?_isSome, List.any_eq_true]

/-- A ban bans its address and takes no other address out. -/
theorem ban_addresses {other : String} (s : PeerState) (key : Option PeerId) (reason : BanReason)
    (nowMs : Int) : (s.ban other key reason nowMs).isAddressBanned addr = true ↔
      addr = other ∨ s.isAddressBanned addr = true := by
  rw [address_banned_iff, address_banned_iff, ban]
  simp only
  split
  · rename_i hb
    have hmap := Lib.map_updateFirst (p := fun ban : Ban => ban.addr = other)
      (f := fun ban => { ban with key := key.or ban.key, reason }) (g := Ban.addr)
      (fun _ _ => rfl) s.banned
    rw [hmap]
    refine ⟨.inr, ?_⟩
    rintro (rfl | h)
    · exact address_banned_iff.mp hb
    · exact h
  · rw [List.map_append, List.mem_append, or_comm]
    simp

theorem unblock_addresses {other : String} (s : PeerState) :
    (s.unblock other).2.isAddressBanned addr = true ↔
      addr ≠ other ∧ s.isAddressBanned addr = true := by
  simp only [isAddressBanned, unblock, List.any_filter, List.any_eq_true, Bool.and_eq_true,
    decide_eq_true_eq]
  constructor
  · rintro ⟨ban, hin, hne, rfl⟩
    exact ⟨hne, ban, hin, rfl⟩
  · rintro ⟨hne, ban, hin, rfl⟩
    exact ⟨ban, hin, hne, rfl⟩

/-- A ban gives its row the key it was given, or leaves the one the row has. -/
theorem ban_key_held {other : String} (s : PeerState) (key : Option PeerId) (reason : BanReason)
    (nowMs : Int) : (s.ban other key reason nowMs).keyHeldAt addr =
      if other = addr then key.or (s.keyHeldAt addr) else s.keyHeldAt addr := by
  unfold keyHeldAt ban
  simp only
  have hfind := @find_ban_isSome s other
  split
  · rename_i hb
    split
    · rename_i hab
      subst hab
      obtain ⟨row, hrow⟩ := Option.isSome_iff_exists.mp (hfind.trans hb)
      have hedit := Lib.find?_updateFirst (p := fun ban : Ban => ban.addr = other)
        (f := fun ban => { ban with key := key.or ban.key, reason }) (fun _ h => h) s.banned
      rw [hedit, hrow]
      rfl
    · rename_i hne
      rw [Lib.find?_updateFirst_ne]
      intro ban hban
      have hba : ban.addr ≠ addr := fun h => hne ((of_decide_eq_true hban).symm.trans h)
      exact ⟨decide_eq_false hba, decide_eq_false hba⟩
  · rename_i hb
    rw [Bool.not_eq_true] at hb
    rw [List.find?_append]
    split
    · rename_i hab
      subst hab
      rw [hb, Option.isSome_eq_false_iff, Option.isNone_iff_eq_none] at hfind
      simp [hfind]
    · rename_i hne
      simp [hne]

theorem unblock_key_held {other : String} (h : other ≠ addr) (s : PeerState) :
    (s.unblock other).2.keyHeldAt addr = s.keyHeldAt addr := by
  unfold keyHeldAt unblock
  rw [List.find?_filter]
  congr 2
  funext ban
  by_cases hb : ban.addr = addr
  · simp [hb, h.symm]
  · simp [hb]

theorem key_banned_of_held (h : s.keyHeldAt addr = some key) : s.isKeyBanned key = true := by
  obtain ⟨row, hrow, hkey⟩ := Option.bind_eq_some_iff.mp h
  rw [isKeyBanned, List.any_eq_true]
  exact ⟨row, List.mem_of_find?_eq_some hrow, decide_eq_true hkey⟩

/-! ## Runs without an unblock of the address -/

/-- A call other than an unblock of the address keeps its ban. -/
theorem address_banned_step {op : StateOp} (hop : op ≠ .unblock addr)
    (h : s.isAddressBanned addr = true) : (op.apply s).isAddressBanned addr = true := by
  rcases apply_banned s op with heq | ⟨other, key, reason, nowMs, rfl⟩ | ⟨other, rfl⟩
  · rw [address_banned_iff, heq, ← address_banned_iff]
    exact h
  · exact (ban_addresses s key reason nowMs).mpr (.inr h)
  · exact (unblock_addresses s).mpr ⟨fun he => hop (congrArg _ he.symm), h⟩

/-- A call other than an unblock of the address writes its row's key only with a key of its own. -/
theorem key_held_step {op : StateOp} (hop : op ≠ .unblock addr) :
    (op.apply s).keyHeldAt addr = (op.keyFor addr).or (s.keyHeldAt addr) := by
  rcases apply_banned s op with heq | ⟨other, key, reason, nowMs, rfl⟩ | ⟨other, rfl⟩
  · have hkeep : (op.apply s).keyHeldAt addr = s.keyHeldAt addr := by
      rw [keyHeldAt, heq, keyHeldAt]
    cases op with
    | ban other key reason nowMs =>
      rw [StateOp.apply, ban_key_held, StateOp.keyFor]
      split <;> rfl
    | _ => exact hkeep
  · rw [StateOp.apply, ban_key_held, StateOp.keyFor]
    split <;> rfl
  · exact unblock_key_held (fun he => hop (congrArg _ he)) s

/-- The key of the last ban of an address in a run that was given one. -/
def lastKey (addr : String) (ops : List StateOp) : Option PeerId :=
  ops.foldl (fun key op => (op.keyFor addr).or key) none

/-- After a run without an unblock of the address its row holds the last key it was given. -/
theorem key_held_run (s : PeerState) {ops : List StateOp} (hops : ∀ op ∈ ops, op ≠ .unblock addr) :
    (Lib.exec StateOp.apply s ops).keyHeldAt addr = (lastKey addr ops).or (s.keyHeldAt addr) := by
  induction ops using List.reverseRecOn with
  | nil => rfl
  | append_singleton ops op ih =>
    rw [Lib.exec_snoc, key_held_step (hops op (by simp)),
      ih fun op' h => hops op' (by simp [h])]
    rw [lastKey, lastKey, List.foldl_append, List.foldl_cons, List.foldl_nil, Option.or_assoc]

theorem last_key_of_all {ops : List StateOp}
    (h : ∀ op ∈ ops, ∀ other, op.keyFor addr = some other → other = key) :
    lastKey addr ops = none ∨ lastKey addr ops = some key := by
  induction ops using List.reverseRecOn with
  | nil => exact .inl rfl
  | append_singleton ops op ih =>
    have hlast : lastKey addr (ops ++ [op]) = (op.keyFor addr).or (lastKey addr ops) := by
      rw [lastKey, lastKey, List.foldl_append, List.foldl_cons, List.foldl_nil]
    rw [hlast]
    cases hk : op.keyFor addr with
    | none => exact ih fun op' hin => h op' (by simp [hin])
    | some other =>
      rw [h op (by simp) other hk]
      exact .inr rfl

end PeerState

/-- Without an unblock of the address its ban stands for ever, and so does the key it was banned
with, where no later ban of the address is given another key. -/
theorem ban_outlives_run (s : PeerState) (addr : String) (ops : List StateOp)
    (hops : ∀ op ∈ ops, op ≠ .unblock addr) :
    (s.isAddressBanned addr = true →
      (Lib.exec StateOp.apply s ops).isAddressBanned addr = true) ∧
    ∀ key reason nowMs,
      (∀ op ∈ ops, ∀ other, op.keyFor addr = some other → other = key) →
      (Lib.exec StateOp.apply (s.ban addr (some key) reason nowMs) ops).isKeyBanned key = true := by
  constructor
  · intro h
    exact Lib.exec_invariant (I := fun s : PeerState => s.isAddressBanned addr = true)
      (A := fun _ op => op ≠ .unblock addr)
      (fun s op hs hop => PeerState.address_banned_step hop hs) h
      (fun pre op hpre => hops op (hpre.subset (by simp))) ops (List.prefix_refl ops)
  · intro key reason nowMs hkeys
    refine @PeerState.key_banned_of_held _ addr _ ?_
    rw [PeerState.key_held_run _ hops, PeerState.ban_key_held, if_pos rfl]
    rcases PeerState.last_key_of_all hkeys with hnone | hsome
    · rw [hnone]
      rfl
    · rw [hsome]
      rfl

/-- A machine banned with its key stays banned while its address knocks and is banned again. -/
theorem banned_key_stays :
    (Lib.exec StateOp.apply (({} : PeerState).ban "10.0.0.5" (some 7) .blocked 0)
      [.reserve "10.0.0.5" 10, .expire 20, .ban "10.0.0.5" none .forgottenAndBlocked 30]).isKeyBanned
        7 = true :=
  (ban_outlives_run {} "10.0.0.5"
    [.reserve "10.0.0.5" 10, .expire 20, .ban "10.0.0.5" none .forgottenAndBlocked 30]
    (by simp)).2 7 .blocked 0 (by simp [StateOp.keyFor])

/-- A second ban of one address with another key lifts the ban of the first key. -/
theorem second_ban_frees_key :
    (({} : PeerState).ban "10.0.0.5" (some 7) .blocked 0).isKeyBanned 7 = true ∧
    (Lib.exec StateOp.apply (({} : PeerState).ban "10.0.0.5" (some 7) .blocked 0)
      [.ban "10.0.0.5" (some 8) .blocked 10]).isKeyBanned 7 = false := by
  decide +kernel

end TeamClaude
