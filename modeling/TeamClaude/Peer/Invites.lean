import Mathlib.Algebra.Order.BigOperators.Group.List
import TeamClaude.Machine
import TeamClaude.Lib.Exec
import TeamClaude.Peer.Endpoints
import TeamClaude.Peer.Lend
import TeamClaude.Proxy.Rotation

/-!
# Invites and the rows they pin

An invite is a secret in the peers file with a number of uses left. A joiner whose handshake proved
the secret spends one use and is pinned, in one write under the file lock. The operator mints and
revokes invites, pins and forgets peers, and grants them things.
-/

namespace TeamClaude

open Lib

def maxOutstandingInvites : Nat := 8

/-- The PSK of an invite, 32 random bytes. -/
abbrev InviteSecret := List UInt8

structure ControlGrants where
  briefs : Bool := false
  lendable : Bool := false
  diag : Bool := false
  drop : Bool := false
  deriving DecidableEq

structure Allow where
  relay : Bool := false
  gateway : Bool := false
  carry : Bool := false
  inspect : Bool := false
  allowDisclose : Bool := false
  acceptMove : Bool := false
  control : ControlGrants := {}
  deriving DecidableEq

structure PinnedRow where
  node : PeerId
  label : String
  endpoints : List Endpoint := []
  addedAt : Int
  allow : Allow := {}
  lend : List LendGrant := []

structure PendingInvite where
  id : Nat
  label : String
  secret : InviteSecret
  expiresAtMs : Int
  usesLeft : Nat
  deriving DecidableEq

/-- The peers file, as far as invites and pins go. -/
structure InviteFile where
  listen : Option Net.SocketAddr
  peers : List PinnedRow
  pendingInvites : List PendingInvite

/-- Why no invite is minted. -/
inductive MintRefusal
  | zeroUses
  | label (refusal : LabelRefusal)
  | noListener
  | noAddress
  | tooMany (outstanding : Nat)
  deriving DecidableEq

inductive EnrolRefusal
  | label (refusal : LabelRefusal)
  | noInvite
  deriving DecidableEq

/-- What the operator asks an invite to be, with what chance and the clock make of it. -/
structure MintAsk where
  label : String
  ttlSecs : Nat
  uses : Nat
  id : Nat
  secret : InviteSecret
  addrs : List Net.SocketAddr
  nowMs : Int

namespace PendingInvite

/-- The invite can still admit somebody. -/
def outstanding (invite : PendingInvite) (nowMs : Int) : Bool :=
  decide (0 < invite.usesLeft) && decide (nowMs < invite.expiresAtMs)

def usesOf (secret : InviteSecret) (invite : PendingInvite) : Nat :=
  if invite.secret = secret then invite.usesLeft else 0

/-- One use of the first invite that the secret proves; a spent invite goes. -/
def spend (secret : InviteSecret) (nowMs : Int) : List PendingInvite → Option (List PendingInvite)
  | [] => none
  | invite :: rest =>
    if invite.secret = secret ∧ invite.outstanding nowMs = true then
      if invite.usesLeft - 1 = 0 then some rest
      else some ({ invite with usesLeft := invite.usesLeft - 1 } :: rest)
    else (spend secret nowMs rest).map (invite :: ·)

end PendingInvite

/-- One write of the peers file. -/
inductive InviteAct
  | mint (ask : MintAsk)
  | revoke (id : Nat)
  | enrol (joiner : PeerId) (label : String) (secret : InviteSecret) (nowMs : Int)
  | pin (peer : PeerId) (label : String) (endpoints : List Endpoint) (nowMs : Int)
  | forget (peer : PeerId)
  | grant (peer : PeerId) (allow : Allow) (lend : List LendGrant)

namespace InviteFile

def mintInvite (file : InviteFile) (ask : MintAsk) : Except MintRefusal (PendingInvite × InviteFile) :=
  if ask.uses = 0 then .error .zeroUses
  else
    match sanitizeLabel ask.label with
    | .error refusal => .error (.label refusal)
    | .ok label =>
      if file.listen.isNone then .error .noListener
      else if ask.addrs = [] then .error .noAddress
      else
        let held := file.pendingInvites.filter fun invite => invite.outstanding ask.nowMs
        if maxOutstandingInvites ≤ held.length then .error (.tooMany held.length)
        else
          let invite : PendingInvite :=
            { id := ask.id
              label
              secret := ask.secret
              expiresAtMs := saturatingAdd ask.nowMs (saturatingMul ask.ttlSecs 1000)
              usesLeft := ask.uses }
          .ok (invite, { file with pendingInvites := held ++ [invite] })

def revokeInvite (file : InviteFile) (id : Nat) : InviteFile :=
  { file with pendingInvites := file.pendingInvites.filter fun invite => invite.id ≠ id }

/-- The row goes in front of no other of its node. -/
def replaceRow (file : InviteFile) (row : PinnedRow) : InviteFile :=
  { file with peers := (file.peers.filter fun existing => existing.node ≠ row.node) ++ [row] }

def acceptEnrolment (file : InviteFile) (joiner : PeerId) (label : String) (secret : InviteSecret)
    (nowMs : Int) : Except EnrolRefusal InviteFile :=
  match sanitizeLabel label with
  | .error refusal => .error (.label refusal)
  | .ok label =>
    match PendingInvite.spend secret nowMs file.pendingInvites with
    | none => .error .noInvite
    | some pendingInvites =>
      .ok ({ file with pendingInvites }.replaceRow { node := joiner, label, addedAt := nowMs })

def pinRow (file : InviteFile) (peer : PeerId) (label : String) (endpoints : List Endpoint)
    (nowMs : Int) : Except LabelRefusal InviteFile :=
  match sanitizeLabel label with
  | .error refusal => .error refusal
  | .ok label => .ok (file.replaceRow { node := peer, label, endpoints, addedAt := nowMs })

def forget (file : InviteFile) (peer : PeerId) : InviteFile :=
  { file with peers := file.peers.filter fun row => row.node ≠ peer }

/-- The operator sets what a peer may do. -/
def grant (file : InviteFile) (peer : PeerId) (allow : Allow) (lend : List LendGrant) : InviteFile :=
  { file with
    peers := file.peers.map fun row => if row.node = peer then { row with allow, lend } else row }

/-- A refused call writes nothing. -/
def step (file : InviteFile) : InviteAct → InviteFile
  | .mint ask =>
    match file.mintInvite ask with
    | .ok (_, file') => file'
    | .error _ => file
  | .revoke id => file.revokeInvite id
  | .enrol joiner label secret nowMs =>
    match file.acceptEnrolment joiner label secret nowMs with
    | .ok file' => file'
    | .error _ => file
  | .pin peer label endpoints nowMs =>
    match file.pinRow peer label endpoints nowMs with
    | .ok file' => file'
    | .error _ => file
  | .forget peer => file.forget peer
  | .grant peer allow lend => file.grant peer allow lend

def admits (file : InviteFile) : InviteAct → Option InviteSecret
  | .enrol joiner label secret nowMs =>
    match file.acceptEnrolment joiner label secret nowMs with
    | .ok _ => some secret
    | .error _ => none
  | _ => none

def mints (file : InviteFile) : InviteAct → Option PendingInvite
  | .mint ask =>
    match file.mintInvite ask with
    | .ok (invite, _) => some invite
    | .error _ => none
  | _ => none

def usesLeft (file : InviteFile) (secret : InviteSecret) : Nat :=
  (file.pendingInvites.map (PendingInvite.usesOf secret)).sum

end InviteFile

/-! ## One spent use -/

theorem PendingInvite.spend_uses (other : InviteSecret) {secret : InviteSecret} {nowMs : Int}
    {invites invites' : List PendingInvite} (h : spend secret nowMs invites = some invites') :
    (invites'.map (usesOf other)).sum + (if secret = other then 1 else 0) =
      (invites.map (usesOf other)).sum := by
  induction invites generalizing invites' with
  | nil => cases h
  | cons invite rest ih =>
    unfold spend at h
    split at h
    · rename_i hlive
      obtain ⟨hsecret, hlive⟩ := hlive
      have hleft : 0 < invite.usesLeft := by
        simp only [outstanding, Bool.and_eq_true, decide_eq_true_eq] at hlive
        exact hlive.1
      split at h
      · obtain rfl := Option.some.inj h
        by_cases ho : secret = other
        · simp [usesOf, hsecret, ho]
          omega
        · simp [usesOf, hsecret, ho]
      · obtain rfl := Option.some.inj h
        by_cases ho : secret = other
        · simp [usesOf, hsecret, ho]
          omega
        · simp [usesOf, hsecret, ho]
    · obtain ⟨spent, hspent, rfl⟩ := Option.map_eq_some_iff.mp h
      have := ih hspent
      simp only [List.map_cons, List.sum_cons]
      omega

/-- Nothing is spent on a secret whose invites all ran out of time. -/
theorem PendingInvite.spend_expired {secret : InviteSecret} {deadline nowMs : Int}
    {invites : List PendingInvite} (hlate : deadline ≤ nowMs)
    (hexpired : ∀ invite ∈ invites, invite.secret = secret → invite.expiresAtMs ≤ deadline) :
    spend secret nowMs invites = none := by
  induction invites with
  | nil => rfl
  | cons invite rest ih =>
    unfold spend
    rw [if_neg, ih fun other hin => hexpired other (List.mem_cons_of_mem _ hin)]
    · rfl
    · rintro ⟨hsecret, hlive⟩
      have hdead := hexpired invite List.mem_cons_self hsecret
      simp only [outstanding, Bool.and_eq_true, decide_eq_true_eq] at hlive
      omega

theorem PendingInvite.spend_outstanding {secret : InviteSecret} {nowMs : Int}
    {invites invites' : List PendingInvite} (h : spend secret nowMs invites = some invites') :
    ∃ invite ∈ invites, invite.secret = secret ∧ invite.outstanding nowMs = true := by
  induction invites generalizing invites' with
  | nil => cases h
  | cons invite rest ih =>
    unfold spend at h
    split at h
    · rename_i hlive
      exact ⟨invite, List.mem_cons_self, hlive⟩
    · obtain ⟨spent, hspent, -⟩ := Option.map_eq_some_iff.mp h
      obtain ⟨other, hin, hother⟩ := ih hspent
      exact ⟨other, List.mem_cons_of_mem _ hin, hother⟩

theorem PendingInvite.spend_keeps {secret : InviteSecret} {nowMs : Int}
    {invites invites' : List PendingInvite} (h : spend secret nowMs invites = some invites') :
    ∀ invite' ∈ invites', ∃ invite ∈ invites,
      invite'.secret = invite.secret ∧ invite'.expiresAtMs = invite.expiresAtMs := by
  induction invites generalizing invites' with
  | nil => cases h
  | cons invite rest ih =>
    have hrest : ∀ other ∈ rest, ∃ old ∈ invite :: rest,
        other.secret = old.secret ∧ other.expiresAtMs = old.expiresAtMs :=
      fun other hin => ⟨other, List.mem_cons_of_mem _ hin, rfl, rfl⟩
    unfold spend at h
    split at h
    · split at h
      · obtain rfl := Option.some.inj h
        exact hrest
      · obtain rfl := Option.some.inj h
        intro invite' hin
        rcases List.mem_cons.mp hin with rfl | hin
        · exact ⟨invite, List.mem_cons_self, rfl, rfl⟩
        · exact hrest invite' hin
    · obtain ⟨spent, hspent, rfl⟩ := Option.map_eq_some_iff.mp h
      intro invite' hin
      rcases List.mem_cons.mp hin with rfl | hin
      · exact ⟨invite', List.mem_cons_self, rfl, rfl⟩
      · obtain ⟨old, hold, hsame⟩ := ih hspent invite' hin
        exact ⟨old, List.mem_cons_of_mem _ hold, hsame⟩

namespace InviteFile

variable {file file' : InviteFile}

/-! ## What the calls write -/

theorem mint_cases {ask : MintAsk} {invite : PendingInvite}
    (h : file.mintInvite ask = .ok (invite, file')) :
    invite.secret = ask.secret ∧ invite.usesLeft = ask.uses ∧ file'.peers = file.peers ∧
      file'.pendingInvites =
        (file.pendingInvites.filter fun held => held.outstanding ask.nowMs) ++ [invite] := by
  unfold mintInvite at h
  split at h
  · cases h
  split at h
  · cases h
  split at h
  · cases h
  split at h
  · cases h
  dsimp only at h
  split at h
  · cases h
  cases h
  exact ⟨rfl, rfl, rfl, rfl⟩

theorem enrol_cases {joiner : PeerId} {label : String} {secret : InviteSecret} {nowMs : Int}
    (h : file.acceptEnrolment joiner label secret nowMs = .ok file') :
    ∃ label' invites, PendingInvite.spend secret nowMs file.pendingInvites = some invites ∧
      file' = { file with pendingInvites := invites }.replaceRow
        { node := joiner, label := label', addedAt := nowMs } := by
  unfold acceptEnrolment at h
  split at h
  · cases h
  split at h
  · cases h
  · rename_i label' _ _ invites hspend
    cases h
    exact ⟨label', invites, hspend, rfl⟩

theorem pin_cases {peer : PeerId} {label : String} {endpoints : List Endpoint} {nowMs : Int}
    (h : file.pinRow peer label endpoints nowMs = .ok file') :
    ∃ label', file' = file.replaceRow { node := peer, label := label', endpoints, addedAt := nowMs } := by
  unfold pinRow at h
  split at h
  · cases h
  · rename_i label' _
    cases h
    exact ⟨label', rfl⟩

theorem uses_left_filter (p : PendingInvite → Bool) (invites : List PendingInvite)
    (secret : InviteSecret) : ((invites.filter p).map (PendingInvite.usesOf secret)).sum ≤
      (invites.map (PendingInvite.usesOf secret)).sum :=
  (List.filter_sublist.map _).sum_le_sum fun _ _ => Nat.zero_le _

/-! ## Who is admitted -/

def admission (secret admitted : InviteSecret) : Nat :=
  if admitted = secret then 1 else 0

/-- An admission takes one use, and only minting adds any. -/
theorem step_paid (secret : InviteSecret) (file : InviteFile) (act : InviteAct) :
    ((file.admits act).toList.map (admission secret)).sum + (file.step act).usesLeft secret ≤
      file.usesLeft secret + ((file.mints act).toList.map (PendingInvite.usesOf secret)).sum := by
  cases act with
  | mint ask =>
    simp only [admits, mints, step]
    cases hmint : file.mintInvite ask with
    | error _ => simp
    | ok pair =>
      obtain ⟨invite, file'⟩ := pair
      obtain ⟨-, -, -, hpending⟩ := mint_cases hmint
      have hheld := uses_left_filter (fun held => held.outstanding ask.nowMs) file.pendingInvites
        secret
      simp only [usesLeft, hpending, List.map_append, List.sum_append] at hheld ⊢
      simpa using hheld
  | revoke id =>
    have hheld := uses_left_filter (fun invite => invite.id ≠ id) file.pendingInvites secret
    simpa [admits, mints, step, revokeInvite, usesLeft] using hheld
  | enrol joiner label proved nowMs =>
    simp only [admits, mints, step]
    cases henrol : file.acceptEnrolment joiner label proved nowMs with
    | error _ => simp
    | ok file' =>
      obtain ⟨label', invites, hspend, rfl⟩ := enrol_cases henrol
      have hspent := PendingInvite.spend_uses secret hspend
      simp only [usesLeft, replaceRow, Option.toList, List.map_cons, List.map_nil, List.sum_cons,
        List.sum_nil, admission] at hspent ⊢
      omega
  | pin peer label endpoints nowMs =>
    simp only [admits, mints, step]
    cases hpin : file.pinRow peer label endpoints nowMs with
    | error _ => simp
    | ok file' =>
      obtain ⟨label', rfl⟩ := pin_cases hpin
      simp [usesLeft, replaceRow]
  | forget peer => simp [admits, mints, step, forget, usesLeft]
  | grant peer allow lend => simp [admits, mints, step, grant, usesLeft]

theorem admission_sum (secret : InviteSecret) (admitted : List InviteSecret) :
    (admitted.map (admission secret)).sum = admitted.count secret := by
  induction admitted with
  | nil => rfl
  | cons first rest ih =>
    rw [List.map_cons, List.sum_cons, ih, List.count_cons, admission, Nat.add_comm]
    simp only [beq_iff_eq]

/-- The invites of a secret admit no more joiners than the uses they were minted with, whatever is
revoked, expired or pinned in between. -/
theorem admissions_are_paid (file : InviteFile) (acts : List InviteAct) (secret : InviteSecret) :
    (observed step admits file acts).count secret + (exec step file acts).usesLeft secret ≤
      file.usesLeft secret +
        ((observed step mints file acts).map (PendingInvite.usesOf secret)).sum := by
  have hpaid := observed_paid (fun s : InviteFile => s.usesLeft secret) (admission secret)
    (PendingInvite.usesOf secret) (step_paid secret) file acts
  rwa [admission_sum] at hpaid

def Expired (secret : InviteSecret) (deadline : Int) (file : InviteFile) : Prop :=
  ∀ invite ∈ file.pendingInvites, invite.secret = secret → invite.expiresAtMs ≤ deadline

/-- The step mints no invite of the secret, and an enrolment in it is not before the deadline. -/
def Late (secret : InviteSecret) (deadline : Int) : InviteAct → Prop
  | .mint ask => ask.secret ≠ secret
  | .enrol _ _ _ nowMs => deadline ≤ nowMs
  | _ => True

theorem Expired.step {secret : InviteSecret} {deadline : Int} (hfile : Expired secret deadline file)
    {act : InviteAct} (hlate : Late secret deadline act) :
    Expired secret deadline (file.step act) := by
  cases act with
  | mint ask =>
    simp only [InviteFile.step]
    cases hmint : file.mintInvite ask with
    | error _ => exact hfile
    | ok pair =>
      obtain ⟨invite, file'⟩ := pair
      obtain ⟨hsecret, -, -, hpending⟩ := mint_cases hmint
      intro held hin hsame
      rw [hpending, List.mem_append, List.mem_singleton] at hin
      rcases hin with hin | rfl
      · exact hfile held (List.mem_filter.mp hin).1 hsame
      · exact absurd (hsecret.symm.trans hsame) hlate
  | revoke id => exact fun held hin => hfile held (List.mem_filter.mp hin).1
  | enrol joiner label proved nowMs =>
    simp only [InviteFile.step]
    cases henrol : file.acceptEnrolment joiner label proved nowMs with
    | error _ => exact hfile
    | ok file' =>
      obtain ⟨label', invites, hspend, rfl⟩ := enrol_cases henrol
      intro held hin hsame
      obtain ⟨old, hold, hsecret, hexpires⟩ := PendingInvite.spend_keeps hspend held hin
      rw [hexpires]
      exact hfile old hold (hsecret ▸ hsame)
  | pin peer label endpoints nowMs =>
    simp only [InviteFile.step]
    cases hpin : file.pinRow peer label endpoints nowMs with
    | error _ => exact hfile
    | ok file' =>
      obtain ⟨label', rfl⟩ := pin_cases hpin
      exact hfile
  | forget peer => exact hfile
  | grant peer allow lend => exact hfile

theorem Expired.admits_nobody {secret : InviteSecret} {deadline : Int}
    (hfile : Expired secret deadline file) {act : InviteAct} (hlate : Late secret deadline act) :
    file.admits act ≠ some secret := by
  intro hadmits
  cases act with
  | enrol joiner label proved nowMs =>
    simp only [admits] at hadmits
    cases henrol : file.acceptEnrolment joiner label proved nowMs with
    | error _ =>
      rw [henrol] at hadmits
      cases hadmits
    | ok file' =>
      rw [henrol] at hadmits
      obtain rfl := Option.some.inj hadmits
      obtain ⟨label', invites, hspend, -⟩ := enrol_cases henrol
      rw [PendingInvite.spend_expired hlate hfile] at hspend
      cases hspend
  | _ => cases hadmits

/-- A secret whose invites are revoked or out of time admits nobody until it is minted again. -/
theorem expired_admits_nobody {file : InviteFile} {secret : InviteSecret} {deadline : Int}
    {acts : List InviteAct} (hfile : Expired secret deadline file)
    (hlate : ∀ act ∈ acts, Late secret deadline act) :
    secret ∉ observed step admits file acts := by
  induction acts generalizing file with
  | nil => exact List.not_mem_nil
  | cons act acts ih =>
    obtain ⟨hact, hacts⟩ := List.forall_mem_cons.mp hlate
    rw [observed, List.mem_append, Option.mem_toList]
    rintro (hadmits | hlater)
    · exact hfile.admits_nobody hact hadmits
    · exact ih (hfile.step hact) hacts hlater

def oneInvite : InviteFile :=
  { listen := none
    peers := []
    pendingInvites := [{ id := 1, label := "a", secret := [7], expiresAtMs := 10, usesLeft := 1 }] }

/-- It admits its joiner in time, and nobody afterwards. -/
theorem expired_admits_nobody_once :
    observed step admits oneInvite [.enrol 0 "a" [7] 5] = [[7]] ∧
      [7] ∉ observed step admits oneInvite [.enrol 0 "a" [7] 10, .enrol 1 "b" [7] 20] := by
  have hfile : Expired [7] 10 oneInvite := by
    rintro invite hin -
    obtain rfl := List.mem_singleton.mp hin
    exact le_refl (10 : Int)
  have hlate : ∀ act ∈ [InviteAct.enrol 0 "a" [7] 10, .enrol 1 "b" [7] 20], Late [7] 10 act := by
    simp [Late]
  exact ⟨by decide +kernel, expired_admits_nobody hfile hlate⟩

/-! ## What a row may do -/

/-- Pairing writes a row that may do nothing. -/
def PinnedRow.Powerless (row : PinnedRow) : Prop :=
  row.allow = {} ∧ row.lend = []

/-- The step writes or takes the row of the node. -/
def replaces (file : InviteFile) (node : PeerId) : InviteAct → Bool
  | .enrol joiner label secret nowMs =>
    decide (joiner = node) && (file.acceptEnrolment joiner label secret nowMs).isOk
  | .pin peer label endpoints nowMs =>
    decide (peer = node) && (file.pinRow peer label endpoints nowMs).isOk
  | .forget peer => decide (peer = node)
  | _ => false

/-- The row may do what the other may, and is of its node. -/
def SamePowers (row row' : PinnedRow) : Prop :=
  row'.node = row.node ∧ row'.allow = row.allow ∧ row'.lend = row.lend

theorem replace_row_cases {row written : PinnedRow} (h : row ∈ (file.replaceRow written).peers) :
    row = written ∨ (row ∈ file.peers ∧ row.node ≠ written.node) := by
  rw [replaceRow, List.mem_append, List.mem_singleton, List.mem_filter] at h
  rcases h with ⟨hin, hne⟩ | rfl
  · exact .inr ⟨hin, by simpa using hne⟩
  · exact .inl rfl

/-- A row after a step is newly pinned and may do nothing, was granted its powers by the step, or
had them. -/
theorem step_row_cases {act : InviteAct} {row : PinnedRow} (h : row ∈ (file.step act).peers) :
    PinnedRow.Powerless row ∨ act = .grant row.node row.allow row.lend ∨
      ∃ row₀ ∈ file.peers, SamePowers row row₀ ∧ file.replaces row.node act = false := by
  cases act with
  | mint ask =>
    simp only [step] at h
    cases hmint : file.mintInvite ask with
    | error _ =>
      rw [hmint] at h
      exact .inr (.inr ⟨row, h, ⟨rfl, rfl, rfl⟩, rfl⟩)
    | ok pair =>
      obtain ⟨invite, file'⟩ := pair
      rw [hmint] at h
      obtain ⟨-, -, hpeers, -⟩ := mint_cases hmint
      exact .inr (.inr ⟨row, hpeers ▸ h, ⟨rfl, rfl, rfl⟩, rfl⟩)
  | revoke id => exact .inr (.inr ⟨row, h, ⟨rfl, rfl, rfl⟩, rfl⟩)
  | enrol joiner label secret nowMs =>
    simp only [step] at h
    cases henrol : file.acceptEnrolment joiner label secret nowMs with
    | error _ =>
      rw [henrol] at h
      exact .inr (.inr ⟨row, h, ⟨rfl, rfl, rfl⟩, by simp [replaces, henrol, Except.isOk, Except.toBool]⟩)
    | ok file' =>
      rw [henrol] at h
      obtain ⟨label', invites, -, rfl⟩ := enrol_cases henrol
      rcases replace_row_cases h with rfl | ⟨hin, hne⟩
      · exact .inl ⟨rfl, rfl⟩
      · exact .inr (.inr ⟨row, hin, ⟨rfl, rfl, rfl⟩, by simp [replaces, Ne.symm hne]⟩)
  | pin peer label endpoints nowMs =>
    simp only [step] at h
    cases hpin : file.pinRow peer label endpoints nowMs with
    | error _ =>
      rw [hpin] at h
      exact .inr (.inr ⟨row, h, ⟨rfl, rfl, rfl⟩, by simp [replaces, hpin, Except.isOk, Except.toBool]⟩)
    | ok file' =>
      rw [hpin] at h
      obtain ⟨label', rfl⟩ := pin_cases hpin
      rcases replace_row_cases h with rfl | ⟨hin, hne⟩
      · exact .inl ⟨rfl, rfl⟩
      · exact .inr (.inr ⟨row, hin, ⟨rfl, rfl, rfl⟩, by simp [replaces, Ne.symm hne]⟩)
  | forget peer =>
    obtain ⟨hin, hne⟩ := List.mem_filter.mp h
    have hne : row.node ≠ peer := by simpa using hne
    exact .inr (.inr ⟨row, hin, ⟨rfl, rfl, rfl⟩, by simp [replaces, Ne.symm hne]⟩)
  | grant peer allow lend =>
    obtain ⟨row₀, hin, rfl⟩ := List.mem_map.mp h
    by_cases hnode : row₀.node = peer
    · rw [if_pos hnode]
      exact .inr (.inl (by rw [← hnode]))
    · rw [if_neg hnode]
      exact .inr (.inr ⟨row₀, hin, ⟨rfl, rfl, rfl⟩, rfl⟩)

/-- No step of the run writes or takes the row of the node. -/
def Untouched (node : PeerId) (file : InviteFile) (acts : List InviteAct) : Prop :=
  EachStep step (fun s act => s.replaces node act = false) file acts

/-- The operator granted the row what it may do, and nobody paired or forgot its node since. -/
def Granted (file : InviteFile) (acts : List InviteAct) (row : PinnedRow) : Prop :=
  ∃ before after, acts = before ++ .grant row.node row.allow row.lend :: after ∧
    Untouched row.node (exec step file (before ++ [.grant row.node row.allow row.lend])) after

/-- The row had its powers from the start. -/
def Inherited (file : InviteFile) (acts : List InviteAct) (row : PinnedRow) : Prop :=
  (∃ row₀ ∈ file.peers, SamePowers row row₀) ∧ Untouched row.node file acts

theorem run_row_cases (file : InviteFile) (acts : List InviteAct) :
    ∀ row ∈ (exec step file acts).peers,
      PinnedRow.Powerless row ∨ Granted file acts row ∨ Inherited file acts row := by
  induction acts using List.reverseRecOn with
  | nil =>
    intro row hin
    exact .inr (.inr ⟨⟨row, hin, rfl, rfl, rfl⟩, each_step_nil⟩)
  | append_singleton acts act ih =>
    intro row hin
    rw [exec_snoc] at hin
    rcases step_row_cases hin with hnone | rfl | ⟨row₀, hin₀, ⟨hnode, hallow, hlend⟩, hkept⟩
    · exact .inl hnone
    · exact .inr (.inl ⟨acts, [], rfl, each_step_nil⟩)
    · rcases ih row₀ hin₀ with hnone | ⟨before, after, rfl, huntouched⟩ | ⟨hfirst, huntouched⟩
      · exact .inl ⟨hallow ▸ hnone.1, hlend ▸ hnone.2⟩
      · rw [hnode, hallow, hlend] at huntouched
        refine .inr (.inl ⟨before, after ++ [act], by simp [hnode, hallow, hlend], ?_⟩)
        refine each_step_append.mpr ⟨huntouched, each_step_cons.mpr ⟨?_, each_step_nil⟩⟩
        rw [← exec_append]
        simpa [hnode, hallow, hlend] using hkept
      · obtain ⟨first, hfirst, hfnode, hfallow, hflend⟩ := hfirst
        refine .inr (.inr ⟨⟨first, hfirst, ?_⟩, ?_⟩)
        · exact ⟨hfnode.trans hnode, hfallow.trans hallow, hflend.trans hlend⟩
        · rw [hnode] at huntouched
          exact each_step_append.mpr ⟨huntouched, each_step_cons.mpr ⟨hkept, each_step_nil⟩⟩

/-- A peer that enrols or is pinned again, and one that was forgotten in between, may do nothing
until the operator grants it: no power outlives the pairing it was granted to. -/
theorem powers_are_granted (file : InviteFile) (acts : List InviteAct) :
    ∀ row ∈ (exec step file acts).peers,
      PinnedRow.Powerless row ∨ Granted file acts row ∨ Inherited file acts row :=
  run_row_cases file acts

/-- One peer that may relay nothing yet. -/
def oneRow : InviteFile :=
  { listen := none, peers := [{ node := 1, label := "a", addedAt := 0 }], pendingInvites := [] }

/-- A peer that relays was granted it. -/
theorem powers_are_granted_once :
    Granted oneRow [.grant 1 { relay := true } []]
      { node := 1, label := "a", addedAt := 0, allow := { relay := true } } := by
  have hin : ({ node := 1, label := "a", addedAt := 0, allow := { relay := true } } : PinnedRow) ∈
      (exec InviteFile.step oneRow [.grant 1 { relay := true } []]).peers := by
    simp [InviteFile.step, grant, oneRow]
  rcases powers_are_granted _ _ _ hin with ⟨hnone, -⟩ | hgranted | ⟨⟨row₀, hfirst, -, hallow, -⟩, -⟩
  · exact absurd (congrArg Allow.relay hnone) Bool.noConfusion
  · exact hgranted
  · obtain rfl := List.mem_singleton.mp hfirst
    exact absurd (congrArg Allow.relay hallow) Bool.noConfusion

end InviteFile

end TeamClaude
