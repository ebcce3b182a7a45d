import TeamClaude.Manager.Identity
import TeamClaude.Lib.Json
import TeamClaude.Lib.Pairing

/-!
# Pairing file entries with loaded accounts

A credential write decides for the whole `accounts` array at once which loaded account owns which
entry. An entry is written only when it and the account resolve to each other among what is still
unpaired; every commitment takes both out of the pool and may so settle further entries.
-/

namespace TeamClaude

open Lib.Json Lib.Pairing

/-! ## Reading an entry -/

structure DiskIdentity where
  name : String
  accountUuid : Option String
  orgUuid : Option String
  orgName : Option String

/-- An optional string field, by its derived reader: absent and `null` are nothing, and anything
else that is no string fails. -/
def optionalStr (entry : Value) (key : String) : Option (Option String) :=
  match entry.get key with
  | none => some none
  | some .null => some none
  | some (.string s) => some (some s)
  | some _ => none

def DiskIdentity.ofEntry (entry : Value) : Option DiskIdentity := do
  let name ← entry.str "name"
  let accountUuid ← optionalStr entry "accountUuid"
  let orgUuid ← optionalStr entry "orgUuid"
  let orgName ← optionalStr entry "orgName"
  return { name, accountUuid, orgUuid, orgName }

/-- A unit variant is spelled as a string, or as an object of that one key holding `null`. -/
def Provider.ofValue (v : Value) : Option Provider :=
  let named := fun name : String =>
    if name = "anthropic" then some Provider.anthropic
    else if name = "codex" then some Provider.codex
    else none
  match v with
  | .string name => named name
  | .object [(name, .null)] => named name
  | _ => none

/-- An absent key is Anthropic; a value this build does not know is no provider at all. -/
def providerOfEntry (entry : Value) : Option Provider :=
  match entry.get "provider" with
  | none => some .anthropic
  | some value => Provider.ofValue value

def probe (provider : Provider) (stored : DiskIdentity) : Account where
  name := stored.name
  provider
  accountUuid := stored.accountUuid
  orgUuid := stored.orgUuid
  orgName := stored.orgName

inductive SkipReason
  | notAnObject
  | noIdentity
  | noMemoryMatch
  | ambiguous
  | credentialEncoding
  deriving DecidableEq

/-- What is decided about one entry: the account at a position is written, or nothing is. -/
inductive EntryPlan
  | write (position : Nat)
  | skip (reason : SkipReason)
  deriving DecidableEq

/-- The identity an entry is matched by, or why none is. -/
def probeOfEntry (entry : Value) : Except SkipReason Account :=
  if entry.isObject then
    match DiskIdentity.ofEntry entry with
    | none => .error .noIdentity
    | some stored =>
      match providerOfEntry entry with
      | none => .error .noMemoryMatch
      | some provider => .ok (probe provider stored)
  else .error .notAnObject

/-! ## The pairing -/

/-- `identity::resolve` over candidates that carry their own index. -/
def resolveAmong (candidates : List (Nat × Account)) (target : Account) : Resolved :=
  match (candidates.filter fun c => sameIdentity target c.2).map Prod.fst,
    (candidates.filter fun c => sameIdentityStrict target c.2).map Prod.fst with
  | [], _ => .none
  | [only], _ => .one only
  | _, [only] => .one only
  | _, _ => .many

structure Pairing where
  plan : List (Option EntryPlan)
  claimed : List Bool
  progressed : Bool := false

namespace Pairing

variable (probes : List (Option Account)) (memory : List Account)

/-- The loaded accounts no entry has been paired with. -/
def unclaimed (s : Pairing) : List (Nat × Account) :=
  (memory.zipIdx.map Prod.swap).filter fun c => s.claimed[c.1]? = some false

/-- The entries whose plan is still open. -/
def unsettled (s : Pairing) : List (Nat × Account) :=
  probes.zipIdx.filterMap fun c =>
    if s.plan[c.2]? = some none then c.1.map fun probe => (c.2, probe) else none

/-- The identity of an entry whose plan is still open. -/
def openProbe (s : Pairing) (index : Nat) : Option Account :=
  if s.plan[index]? = some none then probes[index]?.join else none

/-- The entry is settled with the account, which is claimed. -/
def commit (s : Pairing) (index position : Nat) : Pairing where
  plan := s.plan.set index (some (.write position))
  claimed := s.claimed.set position true
  progressed := true

/-- Pair one entry with the account it resolves to, if that account resolves to the entry. -/
def pairOne (s : Pairing) (index : Nat) : Pairing :=
  match s.openProbe probes index with
  | none => s
  | some probe =>
    match resolveAmong (s.unclaimed memory) probe with
    | .one position =>
      match memory[position]? with
      | none => s
      | some account =>
        if resolveAmong (s.unsettled probes) account = .one index then s.commit index position
        else s
    | _ => s

/-- One pass over the entries. -/
def round (s : Pairing) : Pairing :=
  (List.range probes.length).foldl (pairOne probes memory) { s with progressed := false }

/-- Passes until one pairs nothing. -/
def settle : Nat → Pairing → Pairing
  | 0, s => s
  | fuel + 1, s =>
    let s' := s.round probes memory
    if s'.progressed then settle fuel s' else s'

def leftOver (s : Pairing) (index : Nat) : Option EntryPlan :=
  (s.openProbe probes index).map fun probe =>
    .skip (if resolveAmong (s.unclaimed memory) probe = .none then .noMemoryMatch else .ambiguous)

end Pairing

def probesOf (entries : List Value) : List (Option Account) :=
  entries.map fun entry => (probeOfEntry entry).toOption

/-- Nothing is paired; an entry without an identity is already settled. -/
def Pairing.start (entries : List Value) (memory : List Account) : Pairing where
  plan := entries.map fun entry =>
    match probeOfEntry entry with
    | .error reason => some (.skip reason)
    | .ok _ => none
  claimed := List.replicate memory.length false

def Pairing.final (entries : List Value) (memory : List Account) : Pairing :=
  (Pairing.start entries memory).settle (probesOf entries) memory (entries.length + 1)

def planMerge (entries : List Value) (memory : List Account) : List (Option String × EntryPlan) :=
  let settled := Pairing.final entries memory
  entries.zipIdx.map fun c =>
    (c.1.str "name",
      (((settled.plan[c.2]?).join.or (settled.leftOver (probesOf entries) memory c.2)).getD
        (.skip .noMemoryMatch)))

def Writes (entries : List Value) (memory : List Account) (index position : Nat) : Prop :=
  (planMerge entries memory)[index]?.map Prod.snd = some (.write position)

instance (entries : List Value) (memory : List Account) (index position : Nat) :
    Decidable (Writes entries memory index position) :=
  inferInstanceAs (Decidable (_ = _))

/-! ## Resolution is a pick -/

theorem same_identity_strict_comm (a b : Account) :
    sameIdentityStrict a b = sameIdentityStrict b a := by
  unfold sameIdentityStrict
  rw [same_identity_comm a b]
  cases uuidKey a <;> cases uuidKey b <;> simp [eq_comm]

theorem same_identity_of_strict {a b : Account} (h : sameIdentityStrict a b = true) :
    sameIdentity a b = true := by
  simp only [sameIdentityStrict, Bool.and_eq_true] at h
  exact h.1.1

/-- A list without repeats that has one member is that member alone. -/
theorem eq_singleton_of_only {l : List Nat} {i : Nat} (hl : l.Nodup) (h : Only {x | x ∈ l} i) :
    l = [i] := by
  have hperm : l.Perm [i] := by
    refine (List.perm_ext_iff_of_nodup hl (List.nodup_singleton i)).mpr fun x => ?_
    rw [List.mem_singleton]
    exact ⟨h.2 x, fun hx => hx ▸ h.1⟩
  exact List.perm_singleton.mp hperm

theorem strict_among_subset (candidates : List (Nat × Account)) (target : Account) :
    {i | ∃ r, (i, r) ∈ candidates ∧ sameIdentityStrict target r = true} ⊆
      {i | ∃ r, (i, r) ∈ candidates ∧ sameIdentity target r = true} :=
  fun _ ⟨r, hr, hs⟩ => ⟨r, hr, same_identity_of_strict hs⟩

theorem resolve_among_one {candidates : List (Nat × Account)} {target : Account} {i : Nat}
    (hnodup : (candidates.map Prod.fst).Nodup) :
    resolveAmong candidates target = .one i ↔
      Picks {i | ∃ r, (i, r) ∈ candidates ∧ sameIdentity target r = true}
        {i | ∃ r, (i, r) ∈ candidates ∧ sameIdentityStrict target r = true} i := by
  have hmem : ∀ p : Account → Bool, {i | ∃ r, (i, r) ∈ candidates ∧ p r = true} =
      {i | i ∈ (candidates.filter fun c => p c.2).map Prod.fst} := by
    intro p
    ext i
    simp [List.mem_filter]
  have hsub := strict_among_subset candidates target
  have hl : ∀ p : Account → Bool, ((candidates.filter fun c => p c.2).map Prod.fst).Nodup :=
    fun p => hnodup.sublist (List.filter_sublist.map _)
  rw [hmem, hmem] at hsub ⊢
  unfold resolveAmong
  generalize hL : (candidates.filter fun c => sameIdentity target c.2).map Prod.fst = L at *
  generalize hE : (candidates.filter fun c => sameIdentityStrict target c.2).map Prod.fst = E at *
  have hLn : L.Nodup := hL ▸ hl _
  have hEn : E.Nodup := hE ▸ hl _
  split
  · exact ⟨nofun, fun h => absurd (h.loose hsub) List.not_mem_nil⟩
  · refine ⟨fun h => ?_, fun h => ?_⟩
    · cases h
      exact .inl ⟨List.mem_singleton_self _, fun x hx => List.mem_singleton.mp hx⟩
    · have hi := h.loose hsub
      rw [Set.mem_ofPred_eq, List.mem_singleton] at hi
      rw [hi]
  · rename_i hone
    refine ⟨fun h => ?_, fun h => ?_⟩
    · cases h
      exact .inr ⟨List.mem_singleton_self _, fun x hx => List.mem_singleton.mp hx⟩
    · rcases h with h | h
      · exact absurd (eq_singleton_of_only hLn h) (hone i)
      · rw [List.mem_singleton.mp h.1]
  · rename_i hone hone'
    refine ⟨nofun, fun h => ?_⟩
    rcases h with h | h
    · exact absurd (eq_singleton_of_only hLn h) (hone i)
    · exact absurd (eq_singleton_of_only hEn h) (hone' i)

theorem resolve_among_none {candidates : List (Nat × Account)} {target : Account}
    (h : ∀ c ∈ candidates, sameIdentity target c.2 = false) :
    resolveAmong candidates target = .none := by
  have hnil : (candidates.filter fun c => sameIdentity target c.2).map Prod.fst = [] := by
    rw [List.map_eq_nil_iff, List.filter_eq_nil_iff]
    exact fun c hc => by simp [h c hc]
  unfold resolveAmong
  rw [hnil]

end TeamClaude
