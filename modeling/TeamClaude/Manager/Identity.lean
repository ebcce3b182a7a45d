import TeamClaude.Manager.State

/-!
# Account identity

Which record an identity resolves to. The comparison tolerates an unknown organisation, so several
records may match loosely, and then one strict match breaks the tie. A record whose unknown fields
are filled in keeps its identity unless an organisation it was known by is replaced.
-/

namespace TeamClaude

theorem present_key_some {id : Option String} {k : String} :
    presentKey id = some k ↔ id = some k ∧ k ≠ "" := by
  simp [presentKey, Option.filter_eq_some_iff]

section SameIdentity

variable {a b : Account}

theorem same_identity_refl (a : Account) : sameIdentity a a = true := by
  unfold sameIdentity
  rw [if_neg (by simp)]
  cases uuidKey a with
  | none => simp
  | some _ => cases orgKey a <;> simp

theorem same_identity_comm (a b : Account) : sameIdentity a b = sameIdentity b a := by
  unfold sameIdentity
  by_cases hp : a.provider = b.provider
  · rw [if_neg (by simpa using hp), if_neg (by simpa using hp.symm)]
    cases uuidKey a <;> cases uuidKey b <;> cases orgKey a <;> cases orgKey b <;>
      simp [eq_comm]
  · rw [if_pos hp, if_pos (Ne.symm hp)]

/-- Two records are the same account when they share a known id and no two known organisations tell
them apart, or when an id is unknown and they share a name. -/
theorem same_identity_iff : sameIdentity a b = true ↔ a.provider = b.provider ∧
    ((∃ u, uuidKey a = some u ∧ uuidKey b = some u ∧
        ∀ ka kb, orgKey a = some ka → orgKey b = some kb → ka = kb) ∨
      (uuidKey a = none ∨ uuidKey b = none) ∧ a.name = b.name) := by
  unfold sameIdentity
  by_cases hp : a.provider = b.provider
  · rw [if_neg (by simpa using hp)]
    simp only [hp, true_and]
    cases uuidKey a <;> cases uuidKey b <;> cases orgKey a <;> cases orgKey b <;> grind
  · rw [if_pos hp]
    simp [hp]

theorem same_identity_provider (h : sameIdentity a b = true) : a.provider = b.provider :=
  (same_identity_iff.mp h).1

/-- Two records of one known id are not told apart by their organisations. -/
theorem same_identity_org (h : sameIdentity a b = true) {ua ub ka kb : String}
    (hua : uuidKey a = some ua) (hub : uuidKey b = some ub) (hka : orgKey a = some ka)
    (hkb : orgKey b = some kb) : ka = kb := by
  rcases (same_identity_iff.mp h).2 with ⟨-, -, -, horg⟩ | ⟨hnone | hnone, -⟩
  · exact horg ka kb hka hkb
  · exact absurd (hua.symm.trans hnone) nofun
  · exact absurd (hub.symm.trans hnone) nofun

end SameIdentity

/-- The comparison without the tolerance of an unknown organisation. -/
def sameIdentityStrict (a b : Account) : Bool :=
  sameIdentity a b &&
    (match uuidKey a, uuidKey b with
      | some ua, some ub => decide (ua = ub)
      | _, _ => false) &&
    decide (orgKey a = orgKey b)

/-- Which of a set of records an identity resolves to. -/
inductive Resolved
  | one (index : Nat)
  | none
  | many
  deriving DecidableEq

/-- The positions of the records that satisfy a test. -/
def positions (p : Account → Bool) (candidates : List Account) : List Nat :=
  (candidates.zipIdx.filter fun x => p x.1).map Prod.snd

/-- `identity::resolve`: the one loose match, or the one strict match among several. -/
def resolve (candidates : List Account) (target : Account) : Resolved :=
  match positions (sameIdentity target) candidates,
    positions (sameIdentityStrict target) candidates with
  | [], _ => .none
  | [only], _ => .one only
  | _, [only] => .one only
  | _, _ => .many

section Resolve

variable {p : Account → Bool} {candidates : List Account} {target : Account} {index : Nat}

theorem mem_positions :
    index ∈ positions p candidates ↔ ∃ record, candidates[index]? = some record ∧ p record := by
  simp [positions, List.mem_zipIdx_iff_getElem?]

theorem strict_positions_subset :
    positions (sameIdentityStrict target) candidates ⊆
      positions (sameIdentity target) candidates := by
  intro index h
  obtain ⟨record, hget, hstrict⟩ := mem_positions.mp h
  refine mem_positions.mpr ⟨record, hget, ?_⟩
  simp only [sameIdentityStrict, Bool.and_eq_true] at hstrict
  exact hstrict.1.1

/-- An identity resolves to a record it loosely matches. -/
theorem resolve_one (h : resolve candidates target = .one index) :
    ∃ record, candidates[index]? = some record ∧ sameIdentity target record = true := by
  refine mem_positions.mp ?_
  unfold resolve at h
  split at h
  · cases h
  · rename_i hl
    cases h
    rw [hl]
    exact List.mem_singleton_self index
  · rename_i hs _ _
    cases h
    exact strict_positions_subset (hs ▸ List.mem_singleton_self index)
  · cases h

/-- A loosely matching record is never overlooked. -/
theorem resolve_ne_none {record : Account} (hmem : record ∈ candidates)
    (hsame : sameIdentity target record = true) : resolve candidates target ≠ .none := by
  obtain ⟨index, hindex⟩ := List.mem_iff_getElem?.mp hmem
  have hpos : index ∈ positions (sameIdentity target) candidates :=
    mem_positions.mpr ⟨record, hindex, hsame⟩
  unfold resolve
  split
  · rename_i hl
    rw [hl] at hpos
    cases hpos
  all_goals nofun

end Resolve

/-! ## Filling in unknown identity fields -/

namespace Account

/-- The record `b` is the record `a` with unknown identity fields filled in. -/
structure FilledIn (a b : Account) : Prop where
  provider : b.provider = a.provider
  name : b.name = a.name
  accountUuid : a.accountUuid.isSome → b.accountUuid = a.accountUuid
  orgUuid : a.orgUuid.isSome → b.orgUuid = a.orgUuid
  orgName : a.orgName.isSome → b.orgName = a.orgName

/-- An account that names its organisation by id names its own id too. -/
def NamesItsUuid (a : Account) : Prop :=
  (presentKey a.orgUuid).isSome → (uuidKey a).isSome

instance (a : Account) : Decidable a.NamesItsUuid :=
  inferInstanceAs (Decidable (_ → _))

namespace FilledIn

variable {a b c : Account}

@[refl] theorem refl (a : Account) : a.FilledIn a :=
  ⟨rfl, rfl, fun _ => rfl, fun _ => rfl, fun _ => rfl⟩

theorem trans (h : a.FilledIn b) (h' : b.FilledIn c) : a.FilledIn c where
  provider := h'.provider.trans h.provider
  name := h'.name.trans h.name
  accountUuid hs := (h'.accountUuid (by rw [h.accountUuid hs]; exact hs)).trans (h.accountUuid hs)
  orgUuid hs := (h'.orgUuid (by rw [h.orgUuid hs]; exact hs)).trans (h.orgUuid hs)
  orgName hs := (h'.orgName (by rw [h.orgName hs]; exact hs)).trans (h.orgName hs)

theorem uuidKey (h : a.FilledIn b) {u : String} (ha : uuidKey a = some u) :
    TeamClaude.uuidKey b = some u := by
  rw [TeamClaude.uuidKey, h.accountUuid (by simp [(present_key_some.mp ha).1])]
  exact ha

/-- Without an organisation id of its own the record is known by the organisation it was filled in
from. -/
theorem orgKey (h : a.FilledIn b) {k : String} (ha : orgKey a = some k)
    (hnone : presentKey b.orgUuid = none) : TeamClaude.orgKey b = some k := by
  have hempty : presentKey a.orgUuid = none := by
    cases hid : a.orgUuid with
    | none => rfl
    | some id =>
      rw [← hid, ← h.orgUuid (by simp [hid])]
      exact hnone
  rw [TeamClaude.orgKey, hempty, Option.none_or] at ha
  rw [TeamClaude.orgKey, hnone, Option.none_or, h.orgName (by simp [(present_key_some.mp ha).1])]
  exact ha

/-- A record keeps the identity it was filled in from when no organisation tells them apart. -/
theorem same_identity (h : a.FilledIn b)
    (horg : ∀ u ka kb, TeamClaude.uuidKey a = some u → TeamClaude.orgKey a = some ka →
      TeamClaude.orgKey b = some kb → kb = ka) :
    sameIdentity b a = true := by
  refine same_identity_iff.mpr ⟨h.provider, ?_⟩
  cases ha : TeamClaude.uuidKey a with
  | none => exact .inr ⟨.inr rfl, h.name⟩
  | some u => exact .inl ⟨u, h.uuidKey ha, rfl, fun kb ka hb hka => horg u ka kb ha hka hb⟩

end FilledIn

end Account

end TeamClaude
