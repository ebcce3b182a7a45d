import TeamClaude.Lib.Exec
import TeamClaude.Proxy.FrontDoor

/-!
# Who a client is

The cache of the identities that client bearers resolve to, under any interleaving of the requests
that ask. An entry is shared by all who found it in the map and outlives its place there; it is
filled once, by one of them at a time.
-/

namespace TeamClaude.FrontDoor

open Lib

def cacheCap : Nat := 256

def unresolvableTtlMs : Int := 60 * 1000

inductive Resolved
  | identity (client : ClientIdentity)
  | unresolvable (untilMs : Int)
  deriving DecidableEq

inductive ProfileAnswer
  | profile (email accountUuid : Option String)
  | status (code : Nat)
  | failed
  deriving DecidableEq

/-- What a fetch started at a clock leaves in its entry, if anything. -/
def ProfileAnswer.resolved (nowMs : Int) : ProfileAnswer → Option Resolved
  | .profile none none => none
  | .profile email accountUuid => some (.identity ⟨email, accountUuid⟩)
  | .status code =>
    if code = 401 ∨ code = 403 then some (.unresolvable (nowMs + unresolvableTtlMs)) else none
  | .failed => none

/-- An `Entry` behind its `Arc`: `live` while the map holds it, `busy` while one who shares it is
fetching. -/
structure Entry (K : Type*) where
  key : K
  live : Bool := true
  resolved : Option Resolved := none
  busy : Bool := false
  warned : Bool := false

def Entry.expiredAt {K : Type*} (entry : Entry K) (nowMs : Int) : Bool :=
  match entry.resolved with
  | some (.unresolvable untilMs) => decide (untilMs ≤ nowMs)
  | _ => false

/-- Where a call of `resolve_at` stands. -/
inductive ResolvePhase
  | waiting
  | fetching
  | done (client : Option ClientIdentity)
  | gone
  deriving DecidableEq

/-- A call of `resolve_at`, with the entry it was handed. -/
structure ResolveCall (B : Type*) where
  bearer : B
  nowMs : Int
  entry : Nat
  phase : ResolvePhase := .waiting

/-- A call of `first_warning`, with the entry it was handed and what it answered. -/
structure WarnCall where
  entry : Nat
  said : Option Bool := none
  deriving DecidableEq

/-- `ClientIdentityCache`, with the calls in flight. -/
structure ClientIdentityCache (B K : Type*) where
  entries : List (Entry K) := []
  calls : List (ResolveCall B) := []
  warners : List WarnCall := []

inductive IdentityAct (B : Type*)
  /-- `resolve_at` takes its entry. -/
  | resolve (bearer : B) (nowMs : Int)
  /-- A waiting call gets its turn at the entry. -/
  | turn (call : Nat)
  /-- Upstream answers the call that is fetching. -/
  | answer (call : Nat) (answer : ProfileAnswer)
  /-- The request a call was for is gone. -/
  | abandon (call : Nat)
  /-- `first_warning` takes its entry. -/
  | warn (bearer : B) (nowMs : Int)
  /-- Its swap, and what it answers. -/
  | swap (call : Nat)

namespace ClientIdentityCache

variable {B K : Type*} [DecidableEq K] (keyOf : B → K)

/-- The place of the entry the map holds for a key. -/
def find (s : ClientIdentityCache B K) (key : K) : Option Nat :=
  s.entries.findIdx? fun entry => entry.live && entry.key = key

/-- The size of the map. -/
def len (s : ClientIdentityCache B K) : Nat :=
  s.entries.countP fun entry => entry.live

def expired (s : ClientIdentityCache B K) (key : K) (nowMs : Int) : Bool :=
  s.entries.any fun entry => entry.live && entry.key = key && entry.expiredAt nowMs

/-- The map without the entries that satisfy a test. -/
def forget (s : ClientIdentityCache B K) (p : Entry K → Bool) : ClientIdentityCache B K :=
  { s with
    entries := s.entries.map fun entry => if p entry then { entry with live := false } else entry }

/-- What `entry` does before it looks the key up: a lapsed entry goes, and so does the whole map where
it is full and the key is new. -/
def tidy (s : ClientIdentityCache B K) (key : K) (nowMs : Int) : ClientIdentityCache B K :=
  let s := if s.expired key nowMs then s.forget fun entry => entry.key = key else s
  if cacheCap ≤ s.len ∧ s.find key = none then s.forget fun _ => true else s

def entry (s : ClientIdentityCache B K) (key : K) (nowMs : Int) :
    Nat × ClientIdentityCache B K :=
  let s := s.tidy key nowMs
  match s.find key with
  | some place => (place, s)
  | none => (s.entries.length, { s with entries := s.entries ++ [{ key }] })

def answerOf : Option Resolved → Option ClientIdentity
  | some (.identity client) => some client
  | _ => none

/-- A call's turn: a filled entry is read, and an empty one is filled where nobody else is at it. -/
def turn (s : ClientIdentityCache B K) (i : Nat) : ClientIdentityCache B K :=
  match s.calls[i]? with
  | some call =>
    match call.phase, s.entries[call.entry]? with
    | .waiting, some entry =>
      if entry.resolved.isSome then
        { s with calls := s.calls.set i { call with phase := .done (answerOf entry.resolved) } }
      else if entry.busy then s
      else
        { s with
          entries := s.entries.set call.entry { entry with busy := true }
          calls := s.calls.set i { call with phase := .fetching } }
    | _, _ => s
  | none => s

/-- The fetch of a call ends, with what it leaves in the entry and how the call goes on. -/
def settle (s : ClientIdentityCache B K) (i : Nat) (left : Int → Option Resolved)
    (phase : Option Resolved → ResolvePhase) : ClientIdentityCache B K :=
  match s.calls[i]? with
  | some call =>
    match call.phase, s.entries[call.entry]? with
    | .fetching, some entry =>
      { s with
        entries :=
          s.entries.set call.entry { entry with resolved := left call.nowMs, busy := false }
        calls := s.calls.set i { call with phase := phase (left call.nowMs) } }
    | _, _ => s
  | none => s

/-- A call is dropped where it stands; a fetch that is dropped leaves nothing. -/
def abandon (s : ClientIdentityCache B K) (i : Nat) : ClientIdentityCache B K :=
  match s.calls[i]? with
  | some call =>
    match call.phase with
    | .waiting => { s with calls := s.calls.set i { call with phase := .gone } }
    | .fetching => s.settle i (fun _ => none) fun _ => .gone
    | _ => s
  | none => s

/-- The swap of `first_warning`, which answers whether it is the first. -/
def swap (s : ClientIdentityCache B K) (i : Nat) : ClientIdentityCache B K :=
  match s.warners[i]? with
  | some call =>
    match call.said, s.entries[call.entry]? with
    | none, some entry =>
      { s with
        entries := s.entries.set call.entry { entry with warned := true }
        warners := s.warners.set i { call with said := some !entry.warned } }
    | _, _ => s
  | none => s

def step (s : ClientIdentityCache B K) : IdentityAct B → ClientIdentityCache B K
  | .resolve bearer nowMs =>
    let (place, s) := s.entry (keyOf bearer) nowMs
    { s with calls := s.calls ++ [{ bearer, nowMs, entry := place }] }
  | .turn call => s.turn call
  | .answer call answer =>
    s.settle call (fun nowMs => answer.resolved nowMs) fun left => .done (answerOf left)
  | .abandon call => s.abandon call
  | .warn bearer nowMs =>
    let (place, s) := s.entry (keyOf bearer) nowMs
    { s with warners := s.warners ++ [{ entry := place }] }
  | .swap call => s.swap call

/-! ## What a step shows -/

/-- The call that is fetching at a place in the list of calls, with its entry. -/
def fetchingAt (s : ClientIdentityCache B K) (i : Nat) : Option (ResolveCall B × Entry K) :=
  match s.calls[i]? with
  | some call =>
    if call.phase = .fetching then (s.entries[call.entry]?).map fun entry => (call, entry) else none
  | none => none

/-- The answers of upstream: for whose bearer, asked at which clock. -/
def told (s : ClientIdentityCache B K) : IdentityAct B → Option (B × Int × ProfileAnswer)
  | .answer i answer => (s.fetchingAt i).map fun (call, _) => (call.bearer, call.nowMs, answer)
  | _ => none

def fetches (key : K) (s : ClientIdentityCache B K) : IdentityAct B → Option Unit
  | .turn i =>
    match ((s.turn i).fetchingAt i), s.fetchingAt i with
    | some (_, entry), none => if entry.key = key then some () else none
    | _, _ => none
  | _ => none

/-- The map loses its entry for the key. -/
def drops (key : K) (s : ClientIdentityCache B K) : IdentityAct B → Option Unit
  | .resolve bearer nowMs | .warn bearer nowMs =>
    if (s.find key).isSome ∧ (s.tidy (keyOf bearer) nowMs).find key = none then some () else none
  | _ => none

/-- The map loses its entry for the key, or a fetch for it ends and leaves nothing. -/
def resets (key : K) (s : ClientIdentityCache B K) (act : IdentityAct B) : Option Unit :=
  match act with
  | .answer i answer =>
    match s.fetchingAt i with
    | some (call, entry) =>
      if entry.key = key ∧ answer.resolved call.nowMs = none then some () else none
    | none => none
  | .abandon i =>
    match s.fetchingAt i with
    | some (_, entry) => if entry.key = key then some () else none
    | none => none
  | act => drops keyOf key s act

/-- The call of `first_warning` that is at its swap, with its entry. -/
def swappingAt (s : ClientIdentityCache B K) (i : Nat) : Option (WarnCall × Entry K) :=
  match s.warners[i]? with
  | some call =>
    if call.said = none then (s.entries[call.entry]?).map fun entry => (call, entry) else none
  | none => none

/-- A mismatch of the key's client is logged: `first_warning` answers true. -/
def warnings (key : K) (s : ClientIdentityCache B K) : IdentityAct B → Option Unit
  | .swap i =>
    match s.swappingAt i, (s.swap i).warners[i]? with
    | some (_, entry), some call =>
      if entry.key = key ∧ call.said = some true then some () else none
    | _, _ => none
  | _ => none

/-! ## The map -/

section Map

variable {keyOf} {s t : ClientIdentityCache B K} {key other : K} {nowMs : Int} {place : Nat}

theorem find_congr
    (h : t.entries.map (fun e => (e.live, e.key)) = s.entries.map fun e => (e.live, e.key))
    (key : K) : t.find key = s.find key := by
  have hmap : ∀ u : ClientIdentityCache B K, u.find key =
      (u.entries.map fun e => (e.live, e.key)).findIdx? fun x => x.1 && x.2 = key := by
    intro u
    rw [List.findIdx?_map]
    rfl
  rw [hmap, hmap, h]

theorem find_some (h : s.find key = some place) :
    ∃ entry, s.entries[place]? = some entry ∧ entry.live = true ∧ entry.key = key := by
  unfold find at h
  rw [List.findIdx?_eq_some_iff_getElem] at h
  obtain ⟨hlt, hentry, -⟩ := h
  simp only [Bool.and_eq_true, decide_eq_true_eq] at hentry
  exact ⟨_, List.getElem?_eq_getElem hlt, hentry.1, hentry.2⟩

theorem find_none : s.find key = none ↔
    ∀ entry ∈ s.entries, entry.live = true → entry.key ≠ key := by
  unfold find
  rw [List.findIdx?_eq_none_iff]
  simp

theorem find_append : ({ s with entries := s.entries ++ [{ key }] } : ClientIdentityCache B K).find
    other = none ↔ s.find other = none ∧ key ≠ other := by
  rw [find_none, find_none, List.forall_mem_append]
  simp

/-- Tidying takes entries out of the map and changes nothing else. -/
theorem tidy_spec (s : ClientIdentityCache B K) (key : K) (nowMs : Int) :
    ∃ live : Entry K → Bool, (∀ e, live e = true → e.live = true) ∧
      s.tidy key nowMs = { s with entries := s.entries.map fun e => { e with live := live e } } := by
  have hforget : ∀ (u : ClientIdentityCache B K) (p : Entry K → Bool), u.forget p =
      { u with entries := u.entries.map fun e => { e with live := e.live && !p e } } := by
    intro u p
    unfold forget
    congr 2
    funext e
    cases p e <;> simp
  unfold tidy
  simp only
  split <;> split
  · refine ⟨fun _ => false, fun _ h => absurd h Bool.false_ne_true, ?_⟩
    rw [hforget, hforget]
    simp [Function.comp_def]
  · refine ⟨fun e => e.live && !decide (e.key = key), fun e h => (Bool.and_eq_true _ _ ▸ h).1, ?_⟩
    rw [hforget]
  · refine ⟨fun _ => false, fun _ h => absurd h Bool.false_ne_true, ?_⟩
    rw [hforget]
    simp
  · exact ⟨fun e => e.live, fun _ h => h, by simp⟩

/-- What the map hands out: the entry it has, or a new one behind the others. -/
theorem entry_cases (s : ClientIdentityCache B K) (key : K) (nowMs : Int) :
    (∃ place e, (s.tidy key nowMs).find key = some place ∧
        (s.tidy key nowMs).entries[place]? = some e ∧ e.key = key ∧
          s.entry key nowMs = (place, s.tidy key nowMs)) ∨
      ((s.tidy key nowMs).find key = none ∧ s.entry key nowMs =
        ((s.tidy key nowMs).entries.length,
          { s.tidy key nowMs with entries := (s.tidy key nowMs).entries ++ [{ key }] })) := by
  unfold entry
  cases hfind : (s.tidy key nowMs).find key with
  | none => exact .inr ⟨rfl, by simp only [hfind]⟩
  | some place =>
    obtain ⟨e, he, -, hkey⟩ := find_some hfind
    exact .inl ⟨place, e, rfl, he, hkey, by simp only [hfind]⟩

/-- A count of entries that does not look at the map is not changed by tidying. -/
theorem count_tidy (p : Entry K → Bool) (hp : ∀ e live, p { e with live } = p e)
    (s : ClientIdentityCache B K) (key : K) (nowMs : Int) :
    (s.tidy key nowMs).entries.countP p = s.entries.countP p := by
  obtain ⟨live, -, htidy⟩ := tidy_spec s key nowMs
  rw [htidy, List.countP_map]
  exact List.countP_congr fun e _ => by rw [Function.comp_apply, hp]

/-- A tidied map has no key it had not. -/
theorem find_tidy_none (h : s.find other = none) : (s.tidy key nowMs).find other = none := by
  obtain ⟨live, hlive, htidy⟩ := tidy_spec s key nowMs
  rw [find_none] at h ⊢
  rw [htidy]
  intro entry hentry
  obtain ⟨e, he, rfl⟩ := List.mem_map.mp hentry
  exact fun hl => h e he (hlive e hl)

end Map

/-! ## What is handed out -/

/-- The map holds a key once. -/
def Unique (s : ClientIdentityCache B K) : Prop :=
  (s.entries.map fun e => (e.live, e.key)).Pairwise fun a b => a.1 → b.1 → a.2 ≠ b.2

section HandedOut

variable {keyOf} {s t : ClientIdentityCache B K} {key : K} {nowMs : Int} {place : Nat} {e : Entry K}

/-- The map is asked for one entry, so that one decides whether the key has lapsed. -/
theorem expired_eq (h : s.Unique) (hfind : s.find key = some place)
    (he : s.entries[place]? = some e) : s.expired key nowMs = e.expiredAt nowMs := by
  obtain ⟨e', he', hlive, hkey⟩ := find_some hfind
  obtain rfl := Option.some_injective _ (he.symm.trans he')
  rw [Bool.eq_iff_iff]
  unfold expired
  rw [List.any_eq_true]
  constructor
  · rintro ⟨x, hx, hexpired⟩
    simp only [Bool.and_eq_true, decide_eq_true_eq] at hexpired
    obtain ⟨⟨hxlive, hxkey⟩, hexpired⟩ := hexpired
    obtain ⟨j, hj⟩ := List.mem_iff_getElem?.mp hx
    have hpair := List.pairwise_iff_getElem.mp (List.pairwise_map.mp h)
    obtain ⟨hjlt, rfl⟩ := List.getElem?_eq_some_iff.mp hj
    obtain ⟨hlt, rfl⟩ := List.getElem?_eq_some_iff.mp he
    rcases Nat.lt_trichotomy j place with hlt' | rfl | hlt'
    · exact absurd (hxkey.trans hkey.symm) (hpair j place hjlt hlt hlt' hxlive hlive)
    · exact hexpired
    · exact absurd (hkey.trans hxkey.symm) (hpair place j hlt hjlt hlt' hlive hxlive)
  · exact fun hexpired => ⟨e, List.mem_of_getElem? he, by simp [hlive, hkey, hexpired]⟩

/-- An entry the map has for the key, and that has not lapsed, is the one handed out. -/
theorem entry_held (h : s.Unique) (hfind : s.find key = some place)
    (he : s.entries[place]? = some e) (hkept : e.expiredAt nowMs = false) :
    s.entry key nowMs = (place, s) := by
  have htidy : s.tidy key nowMs = s := by
    unfold tidy
    simp [expired_eq h hfind he, hkept, hfind]
  unfold entry
  simp only [htidy, hfind]

/-- A map tidied of a lapsed key has not got it. -/
theorem tidy_expired (h : s.expired key nowMs = true) : (s.tidy key nowMs).find key = none := by
  have hforgot : (s.forget fun e => decide (e.key = key)).find key = none := by
    rw [find_none]
    intro x hx hlive
    obtain ⟨y, -, rfl⟩ := List.mem_map.mp hx
    by_cases hy : y.key = key
    · simp [hy] at hlive
    · simp [hy]
  unfold tidy
  simp only [h, if_true, hforgot, and_true]
  split
  · rw [find_none]
    intro x hx hlive
    obtain ⟨y, -, rfl⟩ := List.mem_map.mp hx
    simp at hlive
  · exact hforgot

theorem entry_fresh (s : ClientIdentityCache B K) (key : K) (nowMs : Int) :
    ∃ e, (s.entry key nowMs).2.entries[(s.entry key nowMs).1]? = some e ∧ e.key = key ∧
      e.expiredAt nowMs = false := by
  rcases entry_cases s key nowMs with ⟨place, e, hfind, he, hkey, hentry⟩ | ⟨-, hentry⟩
  · rw [hentry]
    refine ⟨e, he, hkey, ?_⟩
    obtain ⟨e', he', hlive, -⟩ := find_some hfind
    obtain rfl := Option.some_injective _ (he.symm.trans he')
    by_contra hlapsed
    rw [Bool.not_eq_false] at hlapsed
    -- what is left in the map under the key was there before tidying, lapsed as it is
    have hexpired : s.expired key nowMs = true := by
      obtain ⟨live, hsub, htidy⟩ := tidy_spec s key nowMs
      rw [htidy] at he
      obtain ⟨y, hy, rfl⟩ := List.mem_map.mp (List.mem_of_getElem? he)
      refine List.any_eq_true.mpr ⟨y, hy, ?_⟩
      simp only [Bool.and_eq_true, decide_eq_true_eq]
      exact ⟨⟨hsub y hlive, hkey⟩, hlapsed⟩
    rw [tidy_expired hexpired] at hfind
    cases hfind
  · rw [hentry]
    exact ⟨{ key }, by simp, rfl, rfl⟩

theorem Unique.tidy (h : s.Unique) (key : K) (nowMs : Int) : (s.tidy key nowMs).Unique := by
  obtain ⟨live, hlive, htidy⟩ := tidy_spec s key nowMs
  rw [Unique, htidy, List.map_map, List.pairwise_map]
  exact (List.pairwise_map.mp h).imp fun hab ha hb => hab (hlive _ ha) (hlive _ hb)

theorem Unique.entry (h : s.Unique) (key : K) (nowMs : Int) : (s.entry key nowMs).2.Unique := by
  have htidy := h.tidy key nowMs
  rcases entry_cases s key nowMs with ⟨place, e, -, -, -, hentry⟩ | ⟨hnone, hentry⟩
  · rw [hentry]
    exact htidy
  · rw [hentry, Unique, List.map_append, List.pairwise_append]
    refine ⟨htidy, List.pairwise_singleton _ _, ?_⟩
    intro a ha b hb hal _
    obtain ⟨e, he, rfl⟩ := List.mem_map.mp ha
    obtain rfl := List.mem_singleton.mp hb
    exact find_none.mp hnone e he hal

end HandedOut

/-! ## One step -/

section Step

variable {s : ClientIdentityCache B K} {i : Nat} {call : ResolveCall B} {e : Entry K}

omit [DecidableEq K]

theorem map_set_same {α β : Type*} {f : α → β} {items : List α} {i : Nat} {a b : α}
    (h : items[i]? = some a) (hf : f b = f a) : (items.set i b).map f = items.map f := by
  rw [List.map_set, hf]
  refine List.ext_getElem? fun j => ?_
  rw [List.getElem?_set]
  split
  · rename_i hij
    subst hij
    obtain ⟨hlt, rfl⟩ := List.getElem?_eq_some_iff.mp h
    simp [hlt]
  · rfl

theorem count_set {α : Type*} {items : List α} {i : Nat} {a b : α} (h : items[i]? = some a)
    (p : α → Bool) : (items.set i b).countP p + (p a).toNat = items.countP p + (p b).toNat := by
  obtain ⟨hlt, rfl⟩ := List.getElem?_eq_some_iff.mp h
  have hpos : (p items[i]).toNat ≤ items.countP p := by
    cases hp : p items[i] with
    | false => exact Nat.zero_le _
    | true => exact List.countP_pos_iff.mpr ⟨_, List.getElem_mem hlt, hp⟩
  rw [List.countP_set hlt]
  revert hpos
  generalize items.countP p = n
  cases p items[i] <;> cases p b <;>
    simp only [Bool.toNat_true, Bool.toNat_false, Bool.false_eq_true, if_true, if_false] <;> omega

theorem fetching_at_some : s.fetchingAt i = some (call, e) ↔
    s.calls[i]? = some call ∧ call.phase = .fetching ∧ s.entries[call.entry]? = some e := by
  unfold fetchingAt
  constructor
  · intro h
    split at h
    · rename_i other hother
      split at h
      · rename_i hphase
        obtain ⟨entry, hentry, heq⟩ := Option.map_eq_some_iff.mp h
        cases heq
        exact ⟨hother, hphase, hentry⟩
      · cases h
    · cases h
  · rintro ⟨hcall, hphase, hentry⟩
    simp [hcall, hphase, hentry]

/-- A turn starts a fetch, reads a filled entry, or changes nothing. -/
theorem turn_cases (s : ClientIdentityCache B K) (i : Nat) :
    (∃ call e, s.calls[i]? = some call ∧ call.phase = .waiting ∧
        s.entries[call.entry]? = some e ∧ e.resolved = none ∧ e.busy = false ∧
          s.turn i =
            { s with
              entries := s.entries.set call.entry { e with busy := true }
              calls := s.calls.set i { call with phase := .fetching } }) ∨
      (∃ call e, s.calls[i]? = some call ∧ call.phase = .waiting ∧
        s.entries[call.entry]? = some e ∧ e.resolved.isSome = true ∧
          s.turn i =
            { s with calls := s.calls.set i { call with phase := .done (answerOf e.resolved) } }) ∨
      s.turn i = s := by
  unfold turn
  split
  · rename_i call hcall
    split
    · rename_i e hphase he
      split
      · rename_i hfilled
        exact .inr (.inl ⟨call, e, hcall, hphase, he, hfilled, rfl⟩)
      · rename_i hempty
        split
        · exact .inr (.inr rfl)
        · rename_i hbusy
          exact .inl ⟨call, e, hcall, hphase, he, by simpa using hempty, by simpa using hbusy, rfl⟩
    · exact .inr (.inr rfl)
  · exact .inr (.inr rfl)

theorem settle_cases (s : ClientIdentityCache B K) (i : Nat) (left : Int → Option Resolved)
    (phase : Option Resolved → ResolvePhase) :
    (∃ call e, s.fetchingAt i = some (call, e) ∧ s.settle i left phase =
        { s with
          entries :=
            s.entries.set call.entry { e with resolved := left call.nowMs, busy := false }
          calls := s.calls.set i { call with phase := phase (left call.nowMs) } }) ∨
      (s.fetchingAt i = none ∧ s.settle i left phase = s) := by
  unfold settle fetchingAt
  cases hcall : s.calls[i]? with
  | none => exact .inr ⟨rfl, rfl⟩
  | some call =>
    simp only
    cases hphase : call.phase with
    | fetching =>
      cases he : s.entries[call.entry]? with
      | none => exact .inr (by simp)
      | some e => exact .inl ⟨call, e, by simp, rfl⟩
    | waiting => exact .inr (by simp)
    | done client => exact .inr (by simp)
    | gone => exact .inr (by simp)

theorem swapping_at_some {call : WarnCall} : s.swappingAt i = some (call, e) ↔
    s.warners[i]? = some call ∧ call.said = none ∧ s.entries[call.entry]? = some e := by
  unfold swappingAt
  constructor
  · intro h
    split at h
    · rename_i other hother
      split at h
      · rename_i hsaid
        obtain ⟨entry, hentry, heq⟩ := Option.map_eq_some_iff.mp h
        cases heq
        exact ⟨hother, hsaid, hentry⟩
      · cases h
    · cases h
  · rintro ⟨hcall, hsaid, hentry⟩
    simp [hcall, hsaid, hentry]

/-- A swap answers once, and marks the entry. -/
theorem swap_cases (s : ClientIdentityCache B K) (i : Nat) :
    (∃ call e, s.swappingAt i = some (call, e) ∧ s.swap i =
        { s with
          entries := s.entries.set call.entry { e with warned := true }
          warners := s.warners.set i { call with said := some !e.warned } }) ∨
      (s.swappingAt i = none ∧ s.swap i = s) := by
  unfold swap swappingAt
  cases hcall : s.warners[i]? with
  | none => exact .inr ⟨rfl, rfl⟩
  | some call =>
    simp only
    cases hsaid : call.said with
    | some said => exact .inr (by simp)
    | none =>
      cases he : s.entries[call.entry]? with
      | none => exact .inr (by simp)
      | some e => exact .inl ⟨call, e, by simp, rfl⟩

/-- A dropped call only leaves, but for the fetch it may have been at. -/
theorem abandon_cases (s : ClientIdentityCache B K) (i : Nat) :
    (∃ call, s.calls[i]? = some call ∧ call.phase = .waiting ∧ s.fetchingAt i = none ∧
        s.abandon i = { s with calls := s.calls.set i { call with phase := .gone } }) ∨
      s.abandon i = s.settle i (fun _ => none) fun _ => .gone := by
  unfold abandon
  cases hcall : s.calls[i]? with
  | none => exact .inr (by simp [settle, hcall])
  | some call =>
    simp only
    cases hphase : call.phase with
    | fetching => exact .inr rfl
    | waiting => exact .inl ⟨call, rfl, hphase, by simp [fetchingAt, hcall, hphase], rfl⟩
    | done client => exact .inr (by simp [settle, hcall, hphase])
    | gone => exact .inr (by simp [settle, hcall, hphase])

end Step

/-! ## What is paid for what -/

/-- A fetch may start at the entry, and it is the key's. -/
def isFree (key : K) (e : Entry K) : Bool :=
  e.key = key && e.resolved.isNone && !e.busy

/-- Nobody has warned over the entry, and it is the key's. -/
def isUnwarned (key : K) (e : Entry K) : Bool :=
  e.key = key && !e.warned

/-- The entry for the key that is still to come. -/
def absent (key : K) (s : ClientIdentityCache B K) : Nat :=
  if s.find key = none then 1 else 0

section Paid

variable {s : ClientIdentityCache B K} {key other : K} {nowMs : Int}

/-- What taking an entry costs: a drop, or the absence of the key, pays for a new one. -/
theorem entry_paid (key : K) {p : Entry K → Bool} (hp : ∀ e live, p { e with live } = p e)
    (hnew : ∀ key', p { key := key' } = true → key' = key)
    (s : ClientIdentityCache B K) (other : K) (nowMs : Int) :
    (s.entry other nowMs).2.entries.countP p + (s.entry other nowMs).2.absent key ≤
      s.entries.countP p + s.absent key +
        (if (s.find key).isSome ∧ (s.tidy other nowMs).find key = none then 1 else 0) := by
  have htidy : (s.tidy other nowMs).absent key ≤ s.absent key +
      (if (s.find key).isSome ∧ (s.tidy other nowMs).find key = none then 1 else 0) := by
    unfold absent
    cases hfind : s.find key with
    | none => simp [find_tidy_none hfind]
    | some place =>
      by_cases hdrop : (s.tidy other nowMs).find key = none
      · simp [hdrop]
      · simp [hdrop]
  have hcount := count_tidy p hp s other nowMs
  rcases entry_cases s other nowMs with ⟨place, e, -, -, -, hentry⟩ | ⟨hnone, hentry⟩
  · rw [hentry]
    dsimp only
    omega
  · rw [hentry]
    have habsent : ({ s.tidy other nowMs with
          entries := (s.tidy other nowMs).entries ++ [{ key := other }] } :
            ClientIdentityCache B K).absent key + (p { key := other }).toNat ≤
        (s.tidy other nowMs).absent key := by
      unfold absent
      simp only [find_append]
      by_cases hkey : other = key
      · subst hkey
        have := Bool.toNat_le (p { key := other })
        simp [hnone]
        omega
      · have hp : p { key := other } = false := Bool.eq_false_iff.mpr fun h => hkey (hnew other h)
        rw [hp]
        simp [hkey]
    rw [List.countP_append, List.countP_singleton]
    cases hbool : p { key := other } with
    | false =>
      rw [hbool] at habsent
      simp at habsent ⊢
      omega
    | true =>
      rw [hbool] at habsent
      simp at habsent ⊢
      omega

theorem absent_set (key : K) {place : Nat} {a : Entry K} (b : Entry K)
    (h : s.entries[place]? = some a) (hlive : b.live = a.live) (hkey : b.key = a.key)
    (calls : List (ResolveCall B)) (warners : List WarnCall) :
    absent key { entries := s.entries.set place b, calls, warners } = absent key s := by
  unfold absent
  rw [find_congr (map_set_same h (by rw [hlive, hkey]))]

/-- What changes of the tally with an absent key, when an entry is changed where it stands. -/
theorem tally_set (p : Entry K → Bool) (key : K) {place : Nat} {a : Entry K} (b : Entry K)
    (h : s.entries[place]? = some a) (hlive : b.live = a.live) (hkey : b.key = a.key)
    (calls : List (ResolveCall B)) (warners : List WarnCall) :
    (s.entries.set place b).countP p +
        absent key { entries := s.entries.set place b, calls, warners } + (p a).toNat =
      s.entries.countP p + absent key s + (p b).toNat := by
  have hcount := count_set (b := b) h p
  rw [absent_set key b h hlive hkey]
  omega

theorem sum_if (c : Prop) [Decidable c] :
    ((if c then some () else none).toList.map fun _ => 1).sum = if c then 1 else 0 := by
  split <;> rfl

/-- A fetch that ends leaves its entry free only where it leaves nothing in it. -/
theorem settle_paid (key : K) (s : ClientIdentityCache B K) (i : Nat) (left : Int → Option Resolved)
    (phase : Option Resolved → ResolvePhase) :
    (s.settle i left phase).entries.countP (isFree key) + absent key (s.settle i left phase) ≤
      s.entries.countP (isFree key) + absent key s +
        match s.fetchingAt i with
        | some (call, e) => if e.key = key ∧ left call.nowMs = none then 1 else 0
        | none => 0 := by
  rcases settle_cases s i left phase with ⟨call, e, hfetch, hsettle⟩ | ⟨hfetch, hsettle⟩
  · obtain ⟨-, -, he⟩ := fetching_at_some.mp hfetch
    have htally := tally_set (isFree key) key { e with resolved := left call.nowMs, busy := false } he
      rfl rfl (s.calls.set i { call with phase := phase (left call.nowMs) }) s.warners
    have hleft : (isFree key { e with resolved := left call.nowMs, busy := false }).toNat =
        if e.key = key ∧ left call.nowMs = none then 1 else 0 := by
      by_cases hkey : e.key = key <;> cases hl : left call.nowMs <;> simp [isFree, hkey]
    rw [hsettle, hfetch]
    dsimp only
    omega
  · rw [hsettle, hfetch]
    exact Nat.le_refl _

/-- The fetches of a step are paid for by what the step resets. -/
theorem fetch_paid (key : K) (s : ClientIdentityCache B K) (act : IdentityAct B) :
    ((fetches key s act).toList.map fun _ => 1).sum +
        ((s.step keyOf act).entries.countP (isFree key) + absent key (s.step keyOf act)) ≤
      s.entries.countP (isFree key) + absent key s +
        ((resets keyOf key s act).toList.map fun _ => 1).sum := by
  have hentry : ∀ other nowMs, _ := entry_paid key (p := isFree key) (fun _ _ => rfl)
    (fun key' h => by simpa [isFree] using h) s
  cases act with
  | resolve bearer nowMs =>
    have hone := hentry (keyOf bearer) nowMs
    simp only [fetches, resets, drops, sum_if, step]
    exact (Nat.zero_add _).trans_le hone
  | warn bearer nowMs =>
    have hone := hentry (keyOf bearer) nowMs
    simp only [fetches, resets, drops, sum_if, step]
    exact (Nat.zero_add _).trans_le hone
  | swap i =>
    simp only [fetches, resets, drops, step]
    rcases swap_cases s i with ⟨call, e, hswap, hnext⟩ | ⟨-, hnext⟩
    · obtain ⟨-, -, he⟩ := swapping_at_some.mp hswap
      have htally := tally_set (isFree key) key { e with warned := true } he rfl rfl s.calls
        (s.warners.set i { call with said := some !e.warned })
      have hfree : isFree key { e with warned := true } = isFree key e := rfl
      rw [hfree] at htally
      rw [hnext]
      simp only [Option.toList_none, List.map_nil, List.sum_nil]
      omega
    · rw [hnext]
      exact (Nat.zero_add _).le
  | turn i =>
    simp only [resets, drops, step]
    rcases turn_cases s i with ⟨call, e, hcall, hphase, he, hempty, hbusy, hturn⟩ |
      ⟨call, e, hcall, hphase, he, hfilled, hturn⟩ | hturn
    · have htally := tally_set (isFree key) key { e with busy := true } he rfl rfl
        (s.calls.set i { call with phase := .fetching }) s.warners
      have hstart : fetches key s (.turn i) = if e.key = key then some () else none := by
        have hbefore : s.fetchingAt i = none := by simp [fetchingAt, hcall, hphase]
        have hafter : (s.turn i).fetchingAt i =
            some ({ call with phase := .fetching }, { e with busy := true }) := by
          obtain ⟨hlt, -⟩ := List.getElem?_eq_some_iff.mp hcall
          obtain ⟨hlt', -⟩ := List.getElem?_eq_some_iff.mp he
          rw [hturn, fetching_at_some]
          exact ⟨List.getElem?_set_self hlt, rfl, List.getElem?_set_self hlt'⟩
        simp only [fetches, hbefore, hafter]
      have hfree : (isFree key e).toNat = if e.key = key then 1 else 0 := by
        by_cases hkey : e.key = key <;> simp [isFree, hkey, hempty, hbusy]
      have hnot : isFree key { e with busy := true } = false := by simp [isFree]
      rw [hstart, sum_if, hturn]
      rw [hnot] at htally
      simp only [Bool.toNat_false, Option.toList_none, List.map_nil, List.sum_nil] at htally ⊢
      omega
    · have hstart : fetches key s (.turn i) = none := by
        have hafter : (s.turn i).fetchingAt i = none := by
          rw [hturn]
          obtain ⟨hlt, -⟩ := List.getElem?_eq_some_iff.mp hcall
          simp [fetchingAt, hlt]
        simp only [fetches, hafter]
      rw [hstart, hturn]
      exact (Nat.zero_add _).le
    · have hstart : fetches key s (.turn i) = none := by
        simp only [fetches, hturn]
        cases s.fetchingAt i <;> rfl
      rw [hstart, hturn]
      exact (Nat.zero_add _).le
  | answer i answer =>
    have hone := settle_paid key s i (fun nowMs => answer.resolved nowMs)
      fun left => .done (answerOf left)
    simp only [fetches, resets, step]
    cases hfetch : s.fetchingAt i with
    | none =>
      rw [hfetch] at hone
      exact (Nat.zero_add _).trans_le hone
    | some fetching =>
      rw [hfetch] at hone
      simp only [sum_if]
      exact (Nat.zero_add _).trans_le hone
  | abandon i =>
    simp only [fetches, resets, step]
    rcases abandon_cases s i with ⟨call, -, -, hfetch, habandon⟩ | habandon
    · rw [habandon, hfetch]
      exact (Nat.zero_add _).le
    · have hone := settle_paid key s i (fun _ => none) fun _ => .gone
      rw [habandon]
      cases hfetch : s.fetchingAt i with
      | none =>
        rw [hfetch] at hone
        exact (Nat.zero_add _).trans_le hone
      | some fetching =>
        rw [hfetch] at hone
        simp only [sum_if, and_true] at hone ⊢
        exact (Nat.zero_add _).trans_le hone

/-- The warnings of a step are paid for by the entries the map loses. -/
theorem warning_paid (key : K) (s : ClientIdentityCache B K) (act : IdentityAct B) :
    ((warnings key s act).toList.map fun _ => 1).sum +
        ((s.step keyOf act).entries.countP (isUnwarned key) + absent key (s.step keyOf act)) ≤
      s.entries.countP (isUnwarned key) + absent key s +
        ((drops keyOf key s act).toList.map fun _ => 1).sum := by
  have hentry : ∀ other nowMs, _ := entry_paid key (p := isUnwarned key) (fun _ _ => rfl)
    (fun key' h => by simpa [isUnwarned] using h) s
  have hsettle : ∀ i left phase, (s.settle i left phase).entries.countP (isUnwarned key) +
      absent key (s.settle i left phase) = s.entries.countP (isUnwarned key) + absent key s := by
    intro i left phase
    rcases settle_cases s i left phase with ⟨call, e, hfetch, hsettle⟩ | ⟨-, hsettle⟩
    · obtain ⟨-, -, he⟩ := fetching_at_some.mp hfetch
      have htally := tally_set (isUnwarned key) key
        { e with resolved := left call.nowMs, busy := false } he rfl rfl
        (s.calls.set i { call with phase := phase (left call.nowMs) }) s.warners
      have hsame : isUnwarned key { e with resolved := left call.nowMs, busy := false } =
          isUnwarned key e := rfl
      rw [hsame] at htally
      rw [hsettle]
      dsimp only
      omega
    · rw [hsettle]
  cases act with
  | resolve bearer nowMs =>
    have hone := hentry (keyOf bearer) nowMs
    simp only [warnings, drops, sum_if, step]
    exact (Nat.zero_add _).trans_le hone
  | warn bearer nowMs =>
    have hone := hentry (keyOf bearer) nowMs
    simp only [warnings, drops, sum_if, step]
    exact (Nat.zero_add _).trans_le hone
  | swap i =>
    simp only [warnings, drops, step]
    rcases swap_cases s i with ⟨call, e, hswap, hnext⟩ | ⟨hswap, hnext⟩
    · obtain ⟨hcall, -, he⟩ := swapping_at_some.mp hswap
      have hlt : i < s.warners.length := (List.getElem?_eq_some_iff.mp hcall).1
      have htally := tally_set (isUnwarned key) key { e with warned := true } he rfl rfl s.calls
        (s.warners.set i { call with said := some !e.warned })
      have hnot : isUnwarned key { e with warned := true } = false := by simp [isUnwarned]
      have hfirst : (isUnwarned key e).toNat = if e.key = key ∧ (!e.warned) = true then 1 else 0 := by
        by_cases hk : e.key = key <;> cases hw : e.warned <;> simp [isUnwarned, hk, hw]
      rw [hswap, hnext, List.getElem?_set_self hlt]
      rw [hnot] at htally
      simp only [Option.some.injEq, sum_if, Bool.toNat_false, Option.toList_none, List.map_nil,
        List.sum_nil] at htally ⊢
      omega
    · rw [hswap, hnext]
      exact (Nat.zero_add _).le
  | turn i =>
    simp only [warnings, drops, step]
    rcases turn_cases s i with ⟨call, e, hcall, hphase, he, hempty, hbusy, hturn⟩ |
      ⟨call, e, hcall, hphase, he, hfilled, hturn⟩ | hturn
    · have htally := tally_set (isUnwarned key) key { e with busy := true } he rfl rfl
        (s.calls.set i { call with phase := .fetching }) s.warners
      have hsame : isUnwarned key { e with busy := true } = isUnwarned key e := rfl
      rw [hsame] at htally
      rw [hturn]
      simp only [Option.toList_none, List.map_nil, List.sum_nil]
      omega
    · rw [hturn]
      exact (Nat.zero_add _).le
    · rw [hturn]
      exact (Nat.zero_add _).le
  | answer i answer =>
    exact (Nat.zero_add _).trans_le (hsettle i _ _).le
  | abandon i =>
    simp only [warnings, drops, step]
    rcases abandon_cases s i with ⟨call, -, -, hfetch, habandon⟩ | habandon
    · rw [habandon]
      exact (Nat.zero_add _).le
    · rw [habandon]
      exact (Nat.zero_add _).trans_le (hsettle i _ _).le

end Paid

/-- A bearer is asked about once, however many requests bring it at a time: every further fetch is
paid for by one that left nothing behind or by an entry that lapsed or was forgotten. -/
theorem fetches_shared (keyOf : B → K) (key : K) (acts : List (IdentityAct B)) :
    (observed (step keyOf) (fetches key) {} acts).length ≤
      1 + (observed (step keyOf) (resets keyOf key) {} acts).length := by
  have hpaid := observed_paid (fun s => s.entries.countP (isFree key) + absent key s)
    (fun _ => 1) (fun _ => 1) (fetch_paid keyOf key) {} acts
  simp only [List.map_const', List.sum_replicate_nat, Nat.mul_one] at hpaid
  have hstart : absent key ({} : ClientIdentityCache B K) = 1 := rfl
  rw [hstart] at hpaid
  simp only [List.countP_nil] at hpaid
  omega

/-! ## Who warns -/

def saidAt (place : Nat) (call : WarnCall) : Bool :=
  call.entry = place && call.said = some true

/-- An entry is marked by one who said true, once anybody has answered over it. -/
structure Marked (s : ClientIdentityCache B K) : Prop where
  once : ∀ place e, s.entries[place]? = some e → s.warners.countP (saidAt place) = e.warned.toNat
  marked : ∀ call ∈ s.warners, ∃ e, s.entries[call.entry]? = some e ∧
    (call.said ≠ none → e.warned = true)

section Marked

variable {keyOf} {s t : ClientIdentityCache B K}

omit [DecidableEq K]

/-- The places keep their marks, and those that are new have none and nobody at them. -/
theorem Marked.grow (h : s.Marked) (hwarners : t.warners = s.warners)
    (hold : ∀ (place : Nat) (e : Entry K), s.entries[place]? = some e →
      ∃ e' : Entry K, t.entries[place]? = some e' ∧ e'.warned = e.warned)
    (hnew : ∀ (place : Nat) (e : Entry K), t.entries[place]? = some e →
      s.entries[place]? = none → e.warned = false) :
    t.Marked := by
  refine ⟨fun place e' he' => ?_, fun call hcall => ?_⟩
  · rw [hwarners]
    cases he : s.entries[place]? with
    | some e =>
      obtain ⟨e'', he'', hsame⟩ := hold place e he
      obtain rfl := Option.some_injective _ (he'.symm.trans he'')
      rw [h.once place e he, hsame]
    | none =>
      rw [hnew place e' he' he, Bool.toNat_false, List.countP_eq_zero]
      intro call hcall hsaid
      obtain ⟨e, hentry, -⟩ := h.marked call hcall
      simp only [saidAt, Bool.and_eq_true, decide_eq_true_eq] at hsaid
      rw [hsaid.1, he] at hentry
      cases hentry
  · obtain ⟨e, he, hmark⟩ := h.marked call (hwarners ▸ hcall)
    obtain ⟨e', he', hsame⟩ := hold call.entry e he
    exact ⟨e', he', fun hsaid => hsame.trans (hmark hsaid)⟩

theorem Marked.set (h : s.Marked) {place : Nat} {e f : Entry K} (he : s.entries[place]? = some e)
    (hwarners : t.warners = s.warners) (hentries : t.entries = s.entries.set place f)
    (hwarned : f.warned = e.warned) : t.Marked := by
  refine h.grow hwarners (fun at' x hx => ?_) fun at' x hx hnone => ?_
  · by_cases hat : at' = place
    · subst hat
      obtain rfl := Option.some_injective _ (he.symm.trans hx)
      exact ⟨f, by rw [hentries, List.getElem?_set_self (List.getElem?_eq_some_iff.mp he).1], hwarned⟩
    · exact ⟨x, by rw [hentries, List.getElem?_set_ne (Ne.symm hat), hx], rfl⟩
  · have hlt := (List.getElem?_eq_some_iff.mp hx).1
    rw [hentries, List.length_set] at hlt
    rw [List.getElem?_eq_getElem hlt] at hnone
    cases hnone

theorem Marked.swap (h : s.Marked) (i : Nat) : (s.swap i).Marked := by
  rcases swap_cases s i with ⟨call, e, hswap, hnext⟩ | ⟨-, hnext⟩
  · obtain ⟨hcall, hsaid, he⟩ := swapping_at_some.mp hswap
    have hlt := (List.getElem?_eq_some_iff.mp he).1
    rw [hnext]
    refine ⟨fun place x hx => ?_, fun other hother => ?_⟩
    · have hcount := count_set (b := { call with said := some !e.warned }) hcall (saidAt place)
      have hbefore : saidAt place call = false := by simp [saidAt, hsaid]
      rw [hbefore, Bool.toNat_false, Nat.add_zero] at hcount
      show (s.warners.set i _).countP (saidAt place) = _
      rw [hcount]
      by_cases hat : call.entry = place
      · subst hat
        rw [List.getElem?_set_self hlt] at hx
        obtain rfl := Option.some_injective _ hx
        rw [h.once _ e he]
        cases hw : e.warned <;> simp [saidAt]
      · rw [List.getElem?_set_ne hat] at hx
        rw [h.once place x hx]
        simp [saidAt, hat]
    · have hmark : ∀ place, (∃ x, s.entries[place]? = some x ∧ (x.warned = true ∨ place = call.entry)) →
          ∃ x, (s.entries.set call.entry { e with warned := true })[place]? = some x ∧
            x.warned = true := by
        rintro place ⟨x, hx, hor⟩
        by_cases hat : call.entry = place
        · subst hat
          exact ⟨_, List.getElem?_set_self hlt, rfl⟩
        · rw [List.getElem?_set_ne hat]
          exact ⟨x, hx, hor.resolve_right (Ne.symm hat)⟩
      rcases List.mem_or_eq_of_mem_set hother with hother | rfl
      · obtain ⟨x, hx, hx'⟩ := h.marked other hother
        by_cases hat : call.entry = other.entry
        · obtain ⟨y, hy, hy'⟩ := hmark other.entry ⟨x, hx, .inr hat.symm⟩
          exact ⟨y, hy, fun _ => hy'⟩
        · exact ⟨x, by rw [List.getElem?_set_ne hat, hx], hx'⟩
      · obtain ⟨y, hy, hy'⟩ := hmark call.entry ⟨e, he, .inr rfl⟩
        exact ⟨y, hy, fun _ => hy'⟩
  · rw [hnext]
    exact h

end Marked

theorem Marked.entry {s : ClientIdentityCache B K} (h : s.Marked) (key : K) (nowMs : Int) :
    (s.entry key nowMs).2.Marked := by
  obtain ⟨live, -, htidy⟩ := tidy_spec s key nowMs
  have hmarked : (s.tidy key nowMs).Marked := by
    rw [htidy]
    refine h.grow rfl (fun place e he => ⟨{ e with live := live e }, by simp [he], rfl⟩) ?_
    intro place e he hnone
    simp [hnone] at he
  rcases entry_cases s key nowMs with ⟨place, e, -, -, -, hentry⟩ | ⟨-, hentry⟩
  · rw [hentry]
    exact hmarked
  · rw [hentry]
    refine hmarked.grow rfl (fun place e he => ?_) fun place e he hnone => ?_
    · exact ⟨e, List.getElem?_append_left (List.getElem?_eq_some_iff.mp he).1 |>.trans he, rfl⟩
    · rw [List.getElem?_append_right (List.getElem?_eq_none_iff.mp hnone)] at he
      rw [List.mem_singleton.mp (List.mem_of_getElem? he)]

theorem Marked.step {s : ClientIdentityCache B K} (h : s.Marked) (act : IdentityAct B) :
    (s.step keyOf act).Marked := by
  have hsettle : ∀ i left phase, (s.settle i left phase).Marked := by
    intro i left phase
    rcases settle_cases s i left phase with ⟨call, e, hfetch, hnext⟩ | ⟨-, hnext⟩
    · rw [hnext]
      exact h.set (fetching_at_some.mp hfetch).2.2 rfl rfl rfl
    · rw [hnext]
      exact h
  cases act with
  | resolve bearer nowMs =>
    have hentry := h.entry (keyOf bearer) nowMs
    exact ⟨hentry.once, hentry.marked⟩
  | warn bearer nowMs =>
    have hentry := h.entry (keyOf bearer) nowMs
    obtain ⟨e, he, -⟩ := entry_fresh s (keyOf bearer) nowMs
    refine ⟨fun place x hx => ?_, fun call hcall => ?_⟩
    · show List.countP (saidAt place) ((s.entry (keyOf bearer) nowMs).2.warners ++
        [⟨(s.entry (keyOf bearer) nowMs).1, none⟩]) = _
      rw [List.countP_append, hentry.once place x hx]
      simp [saidAt]
    · rcases List.mem_append.mp hcall with hold | hnew
      · exact hentry.marked call hold
      · rw [List.mem_singleton.mp hnew]
        exact ⟨e, he, fun hsaid => absurd rfl hsaid⟩
  | turn i =>
    show (s.turn i).Marked
    rcases turn_cases s i with ⟨call, e, -, -, he, -, -, hnext⟩ | ⟨call, e, -, -, -, -, hnext⟩ | hnext
    · rw [hnext]
      exact h.set he rfl rfl rfl
    · rw [hnext]
      exact ⟨h.once, h.marked⟩
    · rw [hnext]
      exact h
  | answer i answer =>
    exact hsettle i (fun nowMs => answer.resolved nowMs) fun left => .done (answerOf left)
  | abandon i =>
    show (s.abandon i).Marked
    rcases abandon_cases s i with ⟨call, -, -, -, hnext⟩ | hnext
    · rw [hnext]
      exact ⟨h.once, h.marked⟩
    · rw [hnext]
      exact hsettle i _ _
  | swap i => exact h.swap i

/-- A mismatch is logged once for as long as the map holds the bearer: of those who answered over one
entry exactly one said true. -/
theorem warnings_once (keyOf : B → K) (key : K) (acts : List (IdentityAct B)) :
    (observed (step keyOf) (warnings key) {} acts).length ≤
        1 + (observed (step keyOf) (drops keyOf key) {} acts).length ∧
      ∀ call ∈ (exec (step keyOf) {} acts).warners, call.said ≠ none →
        (exec (step keyOf) {} acts).warners.countP (saidAt call.entry) = 1 := by
  have hpaid := observed_paid (fun s => s.entries.countP (isUnwarned key) + absent key s)
    (fun _ => 1) (fun _ => 1) (warning_paid keyOf key) {} acts
  simp only [List.map_const', List.sum_replicate_nat, Nat.mul_one] at hpaid
  have hstart : absent key ({} : ClientIdentityCache B K) = 1 := rfl
  rw [hstart] at hpaid
  simp only [List.countP_nil] at hpaid
  have hnone : ({} : ClientIdentityCache B K).Marked := ⟨fun place e he => by simp at he, nofun⟩
  have hmarked : (exec (step keyOf) {} acts).Marked :=
    exec_invariant (I := Marked) (A := fun _ _ => True) (fun _ act h _ => h.step keyOf act) hnone
      (fun _ _ _ => trivial) acts List.prefix_rfl
  refine ⟨by omega, fun call hcall hsaid => ?_⟩
  obtain ⟨e, he, hmark⟩ := hmarked.marked call hcall
  rw [hmarked.once call.entry e he, hmark hsaid, Bool.toNat_true]

/-! ## What is answered -/

/-- What an entry is to those who share it, in the map or not. -/
structure Shared (K : Type*) where
  key : K
  resolved : Option Resolved
  busy : Bool

def sharedOf (e : Entry K) : Shared K :=
  ⟨e.key, e.resolved, e.busy⟩

def shared (s : ClientIdentityCache B K) : List (Shared K) :=
  s.entries.map sharedOf

structure Holds (keyOf : B → K) (call : ResolveCall B) (x : Shared K) : Prop where
  key : x.key = keyOf call.bearer
  fetching : call.phase = .fetching → x.busy = true ∧ x.resolved = none
  done : ∀ client, call.phase = .done (some client) → x.resolved = some (.identity client)

/-- What the cache holds is what upstream told, and each entry has one fetch at a time. -/
structure Honest (keyOf : B → K) (shown : List (B × Int × ProfileAnswer))
    (s : ClientIdentityCache B K) : Prop where
  filled : ∀ x ∈ s.shared, ∀ resolved, x.resolved = some resolved →
    ∃ bearer nowMs answer, (bearer, nowMs, answer) ∈ shown ∧ keyOf bearer = x.key ∧
      answer.resolved nowMs = some resolved
  calls : ∀ call ∈ s.calls, ∃ x, s.shared[call.entry]? = some x ∧ Holds keyOf call x
  single : ∀ (i j : Nat) (a b : ResolveCall B), s.calls[i]? = some a → s.calls[j]? = some b →
    a.phase = .fetching → b.phase = .fetching → a.entry = b.entry → i = j
  small : s.len ≤ cacheCap

section Honest

variable {keyOf} {s : ClientIdentityCache B K} {shown : List (B × Int × ProfileAnswer)} {key : K}
  {nowMs : Int}

theorem shared_tidy (s : ClientIdentityCache B K) (key : K) (nowMs : Int) :
    (s.tidy key nowMs).shared = s.shared := by
  obtain ⟨live, -, htidy⟩ := tidy_spec s key nowMs
  rw [htidy, shared, List.map_map]
  rfl

theorem calls_entry (s : ClientIdentityCache B K) (key : K) (nowMs : Int) :
    (s.entry key nowMs).2.calls = s.calls := by
  obtain ⟨live, -, htidy⟩ := tidy_spec s key nowMs
  rcases entry_cases s key nowMs with ⟨place, e, -, -, -, hentry⟩ | ⟨-, hentry⟩ <;>
    rw [hentry, htidy]

/-- Taking an entry shares one more at most, and hands out the key's. -/
theorem shared_entry (s : ClientIdentityCache B K) (key : K) (nowMs : Int) :
    ((s.entry key nowMs).2.shared = s.shared ∨
        (s.entry key nowMs).2.shared = s.shared ++ [⟨key, none, false⟩]) ∧
      ∃ x, (s.entry key nowMs).2.shared[(s.entry key nowMs).1]? = some x ∧ x.key = key := by
  have htidy := shared_tidy s key nowMs
  rcases entry_cases s key nowMs with ⟨place, e, -, he, hkey, hentry⟩ | ⟨-, hentry⟩
  · rw [hentry]
    refine ⟨.inl htidy, sharedOf e, ?_, hkey⟩
    simp [shared, he]
  · rw [hentry]
    refine ⟨.inr ?_, ⟨key, none, false⟩, ?_, rfl⟩
    · rw [← htidy, shared, List.map_append]
      rfl
    · simp [shared, sharedOf]

theorem len_tidy (s : ClientIdentityCache B K) (key : K) (nowMs : Int) :
    (s.tidy key nowMs).len ≤ s.len := by
  obtain ⟨live, hlive, htidy⟩ := tidy_spec s key nowMs
  rw [htidy, len, List.countP_map]
  exact List.countP_mono_left fun e _ h => hlive e h

/-- Where the key is still new after tidying, there is room for it. -/
theorem tidy_room (h : (s.tidy key nowMs).find key = none) :
    (s.tidy key nowMs).len < cacheCap := by
  unfold tidy at h ⊢
  simp only at h ⊢
  generalize (if s.expired key nowMs = true then s.forget fun entry => decide (entry.key = key)
    else s) = u at h ⊢
  split at h
  · rename_i hfull
    rw [if_pos hfull]
    have hnone : ∀ u : ClientIdentityCache B K, (u.forget fun _ => true).len = 0 := by
      intro u
      simp [len, forget, List.countP_eq_zero]
    rw [hnone]
    decide
  · rename_i hfull
    rw [if_neg hfull]
    exact Nat.lt_of_not_le fun hle => hfull ⟨hle, h⟩

theorem len_entry (h : s.len ≤ cacheCap) : (s.entry key nowMs).2.len ≤ cacheCap := by
  rcases entry_cases s key nowMs with ⟨place, e, -, -, -, hentry⟩ | ⟨hnone, hentry⟩
  · rw [hentry]
    exact (len_tidy s key nowMs).trans h
  · rw [hentry]
    have hroom := tidy_room hnone
    unfold len at hroom ⊢
    simp only [List.countP_append, List.countP_singleton, if_true]
    omega

omit [DecidableEq K] in
theorem Honest.same (h : Honest keyOf shown s) {t : ClientIdentityCache B K}
    (hshared : t.shared = s.shared) (hlen : t.len = s.len) (hcalls : t.calls = s.calls) :
    Honest keyOf shown t := by
  refine ⟨?_, ?_, ?_, hlen ▸ h.small⟩
  · rw [hshared]
    exact h.filled
  · rw [hshared, hcalls]
    exact h.calls
  · rw [hcalls]
    exact h.single

/-- Entries that come or are let in on nothing leave all that is held as it was. -/
theorem Honest.entry (h : Honest keyOf shown s) (key : K) (nowMs : Int)
    {t : ClientIdentityCache B K} (hshared : t.shared = (s.entry key nowMs).2.shared)
    (hlen : t.len = (s.entry key nowMs).2.len) (hcalls : t.calls = s.calls) :
    Honest keyOf shown t := by
  have hgrown := (shared_entry s key nowMs).1
  rw [← hshared] at hgrown
  refine ⟨fun x hx resolved hr => ?_, fun call hcall => ?_, ?_, ?_⟩
  · rcases hgrown with hsame | hnew
    · exact h.filled x (hsame ▸ hx) resolved hr
    · rw [hnew] at hx
      rcases List.mem_append.mp hx with hx | hx
      · exact h.filled x hx resolved hr
      · obtain rfl := List.mem_singleton.mp hx
        cases hr
  · obtain ⟨x, hx, hholds⟩ := h.calls call (hcalls ▸ hcall)
    refine ⟨x, ?_, hholds⟩
    rcases hgrown with hsame | hnew
    · rw [hsame, hx]
    · obtain ⟨hlt, -⟩ := List.getElem?_eq_some_iff.mp hx
      rw [hnew, List.getElem?_append_left hlt, hx]
  · rw [hcalls]
    exact h.single
  · rw [hlen]
    exact len_entry h.small

omit [DecidableEq K] in
theorem set_self {α : Type*} {items : List α} {i : Nat} {a : α} (h : items[i]? = some a) :
    items.set i a = items := by
  simpa using map_set_same (f := id) h rfl

omit [DecidableEq K] in
/-- A call and its entry written back together, with the others that share the entry in mind. -/
theorem Honest.write (h : Honest keyOf shown s) {i : Nat} {call : ResolveCall B} {x : Shared K}
    (after : ResolveCall B) (y : Shared K) {t : ClientIdentityCache B K}
    {more : List (B × Int × ProfileAnswer)}
    (hcall : s.calls[i]? = some call) (hx : s.shared[call.entry]? = some x)
    (hshared : t.shared = s.shared.set call.entry y) (hcalls : t.calls = s.calls.set i after)
    (hlen : t.len = s.len) (hentry : after.entry = call.entry)
    (hfilled : ∀ resolved, y.resolved = some resolved →
      ∃ bearer nowMs answer, (bearer, nowMs, answer) ∈ shown ++ more ∧ keyOf bearer = y.key ∧
        answer.resolved nowMs = some resolved)
    (hheld : Holds keyOf after y)
    (hothers : ∀ j other, j ≠ i → s.calls[j]? = some other → other.entry = call.entry →
      Holds keyOf other x → Holds keyOf other y)
    (hsingle : after.phase = .fetching → ∀ j other, j ≠ i → s.calls[j]? = some other →
      other.entry = call.entry → other.phase ≠ .fetching) :
    Honest keyOf (shown ++ more) t := by
  have hplace : s.shared.length > call.entry := (List.getElem?_eq_some_iff.mp hx).1
  have hlt : i < s.calls.length := (List.getElem?_eq_some_iff.mp hcall).1
  -- what stands at a place of the new calls
  have hat : ∀ j other, t.calls[j]? = some other →
      (j = i ∧ other = after) ∨ (j ≠ i ∧ s.calls[j]? = some other) := by
    intro j other hother
    rw [hcalls, List.getElem?_set] at hother
    split at hother
    · rename_i hij
      subst hij
      exact .inl ⟨rfl, (Option.some.inj hother).symm⟩
    · rename_i hij
      exact .inr ⟨fun hji => hij hji.symm, hother⟩
  refine ⟨fun z hz resolved hr => ?_, fun other hother => ?_, fun j k a b ha hb hfa hfb hab => ?_,
    hlen ▸ h.small⟩
  · rw [hshared] at hz
    rcases List.mem_or_eq_of_mem_set hz with hz | rfl
    · obtain ⟨bearer, nowMs, answer, hmem, hkey, hanswer⟩ := h.filled z hz resolved hr
      exact ⟨bearer, nowMs, answer, List.mem_append_left _ hmem, hkey, hanswer⟩
    · exact hfilled resolved hr
  · obtain ⟨j, hj⟩ := List.mem_iff_getElem?.mp hother
    rcases hat j other hj with ⟨-, rfl⟩ | ⟨hji, hold⟩
    · refine ⟨y, ?_, hheld⟩
      rw [hshared, hentry, List.getElem?_set_self hplace]
    · obtain ⟨z, hz, hholds⟩ := h.calls other (List.mem_of_getElem? hold)
      by_cases hsame : other.entry = call.entry
      · rw [hsame, hx, Option.some.injEq] at hz
        subst hz
        refine ⟨y, ?_, hothers j other hji hold hsame hholds⟩
        rw [hshared, hsame, List.getElem?_set_self hplace]
      · refine ⟨z, ?_, hholds⟩
        rw [hshared, List.getElem?_set_ne (fun heq => hsame heq.symm), hz]
  · rcases hat j a ha with ⟨rfl, rfl⟩ | ⟨hji, ha⟩
    · rcases hat k b hb with ⟨rfl, rfl⟩ | ⟨hki, hb⟩
      · rfl
      · exact absurd hfb (hsingle hfa k b hki hb (hab.symm.trans hentry))
    · rcases hat k b hb with ⟨rfl, rfl⟩ | ⟨hki, hb⟩
      · exact absurd hfa (hsingle hfb j a hji ha (hab.trans hentry))
      · exact h.single j k a b ha hb hfa hfb hab

omit [DecidableEq K] in
theorem shared_at {place : Nat} {e : Entry K} (h : s.entries[place]? = some e) :
    s.shared[place]? = some (sharedOf e) := by
  rw [shared, List.getElem?_map, h]
  rfl

omit [DecidableEq K] in
theorem len_set {t : ClientIdentityCache B K} {place : Nat} {e f : Entry K}
    (h : s.entries[place]? = some e) (ht : t.entries = s.entries.set place f)
    (hlive : f.live = e.live) : t.len = s.len := by
  rw [len, ht]
  have hcount := count_set (b := f) h fun e => e.live
  simp only [hlive] at hcount
  exact Nat.add_right_cancel hcount

omit [DecidableEq K] in
theorem Honest.holds (h : Honest keyOf shown s) {i : Nat} {call : ResolveCall B} {e : Entry K}
    (hcall : s.calls[i]? = some call) (he : s.entries[call.entry]? = some e) :
    Holds keyOf call (sharedOf e) := by
  obtain ⟨x, hx, hholds⟩ := h.calls call (List.mem_of_getElem? hcall)
  rw [shared_at he, Option.some.injEq] at hx
  rwa [hx]

omit [DecidableEq K] in
theorem Honest.turn (h : Honest keyOf shown s) (i : Nat) :
    Honest keyOf (shown ++ []) (s.turn i) := by
  rcases turn_cases s i with ⟨call, e, hcall, hphase, he, hempty, hbusy, hturn⟩ |
    ⟨call, e, hcall, hphase, he, hfilled, hturn⟩ | hturn
  · have hholds := h.holds hcall he
    rw [hturn]
    refine h.write { call with phase := .fetching } (sharedOf { e with busy := true })
      hcall (shared_at he) (List.map_set ..) rfl (len_set he rfl rfl) rfl (fun resolved hr => ?_)
      ⟨hholds.key, fun _ => ⟨rfl, hempty⟩, nofun⟩ (fun j other _ hother _ hx => ?_)
      (fun _ j other _ hother hsame hfetching => ?_)
    · rw [show (sharedOf { e with busy := true }).resolved = none from hempty] at hr
      cases hr
    · exact ⟨hx.key, fun hf => ⟨rfl, hempty⟩, hx.done⟩
    · have hx := h.holds hother (hsame ▸ he)
      exact absurd (hx.fetching hfetching).1 (by rw [sharedOf, hbusy]; exact Bool.false_ne_true)
  · have hholds := h.holds hcall he
    rw [hturn]
    refine h.write { call with phase := .done (answerOf e.resolved) } (sharedOf e)
      hcall (shared_at he) (set_self (shared_at he)).symm rfl rfl rfl (fun resolved hr => ?_)
      ⟨hholds.key, nofun, fun client hdone => ?_⟩ (fun _ _ _ _ _ hx => hx) nofun
    · obtain ⟨bearer, nowMs, answer, hmem, hrest⟩ :=
        h.filled _ (List.mem_of_getElem? (shared_at he)) resolved hr
      exact ⟨bearer, nowMs, answer, List.mem_append_left _ hmem, hrest⟩
    · have hanswer : answerOf e.resolved = some client := by simpa using hdone
      show e.resolved = _
      unfold answerOf at hanswer
      split at hanswer
      · rename_i hr
        rw [hr, Option.some.inj hanswer]
      · cases hanswer
  · rw [hturn, List.append_nil]
    exact h

omit [DecidableEq K] in
/-- What a fetch leaves is what upstream told it, or nothing. -/
theorem Honest.settle (h : Honest keyOf shown s) (i : Nat) (left : Int → Option Resolved)
    (phase : Option Resolved → ResolvePhase) (more : List (B × Int × ProfileAnswer))
    (hmore : ∀ call e, s.fetchingAt i = some (call, e) → ∀ resolved, left call.nowMs = some resolved →
      ∃ answer, (call.bearer, call.nowMs, answer) ∈ more ∧
        answer.resolved call.nowMs = some resolved)
    (hphase : ∀ l, phase l ≠ .fetching ∧ ∀ client, phase l = .done (some client) →
      l = some (.identity client)) :
    Honest keyOf (shown ++ more) (s.settle i left phase) := by
  rcases settle_cases s i left phase with ⟨call, e, hfetch, hsettle⟩ | ⟨hfetch, hsettle⟩
  · obtain ⟨hcall, hfetching, he⟩ := fetching_at_some.mp hfetch
    have hholds := h.holds hcall he
    rw [hsettle]
    refine h.write { call with phase := phase (left call.nowMs) }
      (sharedOf { e with resolved := left call.nowMs, busy := false }) hcall (shared_at he)
      (List.map_set ..) rfl (len_set he rfl rfl) rfl (fun resolved hr => ?_)
      ⟨hholds.key, fun hf => absurd hf (hphase _).1, (hphase _).2⟩
      (fun j other hji hother hsame hx => ?_) (fun hf => absurd hf (hphase _).1)
    · obtain ⟨answer, hmem, hanswer⟩ := hmore call e hfetch resolved hr
      exact ⟨call.bearer, call.nowMs, answer, List.mem_append_right _ hmem, hholds.key.symm,
        hanswer⟩
    · have hempty : e.resolved = none := (hholds.fetching hfetching).2
      refine ⟨hx.key, fun hf => ?_, fun client hdone => ?_⟩
      · exact absurd (h.single j i other call hother hcall hf hfetching hsame) hji
      · have hsome : e.resolved = _ := hx.done client hdone
        rw [hempty] at hsome
        cases hsome
  · rw [hsettle]
    have hweak : ∀ x ∈ shown, x ∈ shown ++ more := fun x hx => List.mem_append_left _ hx
    refine ⟨fun x hx resolved hr => ?_, h.calls, h.single, h.small⟩
    obtain ⟨bearer, nowMs, answer, hmem, hrest⟩ := h.filled x hx resolved hr
    exact ⟨bearer, nowMs, answer, hweak _ hmem, hrest⟩

omit [DecidableEq K] in
theorem Honest.append_call (h : Honest keyOf shown s) (call : ResolveCall B) {x : Shared K}
    (hx : s.shared[call.entry]? = some x) (hkey : x.key = keyOf call.bearer)
    (hphase : call.phase = .waiting) : Honest keyOf shown { s with calls := s.calls ++ [call] } := by
  have hold : ∀ (j : Nat) (other : ResolveCall B), (s.calls ++ [call])[j]? = some other →
      other.phase = .fetching → s.calls[j]? = some other := by
    intro j other hother hfetching
    rcases Nat.lt_or_ge j s.calls.length with hlt | hge
    · rwa [List.getElem?_append_left hlt] at hother
    · rw [List.getElem?_append_right hge] at hother
      have hmem := List.mem_singleton.mp (List.mem_of_getElem? hother)
      rw [hmem, hphase] at hfetching
      cases hfetching
  refine ⟨h.filled, fun other hother => ?_, fun j k a b ha hb hfa hfb => ?_, h.small⟩
  · rcases List.mem_append.mp hother with hother | hother
    · exact h.calls other hother
    · obtain rfl := List.mem_singleton.mp hother
      refine ⟨x, hx, hkey, fun hf => ?_, fun client hdone => ?_⟩
      · rw [hphase] at hf
        cases hf
      · rw [hphase] at hdone
        cases hdone
  · exact h.single j k a b (hold j a ha hfa) (hold k b hb hfb) hfa hfb

omit [DecidableEq K] in
theorem told_some {i : Nat} {answer : ProfileAnswer} {call : ResolveCall B} {e : Entry K}
    (h : s.fetchingAt i = some (call, e)) :
    (s.told (.answer i answer)).toList = [(call.bearer, call.nowMs, answer)] := by
  simp [told, h]

/-- Every step keeps the cache honest, with what upstream tells at it. -/
theorem Honest.step (h : Honest keyOf shown s) (act : IdentityAct B) :
    Honest keyOf (shown ++ (s.told act).toList) (s.step keyOf act) := by
  cases act with
  | resolve bearer nowMs =>
    obtain ⟨-, x, hx, hkey⟩ := shared_entry s (keyOf bearer) nowMs
    have hentry := h.entry (keyOf bearer) nowMs rfl rfl (calls_entry s (keyOf bearer) nowMs)
    show Honest keyOf (shown ++ []) _
    rw [List.append_nil]
    exact hentry.append_call { bearer, nowMs, entry := _ } hx hkey rfl
  | turn i =>
    exact h.turn i
  | answer i answer =>
    refine h.settle i (fun nowMs => answer.resolved nowMs) (fun left => .done (answerOf left))
      _ (fun call e hfetch resolved hr => ?_) fun l => ⟨nofun, fun client hdone => ?_⟩
    · refine ⟨answer, ?_, hr⟩
      rw [told_some hfetch]
      exact List.mem_singleton.mpr rfl
    · have hanswer : answerOf l = some client := by simpa using hdone
      unfold answerOf at hanswer
      split at hanswer
      · rw [Option.some.inj hanswer]
      · cases hanswer
  | abandon i =>
    show Honest keyOf (shown ++ []) (s.abandon i)
    rcases abandon_cases s i with ⟨call, hcall, -, -, habandon⟩ | habandon
    · obtain ⟨x, hx, hholds⟩ := h.calls call (List.mem_of_getElem? hcall)
      rw [habandon]
      refine h.write { call with phase := .gone } x hcall hx
        (set_self hx).symm rfl rfl rfl (fun resolved hr => ?_) ⟨hholds.key, nofun, nofun⟩
        (fun _ _ _ _ _ hx => hx) nofun
      obtain ⟨bearer, nowMs, answer, hmem, hrest⟩ :=
        h.filled x (List.mem_of_getElem? hx) resolved hr
      exact ⟨bearer, nowMs, answer, List.mem_append_left _ hmem, hrest⟩
    · rw [habandon]
      exact h.settle i _ _ [] (fun _ _ _ _ hr => nomatch hr) fun _ => ⟨nofun, nofun⟩
  | warn bearer nowMs =>
    show Honest keyOf (shown ++ []) _
    rw [List.append_nil]
    exact h.entry (keyOf bearer) nowMs rfl rfl (calls_entry s (keyOf bearer) nowMs)
  | swap i =>
    show Honest keyOf (shown ++ []) (s.swap i)
    rw [List.append_nil]
    rcases swap_cases s i with ⟨call, e, hswap, hnext⟩ | ⟨-, hnext⟩
    · obtain ⟨-, -, he⟩ := swapping_at_some.mp hswap
      rw [hnext]
      refine h.same (map_set_same he rfl) (len_set he rfl rfl) rfl
    · rw [hnext]
      exact h

end Honest

/-- The answers upstream gave in a run. -/
def toldIn (keyOf : B → K) (acts : List (IdentityAct B)) : List (B × Int × ProfileAnswer) :=
  observed (step keyOf) told {} acts

theorem run_honest (keyOf : B → K) (acts : List (IdentityAct B)) :
    Honest keyOf (toldIn keyOf acts) (exec (step keyOf) {} acts) := by
  have hstart : Honest keyOf [] ({} : ClientIdentityCache B K) :=
    ⟨List.forall_mem_nil _, List.forall_mem_nil _, fun _ _ _ _ h => absurd h nofun, Nat.zero_le _⟩
  have hrun : Honest keyOf ([] ++ toldIn keyOf acts) (exec (step keyOf) {} acts) :=
    observed_invariant (I := Honest keyOf) (fun _ _ act h => Honest.step h act) hstart acts
  rwa [List.nil_append] at hrun

/-- What the calls of a run may rely on. -/
structure Answered (keyOf : B → K) (acts : List (IdentityAct B))
    (s : ClientIdentityCache B K) : Prop where
  /-- An identity is one upstream gave for a bearer of the same digest. -/
  told : ∀ call ∈ s.calls, ∀ client, call.phase = .done (some client) →
    ∃ bearer nowMs, (bearer, nowMs, .profile client.email client.accountUuid) ∈ toldIn keyOf acts ∧
      keyOf bearer = keyOf call.bearer
  /-- Who is told an identity is told the one its entry is filled with. -/
  agree : ∀ call ∈ s.calls, ∀ client, call.phase = .done (some client) →
    ∃ e, s.entries[call.entry]? = some e ∧ e.resolved = some (.identity client)
  /-- A bearer is held for refused until a minute after a fetch that was refused set out. -/
  refused : ∀ e ∈ s.entries, ∀ untilMs, e.resolved = some (.unresolvable untilMs) →
    ∃ bearer nowMs code, (bearer, nowMs, .status code) ∈ toldIn keyOf acts ∧
      (code = 401 ∨ code = 403) ∧ keyOf bearer = e.key ∧ untilMs = nowMs + unresolvableTtlMs
  /-- A call from then on is handed another entry. -/
  lapsed : ∀ bearer nowMs, ∃ call e,
    (s.step keyOf (.resolve bearer nowMs)).calls = s.calls ++ [call] ∧
      (s.step keyOf (.resolve bearer nowMs)).entries[call.entry]? = some e ∧
        e.key = keyOf bearer ∧ ∀ untilMs, e.resolved = some (.unresolvable untilMs) → nowMs < untilMs
  /-- One before then is handed the refused entry, as long as the map has it. -/
  held : ∀ bearer nowMs untilMs place e, s.find (keyOf bearer) = some place →
    s.entries[place]? = some e → e.resolved = some (.unresolvable untilMs) → nowMs < untilMs →
      s.step keyOf (.resolve bearer nowMs) =
        { s with calls := s.calls ++ [{ bearer, nowMs, entry := place }] }
  /-- No two calls fetch for one entry. -/
  single : ∀ (i j : Nat) (a b : ResolveCall B), s.calls[i]? = some a → s.calls[j]? = some b →
    a.phase = .fetching → b.phase = .fetching → a.entry = b.entry → i = j
  small : s.len ≤ cacheCap

theorem run_unique (keyOf : B → K) (acts : List (IdentityAct B)) :
    (exec (step keyOf) {} acts).Unique := by
  have hstart : ({} : ClientIdentityCache B K).Unique := List.Pairwise.nil
  refine exec_invariant (I := Unique) (A := fun _ _ => True) (fun s act h _ => ?_) hstart
    (fun _ _ _ => trivial) acts List.prefix_rfl
  have hset : ∀ {place : Nat} {e f : Entry K} {t : ClientIdentityCache B K},
      s.entries[place]? = some e → t.entries = s.entries.set place f → f.live = e.live →
        f.key = e.key → t.Unique := by
    intro place e f t he ht hlive hkey
    rw [Unique, ht, map_set_same he (by rw [hlive, hkey])]
    exact h
  have hsettle : ∀ i left phase, (s.settle i left phase).Unique := by
    intro i left phase
    rcases settle_cases s i left phase with ⟨call, e, hfetch, hnext⟩ | ⟨-, hnext⟩
    · rw [hnext]
      exact hset (fetching_at_some.mp hfetch).2.2 rfl rfl rfl
    · rw [hnext]
      exact h
  cases act with
  | resolve bearer nowMs => exact h.entry (keyOf bearer) nowMs
  | warn bearer nowMs => exact h.entry (keyOf bearer) nowMs
  | turn i =>
    show (s.turn i).Unique
    rcases turn_cases s i with ⟨call, e, -, -, he, -, -, hnext⟩ | ⟨call, e, -, -, -, -, hnext⟩ | hnext
    · rw [hnext]
      exact hset he rfl rfl rfl
    · rw [hnext]
      exact h
    · rw [hnext]
      exact h
  | answer i answer => exact hsettle i _ _
  | abandon i =>
    show (s.abandon i).Unique
    rcases abandon_cases s i with ⟨call, -, -, -, hnext⟩ | hnext
    · rw [hnext]
      exact h
    · rw [hnext]
      exact hsettle i _ _
  | swap i =>
    show (s.swap i).Unique
    rcases swap_cases s i with ⟨call, e, hswap, hnext⟩ | ⟨-, hnext⟩
    · rw [hnext]
      exact hset (swapping_at_some.mp hswap).2.2 rfl rfl rfl
    · rw [hnext]
      exact h

theorem resolved_identity {answer : ProfileAnswer} {nowMs : Int} {client : ClientIdentity}
    (h : answer.resolved nowMs = some (.identity client)) :
    answer = .profile client.email client.accountUuid := by
  unfold ProfileAnswer.resolved at h
  split at h
  · cases h
  · cases h
    rfl
  · split at h <;> cases h
  · cases h

theorem resolved_refused {answer : ProfileAnswer} {nowMs untilMs : Int}
    (h : answer.resolved nowMs = some (.unresolvable untilMs)) :
    ∃ code, answer = .status code ∧ (code = 401 ∨ code = 403) ∧
      untilMs = nowMs + unresolvableTtlMs := by
  unfold ProfileAnswer.resolved at h
  split at h
  · cases h
  · cases h
  · rename_i code
    split at h
    · rename_i hcode
      cases h
      exact ⟨code, rfl, hcode, rfl⟩
    · cases h
  · cases h

/-- Whatever the interleaving, what is answered for a bearer is what upstream said of it and its entry
holds, a refusal is held for a minute and no longer, and no two calls on one entry are asking upstream
at once. -/
theorem run_answered (keyOf : B → K) (acts : List (IdentityAct B)) :
    Answered keyOf acts (exec (step keyOf) {} acts) := by
  have h := run_honest keyOf acts
  have hunique := run_unique keyOf acts
  refine ⟨fun call hcall client hdone => ?_, fun call hcall client hdone => ?_,
    fun e he untilMs hr => ?_, fun bearer nowMs => ?_,
    fun bearer nowMs untilMs place e hfind he hr hlt => ?_, h.single, h.small⟩
  · obtain ⟨x, hx, hholds⟩ := h.calls call hcall
    obtain ⟨bearer, nowMs, answer, hmem, hkey, hanswer⟩ :=
      h.filled x (List.mem_of_getElem? hx) _ (hholds.done client hdone)
    exact ⟨bearer, nowMs, resolved_identity hanswer ▸ hmem, hkey.trans hholds.key⟩
  · obtain ⟨x, hx, hholds⟩ := h.calls call hcall
    obtain ⟨e, he, rfl⟩ := Option.map_eq_some_iff.mp (List.getElem?_map .. ▸ hx)
    exact ⟨e, he, hholds.done client hdone⟩
  · obtain ⟨bearer, nowMs, answer, hmem, hkey, hanswer⟩ :=
      h.filled (sharedOf e) (List.mem_map_of_mem he) _ hr
    obtain ⟨code, hstatus, hcode, huntil⟩ := resolved_refused hanswer
    exact ⟨bearer, nowMs, code, hstatus ▸ hmem, hcode, hkey, huntil⟩
  · obtain ⟨e, he, hkey, hkept⟩ := entry_fresh (exec (step keyOf) {} acts) (keyOf bearer) nowMs
    refine ⟨_, e, congrArg (· ++ _) (calls_entry _ (keyOf bearer) nowMs), he, hkey, ?_⟩
    intro untilMs hr
    simpa [Entry.expiredAt, hr] using hkept
  · have hkept : e.expiredAt nowMs = false := by simp [Entry.expiredAt, hr, hlt]
    have hentry := entry_held hunique hfind he hkept
    simp only [step, hentry]

end ClientIdentityCache

end TeamClaude.FrontDoor
