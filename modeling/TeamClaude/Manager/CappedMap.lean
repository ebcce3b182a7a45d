import TeamClaude.Lib.Retain
import TeamClaude.Machine

/-!
# Capped maps

A map with a size cap: an insert that takes it past the cap removes the entry touched longest ago,
unless that entry is the one just inserted. The entries are listed in the order an iteration visits
them, so that the list decides between entries touched at one instant.
-/

namespace TeamClaude

/-- A map bounded at `cap`, with the time `touched` reads off a value. -/
structure CappedMap (κ ν : Type) where
  map : AList (fun _ : κ => ν)
  cap : Nat
  touched : ν → Int

namespace CappedMap

variable {κ ν : Type} [DecidableEq κ]

def new (cap : Nat) (touched : ν → Int) : CappedMap κ ν :=
  { map := ∅, cap, touched }

def get (m : CappedMap κ ν) (key : κ) : Option ν :=
  m.map.lookup key

def len (m : CappedMap κ ν) : Nat :=
  m.map.entries.length

/-- The entry touched longest ago, the first of them on a tie. -/
def oldest (m : CappedMap κ ν) : Option κ :=
  (minByKey (fun e => m.touched e.2) m.map.entries).map Sigma.fst

/-- The key an eviction removes: the oldest entry's when the map is over its cap, never `key`. -/
def victim (m : CappedMap κ ν) (key : κ) : Option κ :=
  if m.len ≤ m.cap then none else m.oldest.filter fun oldest => decide (oldest ≠ key)

def evictSparing (m : CappedMap κ ν) (key : κ) : CappedMap κ ν :=
  match m.victim key with
  | some oldest => { m with map := m.map.erase oldest }
  | none => m

/-- The write of `HashMap::insert`, with no eviction. -/
def put (m : CappedMap κ ν) (key : κ) (value : ν) : CappedMap κ ν :=
  { m with map := m.map.insert key value }

def insert (m : CappedMap κ ν) (key : κ) (value : ν) : CappedMap κ ν :=
  (m.put key value).evictSparing key

/-- `HashMap::retain` -/
def retain (m : CappedMap κ ν) (keep : κ → ν → Bool) : CappedMap κ ν :=
  { m with map := Lib.retain (fun e => keep e.1 e.2) m.map }

/-- `map.entry(key).or_insert(value)` -/
def orInsert (m : CappedMap κ ν) (key : κ) (value : ν) : CappedMap κ ν :=
  if (m.get key).isSome then m else m.put key value

theorem victim_ne {m : CappedMap κ ν} {key v : κ} (h : m.victim key = some v) : v ≠ key := by
  unfold victim at h
  split at h
  · cases h
  · simpa using (Option.filter_eq_some_iff.mp h).2

theorem victim_under_cap {m : CappedMap κ ν} {key : κ} (h : m.len ≤ m.cap) :
    m.victim key = none := by
  simp [victim, h]

theorem len_put_le (m : CappedMap κ ν) (key : κ) (value : ν) :
    (m.put key value).len ≤ m.len + 1 := by
  simp only [len, put, AList.entries_insert, List.length_cons]
  exact Nat.succ_le_succ (List.kerase_sublist (β := fun _ : κ => ν) key m.map.entries).length_le

@[simp] theorem get_put_self (m : CappedMap κ ν) (key : κ) (value : ν) :
    (m.put key value).get key = some value := by
  simp [get, put, AList.lookup_insert]

theorem get_put_ne (m : CappedMap κ ν) {key k : κ} (value : ν) (h : k ≠ key) :
    (m.put key value).get k = m.get k := by
  simp [get, put, AList.lookup_insert_ne h]

theorem get_evict_victim {m : CappedMap κ ν} {key v : κ} (h : m.victim key = some v) :
    (m.evictSparing key).get v = none := by
  simp [evictSparing, h, get, AList.lookup_erase]

theorem get_evict_ne {m : CappedMap κ ν} {key k : κ} (h : m.victim key ≠ some k) :
    (m.evictSparing key).get k = m.get k := by
  unfold evictSparing
  split
  · rename_i v hv
    rw [hv] at h
    have hkv : k ≠ v := fun he => h (by rw [he])
    simp [get, AList.lookup_erase_ne hkv]
  · rfl

@[simp] theorem get_evict_self (m : CappedMap κ ν) (key : κ) :
    (m.evictSparing key).get key = m.get key :=
  get_evict_ne fun h => victim_ne h rfl

/-- An insert reads back, whatever it evicted. -/
@[simp] theorem get_insert_self (m : CappedMap κ ν) (key : κ) (value : ν) :
    (m.insert key value).get key = some value := by
  simp [insert]

/-- Another key keeps its value unless it is the one evicted. -/
theorem get_insert_ne (m : CappedMap κ ν) {key k : κ} (value : ν) (h : k ≠ key)
    (hv : (m.put key value).victim key ≠ some k) : (m.insert key value).get k = m.get k := by
  rw [insert, get_evict_ne hv, get_put_ne m value h]

theorem get_insert_victim (m : CappedMap κ ν) {key k : κ} (value : ν)
    (hv : (m.put key value).victim key = some k) : (m.insert key value).get k = none :=
  get_evict_victim hv

/-- What an insert leaves at a key is the inserted value or what was there. -/
theorem get_insert_some {m : CappedMap κ ν} {key k : κ} {value v : ν}
    (h : (m.insert key value).get k = some v) : (k = key ∧ v = value) ∨ m.get k = some v := by
  by_cases hk : k = key
  · subst hk
    rw [get_insert_self] at h
    exact Or.inl ⟨rfl, (Option.some.inj h).symm⟩
  · by_cases hv : (m.put key value).victim key = some k
    · rw [get_insert_victim m value hv] at h
      cases h
    · rw [get_insert_ne m value hk hv] at h
      exact Or.inr h

theorem get_retain_some {m : CappedMap κ ν} {keep : κ → ν → Bool} {k : κ} {v : ν} :
    (m.retain keep).get k = some v ↔ m.get k = some v ∧ keep k v = true :=
  Lib.lookup_retain_some (k := k)

theorem get_retain_keep {m : CappedMap κ ν} {keep : κ → ν → Bool} {k : κ}
    (h : ∀ v, m.get k = some v → keep k v = true) : (m.retain keep).get k = m.get k :=
  Lib.lookup_retain_keep h

theorem get_retain_drop {m : CappedMap κ ν} {keep : κ → ν → Bool} {k : κ} {v : ν}
    (hv : m.get k = some v) (hk : keep k v = false) : (m.retain keep).get k = none :=
  Lib.lookup_retain_drop hv hk

end CappedMap

end TeamClaude
