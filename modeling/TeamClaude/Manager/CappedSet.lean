import TeamClaude.Lib.Recency
import TeamClaude.Manager.CappedMap

/-!
# Capped sets

A set with the cap and the eviction of a capped map, which orders the keys by when each was last
inserted. The set and its order are two containers that every operation writes; together they are
the newest part of the history of inserts.
-/

namespace TeamClaude

open Lib (exec)
open Lib.Recency (Op)

namespace CappedMap

variable {κ ν : Type} [DecidableEq κ]

/-- `HashMap::remove` -/
def remove (m : CappedMap κ ν) (key : κ) : CappedMap κ ν :=
  { m with map := m.map.erase key }

end CappedMap

/-- A set of keys with the number of the insert that last wrote each. -/
structure CappedSet (κ : Type) where
  set : Finset κ
  order : CappedMap κ Int
  next : Int

namespace CappedSet

variable {κ : Type} [DecidableEq κ]

def new (cap : Nat) : CappedSet κ :=
  { set := ∅, order := CappedMap.new cap fun inserted => inserted, next := 0 }

/-- `CappedSet::insert`, and whether the key is new. -/
def insert (s : CappedSet κ) (key : κ) : CappedSet κ × Bool :=
  let order := s.order.put key (s.next + 1)
  let set :=
    match order.victim key with
    | some evicted => s.set.erase evicted
    | none => s.set
  ({ set := Insert.insert key set, order := order.evictSparing key, next := s.next + 1 },
    decide (key ∉ set))

/-- `CappedSet::remove`, and whether the key was in. -/
def remove (s : CappedSet κ) (key : κ) : CappedSet κ × Bool :=
  ({ s with set := s.set.erase key, order := s.order.remove key }, decide (key ∈ s.set))

def retain (s : CappedSet κ) (keep : κ → Bool) : CappedSet κ :=
  let set := s.set.filter fun key => keep key
  { s with set := set, order := s.order.retain fun key _ => decide (key ∈ set) }

def clear (s : CappedSet κ) : CappedSet κ :=
  { s with set := ∅, order := { s.order with map := ∅ } }

def step (s : CappedSet κ) : Op κ → CappedSet κ
  | .touch key => (s.insert key).1
  | .forget key => (s.remove key).1
  | .keepOnly keep => s.retain keep
  | .clear => s.clear

end CappedSet

/-! ## The order -/

namespace CappedMap

variable {κ : Type} [DecidableEq κ]

/-- The map numbers the keys of the list, the newest first, up to `next`. -/
structure Numbers (order : CappedMap κ Int) (next : Int) (held : List κ) : Prop where
  touched : order.touched = fun inserted => inserted
  nodup : held.Nodup
  mem : ∀ k, (order.get k).isSome ↔ k ∈ held
  newer : held.Pairwise fun a b =>
    ∀ x y, order.get a = some x → order.get b = some y → y < x
  current : ∀ k x, order.get k = some x → x ≤ next

theorem numbers_empty (order : CappedMap κ Int) (hmap : order.map = ∅)
    (htouched : order.touched = fun inserted => inserted) (next : Int) :
    order.Numbers next [] := by
  have hget : ∀ k, order.get k = none := fun k => by
    rw [get, hmap]
    exact AList.lookup_empty k
  refine ⟨htouched, List.nodup_nil, fun k => ?_, List.Pairwise.nil, fun k x hx => ?_⟩
  · simp [hget k]
  · rw [hget k] at hx
    cases hx

section Numbers

variable {order order' : CappedMap κ Int} {next : Int} {held held' rest : List κ} {key : κ}

theorem Numbers.keys (h : order.Numbers next held) : order.map.keys.Perm held := by
  refine (List.perm_ext_iff_of_nodup order.map.nodupKeys h.nodup).mpr fun k => ?_
  rw [← h.mem k, get, AList.lookup_isSome]
  exact Iff.rfl

theorem Numbers.len (h : order.Numbers next held) : order.len = held.length := by
  rw [← h.keys.length_eq]
  exact (List.length_map _).symm

theorem Numbers.sub (h : order.Numbers next held) (htouched : order'.touched = order.touched)
    (hsub : held'.Sublist held)
    (hget : ∀ k, order'.get k = if k ∈ held' then order.get k else none) :
    order'.Numbers next held' := by
  have hsome : ∀ k x, order'.get k = some x → order.get k = some x := by
    intro k x hx
    rw [hget k] at hx
    split at hx
    · exact hx
    · cases hx
  refine ⟨htouched.trans h.touched, h.nodup.sublist hsub, fun k => ?_, ?_, fun k x hx =>
    h.current k x (hsome k x hx)⟩
  · rw [hget k]
    split
    · rename_i hk
      exact iff_of_true ((h.mem k).mpr (hsub.subset hk)) hk
    · rename_i hk
      exact iff_of_false (by simp) hk
  · exact (h.newer.sublist hsub).imp fun hlt x y hx hy => hlt x y (hsome _ x hx) (hsome _ y hy)

theorem numbers_remove (h : order.Numbers next held) (key : κ) :
    (order.remove key).Numbers next (Lib.Recency.forget key held) := by
  refine h.sub rfl List.filter_sublist fun k => ?_
  simp only [Lib.Recency.mem_forget]
  by_cases hk : k = key
  · subst hk
    rw [get, remove, AList.lookup_erase, if_neg (by simp)]
  · have hkept : (order.remove key).get k = order.get k := AList.lookup_erase_ne hk
    rw [hkept]
    split
    · rfl
    · rename_i hout
      have hnone : ¬(order.get k).isSome := fun hin => hout ⟨(h.mem k).mp hin, hk⟩
      simpa using hnone

theorem numbers_retain (h : order.Numbers next held) (keep : κ → Bool) :
    (order.retain fun k _ => keep k).Numbers next (held.filter keep) := by
  refine h.sub rfl List.filter_sublist fun k => ?_
  split
  · rename_i hin
    exact get_retain_keep fun _ _ => (List.mem_filter.mp hin).2
  · rename_i hout
    cases hget : order.get k with
    | none =>
      rw [Option.eq_none_iff_forall_ne_some]
      intro x hx
      rw [(get_retain_some.mp hx).1] at hget
      cases hget
    | some x =>
      have hin : k ∈ held := (h.mem k).mp (by rw [hget]; rfl)
      refine get_retain_drop hget ?_
      have hkeep : ¬keep k = true := fun hkeep => hout (List.mem_filter.mpr ⟨hin, hkeep⟩)
      simpa using hkeep

theorem numbers_put (h : order.Numbers next held) (key : κ) :
    (order.put key (next + 1)).Numbers (next + 1) (Lib.Recency.touch key held) := by
  have hrest : ∀ k, k ≠ key → (order.put key (next + 1)).get k = order.get k :=
    fun k hk => get_put_ne order (next + 1) hk
  refine ⟨h.touched, Lib.Recency.touch_nodup h.nodup, fun k => ?_, ?_, fun k x hx => ?_⟩
  · rw [Lib.Recency.mem_touch]
    by_cases hk : k = key
    · subst hk
      simp
    · rw [hrest k hk, h.mem k]
      simp [hk]
  · refine List.pairwise_cons.mpr ⟨fun b hb x y hx hy => ?_, ?_⟩
    · have hne := (Lib.Recency.mem_forget.mp hb).2
      rw [get_put_self] at hx
      rw [hrest b hne] at hy
      have hle := h.current b y hy
      obtain rfl := Option.some_injective _ hx
      omega
    · refine (h.newer.filter _).imp_of_mem fun ha hb hlt x y hx hy => ?_
      rw [hrest _ (Lib.Recency.mem_forget.mp ha).2] at hx
      rw [hrest _ (Lib.Recency.mem_forget.mp hb).2] at hy
      exact hlt x y hx hy
  · by_cases hk : k = key
    · subst hk
      rw [get_put_self] at hx
      exact (Option.some_injective _ hx).symm.le
    · rw [hrest k hk] at hx
      have hle := h.current k x hx
      omega

theorem mem_entries {k : κ} {x : Int} : ⟨k, x⟩ ∈ order.map.entries ↔ order.get k = some x :=
  AList.mem_lookup_iff.symm

/-- The entry touched longest ago is the last of the list. -/
theorem Numbers.oldest (h : order.Numbers next held) : order.oldest = held.getLast? := by
  rw [CappedMap.oldest]
  rcases List.eq_nil_or_concat' held with rfl | ⟨newer, last, rfl⟩
  · have hempty : order.map.entries = [] := by
      have hkeys := h.keys.eq_nil
      exact List.map_eq_nil_iff.mp hkeys
    rw [hempty]
    rfl
  · have hlast : last ∈ newer ++ [last] := List.mem_append_right _ (List.mem_singleton_self last)
    obtain ⟨stamp, hstamp⟩ := Option.isSome_iff_exists.mp ((h.mem last).mpr hlast)
    cases hmin : minByKey (fun e => order.touched e.2) order.map.entries with
    | none =>
      have hmem := mem_entries.mpr hstamp
      rw [min_by_key_none.mp hmin] at hmem
      cases hmem
    | some least =>
      obtain ⟨key, number⟩ := least
      obtain ⟨hin, hleast⟩ := min_by_key_spec hmin
      have hget := mem_entries.mp hin
      have hle := hleast _ (mem_entries.mpr hstamp)
      rw [h.touched] at hle
      have hnumber : number ≤ stamp := hle
      have hheld : key ∈ newer ++ [last] := (h.mem key).mp (by rw [hget]; rfl)
      rw [List.getLast?_concat, Option.map_some]
      rcases List.mem_append.mp hheld with hnewer | hkey
      · have hlt := (List.pairwise_append.mp h.newer).2.2 key hnewer last
          (List.mem_singleton_self last) number stamp hget hstamp
        omega
      · rw [List.mem_singleton.mp hkey]

/-- Once the key at the head is in, an eviction removes the last of the others. -/
theorem Numbers.victim (h : order.Numbers next (key :: rest)) :
    order.victim key = if rest.length < order.cap then none else rest.getLast? := by
  rw [CappedMap.victim, h.len, List.length_cons, h.oldest]
  rcases List.eq_nil_or_concat' rest with rfl | ⟨newer, last, rfl⟩
  · simp
  · have hne : last ≠ key := by
      rintro rfl
      exact (List.nodup_cons.mp h.nodup).1 (by simp)
    have hlast : ((key :: newer) ++ [last]).getLast? = some last := List.getLast?_concat
    rw [List.cons_append] at hlast
    rw [hlast, List.getLast?_concat, Option.filter_some, if_pos (decide_eq_true hne)]
    rfl

/-- An eviction after an insert leaves as many of the newest keys as the cap allows. -/
theorem numbers_evict (h : order.Numbers next (key :: rest)) (hroom : rest.length ≤ max order.cap 1) :
    (order.evictSparing key).Numbers next ((key :: rest).take (max order.cap 1)) := by
  have hvictim := h.victim
  rcases List.eq_nil_or_concat' rest with rfl | ⟨newer, last, rfl⟩
  · have hone : [key].length ≤ max order.cap 1 := le_max_right _ _
    rw [List.take_of_length_le hone, evictSparing, hvictim]
    simpa using h
  · rw [evictSparing, hvictim]
    split_ifs with hlt
    · rw [List.take_of_length_le (by rw [List.length_cons]; omega)]
      exact h
    · have hfull : max order.cap 1 = (key :: newer).length := by
        simp only [List.length_append, List.length_singleton] at hroom hlt
        rw [List.length_cons]
        omega
      have hsplit : key :: (newer ++ [last]) = (key :: newer) ++ [last] := rfl
      have hremoved := numbers_remove h last
      rw [hsplit, Lib.Recency.forget_last h.nodup] at hremoved
      rw [hfull, hsplit, List.take_left, List.getLast?_concat]
      exact hremoved

end Numbers

end CappedMap

namespace CappedSet

variable {κ : Type} [DecidableEq κ]

/-- The set holds the keys of the list, which its order numbers. -/
structure Holds (s : CappedSet κ) (held : List κ) : Prop where
  set : s.set = held.toFinset
  order : s.order.Numbers s.next held

variable {s : CappedSet κ} {held : List κ} {key : κ}

theorem holds_new (cap : Nat) : (new cap : CappedSet κ).Holds [] :=
  ⟨rfl, CappedMap.numbers_empty _ rfl rfl 0⟩

theorem holds_insert (h : s.Holds held) (hroom : held.length ≤ max s.order.cap 1) (key : κ) :
    (s.insert key).1.Holds
      (Lib.Recency.boundedStep (max s.order.cap 1) held (.touch key)) := by
  have hput := CappedMap.numbers_put h.order key
  have hrest : (Lib.Recency.forget key held).length ≤ max s.order.cap 1 :=
    (List.length_filter_le _ held).trans hroom
  have hevict := CappedMap.numbers_evict hput hrest
  refine ⟨?_, hevict⟩
  ext k
  rw [List.mem_toFinset]
  refine Iff.trans ?_ (hevict.mem k)
  by_cases hk : (s.order.put key (s.next + 1)).victim key = some k
  · have hne := CappedMap.victim_ne hk
    rw [CappedMap.get_evict_victim hk]
    simp [insert, hk, hne]
  · rw [CappedMap.get_evict_ne hk, hput.mem k, Lib.Recency.mem_touch]
    simp only [insert, Finset.mem_insert]
    cases hvictim : (s.order.put key (s.next + 1)).victim key with
    | none => simp [h.set]
    | some evicted =>
      have hne : k ≠ evicted := by
        rintro rfl
        exact hk hvictim
      simp [h.set, hne]

theorem holds_remove (h : s.Holds held) (key : κ) :
    (s.remove key).1.Holds (Lib.Recency.forget key held) := by
  refine ⟨?_, CappedMap.numbers_remove h.order key⟩
  ext k
  simp [remove, h.set, and_comm]

theorem holds_retain (h : s.Holds held) (keep : κ → Bool) :
    (s.retain keep).Holds (held.filter keep) := by
  have hset : s.set.filter (fun key => keep key) = (held.filter keep).toFinset := by
    ext k
    simp [h.set]
  have hsame : (held.filter fun k => decide (k ∈ s.set.filter fun key => keep key)) =
      held.filter keep := by
    refine List.filter_congr fun k hk => ?_
    rw [hset]
    simp [hk]
  have hretain := CappedMap.numbers_retain h.order
    fun k => decide (k ∈ s.set.filter fun key => keep key)
  rw [hsame] at hretain
  exact ⟨hset, hretain⟩

theorem holds_step (h : s.Holds held) (hroom : held.length ≤ max s.order.cap 1) (op : Op κ) :
    (s.step op).Holds (Lib.Recency.boundedStep (max s.order.cap 1) held op) := by
  have hfits : ∀ {left : List κ}, left.length ≤ held.length →
      left.take (max s.order.cap 1) = left :=
    fun hle => List.take_of_length_le (hle.trans hroom)
  cases op with
  | touch key => exact holds_insert h hroom key
  | forget key =>
    have hle : (Lib.Recency.forget key held).length ≤ held.length := List.length_filter_le _ held
    rw [Lib.Recency.boundedStep, Lib.Recency.step, hfits hle]
    exact holds_remove h key
  | keepOnly keep =>
    rw [Lib.Recency.boundedStep, Lib.Recency.step, hfits (List.length_filter_le _ held)]
    exact holds_retain h keep
  | clear =>
    rw [Lib.Recency.boundedStep, Lib.Recency.step, hfits (Nat.zero_le _)]
    exact ⟨rfl, CappedMap.numbers_empty { s.order with map := ∅ } rfl h.order.touched s.next⟩

theorem step_cap (s : CappedSet κ) (op : Op κ) : (s.step op).order.cap = s.order.cap := by
  cases op with
  | touch key =>
    simp only [step, insert, CappedMap.evictSparing]
    split
    · rfl
    · rfl
  | forget key => rfl
  | keepOnly keep => rfl
  | clear => rfl

/-- After any writes the set holds what the bounded history holds. -/
theorem holds_run (cap : Nat) (ops : List (Op κ)) :
    (exec step (new cap) ops).Holds (exec (Lib.Recency.boundedStep (max cap 1)) [] ops) ∧
      (exec step (new cap) ops).order.cap = cap := by
  induction ops using List.reverseRecOn with
  | nil => exact ⟨holds_new cap, rfl⟩
  | append_singleton ops op ih =>
    obtain ⟨hholds, hcap⟩ := ih
    rw [Lib.exec_snoc, Lib.exec_snoc]
    refine ⟨?_, (step_cap _ op).trans hcap⟩
    have hroom : (exec (Lib.Recency.boundedStep (max cap 1)) [] ops).length ≤ max cap 1 :=
      Lib.Recency.bounded_run_length ops
    have hstep := holds_step hholds (by rw [hcap]; exact hroom) op
    rw [hcap] at hstep
    exact hstep

/-- The set is the newest part of the history of its inserts, up to the cap, and its order has the
same keys. An insert leaves as many of the newest keys as there are with it, up to the cap. -/
theorem capped_set_holds_newest (cap : Nat) (ops : List (Op κ)) :
    let s := exec step (new cap) ops
    let history := exec Lib.Recency.step [] ops
    s.set = s.order.map.keys.toFinset ∧ s.set.card ≤ max cap 1 ∧
      s.set = (history.take s.set.card).toFinset ∧
      ∀ key, (s.insert key).1.set =
        ((Lib.Recency.touch key history).take
          (min (max cap 1) (Insert.insert key s.set).card)).toFinset := by
  intro s history
  obtain ⟨hholds, hcap⟩ := holds_run cap ops
  have hlength : (exec (Lib.Recency.boundedStep (max cap 1)) [] ops).length ≤ max cap 1 :=
    Lib.Recency.bounded_run_length ops
  have hinitial : exec (Lib.Recency.boundedStep (max cap 1)) [] ops <+: history :=
    Lib.Recency.bounded_run_initial ops
  have hnodup := hholds.order.nodup
  have hcard : s.set.card = (exec (Lib.Recency.boundedStep (max cap 1)) [] ops).length := by
    rw [hholds.set, List.toFinset_card_of_nodup hnodup]
  refine ⟨?_, hcard ▸ hlength, ?_, fun key => ?_⟩
  · rw [hholds.set]
    exact (List.toFinset_eq_of_perm _ _ hholds.order.keys).symm
  · rw [hcard, ← List.prefix_iff_eq_take.mp hinitial]
    exact hholds.set
  · have hinsert := (holds_insert hholds (by rw [hcap]; exact hlength) key).set
    rw [hcap, Lib.Recency.bounded_touch hinitial hnodup, ← hholds.set] at hinsert
    exact hinsert

end CappedSet

end TeamClaude
