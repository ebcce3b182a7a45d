import TeamClaude.Lib.EntrySum
import TeamClaude.Lib.FirstMatch
import TeamClaude.Peer.Ledger

/-!
# The remembered requests of each lease

What expiry, the process-wide bound, an admission and a charge each do to the queue of a lease, and
when they leave one remembered pair where it is.
-/

namespace TeamClaude

namespace PairCache

variable {cache : PairCache} {leaseId other : LeaseId} {requestId : RequestId} {nowMs : Int}

/-- The remembered pairs of a lease, oldest first. -/
def queue (cache : PairCache) (leaseId : LeaseId) : List RelayedPair :=
  (cache.lookup leaseId).getD []

def countWhere (p : RelayedPair → Bool) (cache : PairCache) : Nat :=
  Lib.entrySum (fun e => e.2.countP p) cache

/-- The pair is within the TTL. -/
def live (nowMs : Int) (pair : RelayedPair) : Bool :=
  saturatingSub nowMs pair.atMs < servedTtlMs

theorem live_of_lt {pair : RelayedPair} (h0 : pair.atMs ≤ nowMs)
    (h : nowMs < pair.atMs + servedTtlMs) : live nowMs pair = true := by
  unfold live saturatingSub i64Min i64Max
  unfold servedTtlMs at h ⊢
  simp only [decide_eq_true_eq]
  omega

theorem total_eq_count (cache : PairCache) : cache.total = cache.countWhere fun _ => true := by
  simp [total, countWhere, Lib.entrySum]

/-! ## The queues after each operation -/

theorem queue_insert (cache : PairCache) (leaseId other : LeaseId) (ids : List RelayedPair) :
    queue (cache.insert leaseId ids) other = if other = leaseId then ids else queue cache other := by
  unfold queue
  split
  · rename_i h
    subst h
    rw [AList.lookup_insert, Option.getD_some]
  · rename_i h
    rw [AList.lookup_insert_ne h]

theorem count_insert (p : RelayedPair → Bool) (cache : PairCache) (leaseId : LeaseId)
    (ids : List RelayedPair) : countWhere p (cache.insert leaseId ids) +
      (queue cache leaseId).countP p = countWhere p cache + ids.countP p := by
  unfold countWhere queue
  rw [Lib.entrySum_insert]
  cases hl : cache.lookup leaseId with
  | none =>
    rw [Lib.entrySum_erase_none hl]
    simp [Nat.add_comm]
  | some held =>
    have herase := Lib.entrySum_erase (f := fun e => e.2.countP p) hl
    simp only [Option.getD_some] at herase ⊢
    omega

theorem queue_expire (cache : PairCache) (nowMs : Int) (leaseId : LeaseId) :
    queue (cache.expire nowMs) leaseId = (queue cache leaseId).filter (live nowMs) := by
  have hvals : (Lib.mapVals (fun _ ids => ids.filter (live nowMs)) cache).lookup leaseId =
      (cache.lookup leaseId).map fun ids => ids.filter (live nowMs) := Lib.lookup_mapVals _ _ _
  have hexpire : cache.expire nowMs = Lib.retain (fun e => !e.2.isEmpty)
      (Lib.mapVals (fun _ ids => ids.filter (live nowMs)) cache) := rfl
  unfold queue
  rw [hexpire]
  cases hl : cache.lookup leaseId with
  | none =>
    rw [hl, Option.map_none] at hvals
    rw [Lib.lookup_retain_keep (by simp [hvals]), hvals]
    rfl
  | some ids =>
    rw [hl, Option.map_some] at hvals
    by_cases hnil : ids.filter (live nowMs) = []
    · rw [Lib.lookup_retain_drop hvals (by simp [hnil]), Option.getD_none, Option.getD_some, hnil]
    · rw [Lib.lookup_retain_keep, hvals]
      · rfl
      · intro held hheld
        rw [hvals, Option.some.injEq] at hheld
        subst hheld
        simpa using hnil

theorem count_expire_le (p : RelayedPair → Bool) (cache : PairCache) (nowMs : Int) :
    countWhere p (cache.expire nowMs) ≤ countWhere p cache := by
  refine (Lib.entrySum_retain_le _).trans ?_
  rw [Lib.entrySum_mapVals]
  exact Lib.entrySum_le fun e _ => List.filter_sublist.countP_le

theorem queue_popFront (cache : PairCache) (leaseId other : LeaseId) :
    queue (cache.popFront leaseId) other =
      if other = leaseId then (queue cache leaseId).tail else queue cache other := by
  unfold popFront
  cases hl : cache.lookup leaseId with
  | none =>
    simp only [Option.map_none]
    split
    · rename_i h
      subst h
      simp [queue, hl]
    · rfl
  | some ids =>
    have hq : queue cache leaseId = ids := by simp [queue, hl]
    simp only [Option.map_some, hq]
    cases htail : ids.tail with
    | nil =>
      show queue (cache.erase leaseId) other = _
      unfold queue
      by_cases h : other = leaseId
      · rw [if_pos h, h, AList.lookup_erase, Option.getD_none]
      · rw [if_neg h, AList.lookup_erase_ne h]
    | cons a rest => exact queue_insert cache leaseId other _

theorem count_popFront_le (p : RelayedPair → Bool) (cache : PairCache) (leaseId : LeaseId) :
    countWhere p (cache.popFront leaseId) ≤ countWhere p cache := by
  unfold popFront
  cases hl : cache.lookup leaseId with
  | none => exact le_rfl
  | some ids =>
    simp only [Option.map_some]
    cases htail : ids.tail with
    | nil =>
      have herase := Lib.entrySum_erase (f := fun e => e.2.countP p) hl
      show Lib.entrySum _ (cache.erase leaseId) ≤ Lib.entrySum _ cache
      omega
    | cons a rest =>
      have hins := count_insert p cache leaseId (a :: rest)
      have hq : queue cache leaseId = ids := by simp [queue, hl]
      have hle : (a :: rest).countP p ≤ ids.countP p := by
        rw [← htail]
        exact (List.tail_sublist ids).countP_le
      rw [hq] at hins
      simp only
      omega

/-! ## The process-wide bound -/

theorem evict_keeps {P : PairCache → Prop}
    (h : ∀ cache leaseId, P cache → servedCapacity ≤ cache.total → cache.oldest = some leaseId →
      P (cache.popFront leaseId)) (rounds : Nat) : ∀ cache, P cache → P (cache.evict rounds) := by
  induction rounds with
  | zero => exact fun _ hp => hp
  | succ rounds ih =>
    intro cache hp
    simp only [evict]
    split
    · rename_i hfull
      cases ho : cache.oldest with
      | none => exact hp
      | some leaseId => exact ih _ (h cache leaseId hp hfull ho)
    · exact hp

theorem mem_entries_iff {ids : List RelayedPair} :
    (⟨leaseId, ids⟩ : Sigma fun _ : LeaseId => List RelayedPair) ∈ cache.entries ↔
      cache.lookup leaseId = some ids :=
  AList.mem_lookup_iff.symm

/-- The lease the bound takes a pair from is at the front no younger than any other. -/
theorem oldest_spec (h : cache.oldest = some leaseId) :
    ∃ pair, (queue cache leaseId).head? = some pair ∧
      ∀ other next, (queue cache other).head? = some next → pair.atMs ≤ next.atMs := by
  unfold oldest at h
  obtain ⟨⟨id, atMs⟩, hmin, rfl⟩ := Option.map_eq_some_iff.mp h
  obtain ⟨hin, hle⟩ := min_by_key_spec hmin
  obtain ⟨e, he, hhead⟩ := List.mem_filterMap.mp hin
  obtain ⟨pair, hpair, heq⟩ := Option.map_eq_some_iff.mp hhead
  cases heq
  refine ⟨pair, ?_, fun other next hnext => ?_⟩
  · have hl : cache.lookup e.1 = some e.2 := mem_entries_iff.mp he
    simpa [queue, hl] using hpair
  · unfold queue at hnext
    cases hl : cache.lookup other with
    | none =>
      rw [hl] at hnext
      cases hnext
    | some ids =>
      rw [hl, Option.getD_some] at hnext
      have hmem : (other, next.atMs) ∈ cache.entries.filterMap fun e =>
          e.2.head?.map fun pair => (e.1, pair.atMs) :=
        List.mem_filterMap.mpr ⟨⟨other, ids⟩, mem_entries_iff.mpr hl, by simp [hnext]⟩
      exact hle _ hmem

/-! ## Order -/

/-- Every queue is in the order of its stamps, none of which is ahead of the clock. -/
structure Ordered (cache : PairCache) (clockMs : Int) : Prop where
  sorted : ∀ leaseId, (queue cache leaseId).Pairwise fun a b => a.atMs ≤ b.atMs
  past : ∀ leaseId, ∀ pair ∈ queue cache leaseId, pair.atMs ≤ clockMs

theorem Ordered.of_sublist (h : cache.Ordered nowMs) {cache' : PairCache}
    (hs : ∀ leaseId, (queue cache' leaseId).Sublist (queue cache leaseId)) :
    cache'.Ordered nowMs :=
  ⟨fun leaseId => (h.sorted leaseId).sublist (hs leaseId),
    fun leaseId pair hp => h.past leaseId pair ((hs leaseId).subset hp)⟩

theorem Ordered.mono (h : cache.Ordered nowMs) {laterMs : Int} (hle : nowMs ≤ laterMs) :
    cache.Ordered laterMs :=
  ⟨h.sorted, fun leaseId pair hp => (h.past leaseId pair hp).trans hle⟩

theorem Ordered.expire (h : cache.Ordered nowMs) (laterMs : Int) :
    (cache.expire laterMs).Ordered nowMs :=
  h.of_sublist fun leaseId => by
    rw [queue_expire]
    exact List.filter_sublist

theorem Ordered.popFront (h : cache.Ordered nowMs) (leaseId : LeaseId) :
    (cache.popFront leaseId).Ordered nowMs :=
  h.of_sublist fun other => by
    rw [queue_popFront]
    split
    · rename_i he
      subst he
      exact List.tail_sublist _
    · exact List.Sublist.refl _

/-- Where the oldest front is no older than `atMs`, no pair is. -/
theorem count_eq_total {atMs : Int} (h : cache.Ordered nowMs)
    (hfront : ∀ other next, (queue cache other).head? = some next → atMs ≤ next.atMs) :
    cache.countWhere (fun pair => atMs ≤ pair.atMs) = cache.total := by
  rw [total_eq_count]
  unfold countWhere Lib.entrySum
  congr 1
  refine List.map_congr_left fun e he => ?_
  have hq : queue cache e.1 = e.2 := by
    have hl : cache.lookup e.1 = some e.2 := mem_entries_iff.mp he
    simp [queue, hl]
  refine List.countP_congr fun pair hp => ?_
  have hsorted := h.sorted e.1
  have hhead := hfront e.1
  rw [hq] at hsorted hhead
  cases hids : e.2 with
  | nil => rw [hids] at hp; cases hp
  | cons first rest =>
    rw [hids] at hsorted hhead hp
    have hfirst : atMs ≤ first.atMs := hhead first rfl
    have hle : atMs ≤ pair.atMs := by
      rcases List.mem_cons.mp hp with rfl | hp
      · exact hfirst
      · exact hfirst.trans (List.rel_of_pairwise_cons hsorted hp)
    simp [hle]

/-! ## One remembered pair -/

/-- The pair is remembered once, with at most `newer` pairs of its lease behind it. -/
def Holds (cache : PairCache) (leaseId : LeaseId) (pair : RelayedPair) (newer : Nat) : Prop :=
  ∃ older younger, queue cache leaseId = older ++ pair :: younger ∧
    (∀ held ∈ older ++ younger, held.requestId ≠ pair.requestId) ∧ younger.length ≤ newer

variable {pair : RelayedPair} {newer : Nat}

theorem Holds.mem (h : cache.Holds leaseId pair newer) : pair ∈ queue cache leaseId := by
  obtain ⟨older, younger, hq, -, -⟩ := h
  rw [hq]
  simp

theorem Holds.find (h : cache.Holds leaseId pair newer) :
    cache.find leaseId pair.requestId = some pair := by
  obtain ⟨older, younger, hq, hne, -⟩ := h
  have hfind : cache.find leaseId pair.requestId = (queue cache leaseId).find? fun held =>
      decide (held.requestId = pair.requestId) := rfl
  have hnone : older.find? (fun held => decide (held.requestId = pair.requestId)) = none := by
    rw [List.find?_eq_none]
    intro held hin
    simpa using hne held (List.mem_append_left _ hin)
  rw [hfind, hq, List.find?_append, hnone, Option.none_or, List.find?_cons_of_pos (by simp)]

theorem Holds.mono (h : cache.Holds leaseId pair newer) {more : Nat} (hle : newer ≤ more) :
    cache.Holds leaseId pair more := by
  obtain ⟨older, younger, hq, hne, hlen⟩ := h
  exact ⟨older, younger, hq, hne, hlen.trans hle⟩

theorem Holds.expire (h : cache.Holds leaseId pair newer) (hlive : live nowMs pair = true) :
    (cache.expire nowMs).Holds leaseId pair newer := by
  obtain ⟨older, younger, hq, hne, hlen⟩ := h
  refine ⟨older.filter (live nowMs), younger.filter (live nowMs), ?_, ?_, ?_⟩
  · rw [queue_expire, hq, List.filter_append, List.filter_cons_of_pos hlive]
  · rw [← List.filter_append]
    exact fun held hin => hne held (List.mem_filter.mp hin).1
  · exact (List.length_filter_le _ _).trans hlen

/-- While fewer pairs than the bound are as young as this one, the bound leaves it. -/
theorem Holds.evict (h : cache.Holds leaseId pair newer) (ho : cache.Ordered nowMs)
    (hcount : cache.countWhere (fun held => pair.atMs ≤ held.atMs) < servedCapacity) (rounds : Nat) :
    (cache.evict rounds).Holds leaseId pair newer := by
  refine (evict_keeps (P := fun cache => cache.Holds leaseId pair newer ∧ cache.Ordered nowMs ∧
    cache.countWhere (fun held => pair.atMs ≤ held.atMs) < servedCapacity) ?_ rounds cache
      ⟨h, ho, hcount⟩).1
  rintro cache victim ⟨⟨older, younger, hq, hne, hlen⟩, ho, hcount⟩ hfull hold
  refine ⟨?_, ho.popFront victim, (count_popFront_le _ _ _).trans_lt hcount⟩
  by_cases hv : leaseId = victim
  · subst hv
    obtain ⟨front, hfront, hmin⟩ := oldest_spec hold
    cases older with
    | nil =>
      rw [hq, List.nil_append, List.head?_cons, Option.some.injEq] at hfront
      subst hfront
      rw [count_eq_total ho hmin] at hcount
      exact absurd hfull (not_le.mpr hcount)
    | cons first rest =>
      refine ⟨rest, younger, ?_, fun held hin => hne held ?_, hlen⟩
      · rw [queue_popFront, if_pos rfl, hq]
        rfl
      · rw [List.cons_append]
        exact List.mem_cons_of_mem _ hin
  · exact ⟨older, younger, by rw [queue_popFront, if_neg hv, hq], hne, hlen⟩

/-! ## Admission -/

/-- The cache an admission looks its id up in: expired, and within the process-wide bound. -/
def swept (cache : PairCache) (nowMs : Int) : PairCache :=
  (cache.expire nowMs).evict (cache.expire nowMs).total

/-- An admission finds the id remembered, or records it at the end of its lease. -/
theorem admit_cases (cache : PairCache) (leaseId : LeaseId) (requestId : RequestId) (nowMs : Int) :
    (cache.admitPair leaseId requestId nowMs = (false, cache.swept nowMs) ∧
      ∃ held ∈ queue (cache.swept nowMs) leaseId, held.requestId = requestId) ∨
    ((∀ held ∈ queue (cache.swept nowMs) leaseId, held.requestId ≠ requestId) ∧
      cache.admitPair leaseId requestId nowMs = (true, (cache.swept nowMs).insert leaseId
        ((queue (cache.swept nowMs) leaseId).drop
          ((queue (cache.swept nowMs) leaseId).length + 1 - servedPerLeaseCapacity) ++
            [{ requestId, atMs := nowMs, charged := false }]))) := by
  have hpair : cache.admitPair leaseId requestId nowMs =
      if (queue (cache.swept nowMs) leaseId).any fun pair => decide (pair.requestId = requestId) then
        (false, cache.swept nowMs)
      else (true, (cache.swept nowMs).insert leaseId
        ((queue (cache.swept nowMs) leaseId).drop
          ((queue (cache.swept nowMs) leaseId).length + 1 - servedPerLeaseCapacity) ++
            [{ requestId, atMs := nowMs, charged := false }])) := rfl
  rw [hpair]
  split
  · rename_i hany
    obtain ⟨held, hin, hid⟩ := List.any_eq_true.mp hany
    exact .inl ⟨rfl, held, hin, of_decide_eq_true hid⟩
  · rename_i hnone
    rw [Bool.not_eq_true, List.any_eq_false] at hnone
    exact .inr ⟨fun held hin => by simpa using hnone held hin, rfl⟩

theorem count_swept_le (p : RelayedPair → Bool) (cache : PairCache) (nowMs : Int) :
    countWhere p (cache.swept nowMs) ≤ countWhere p cache :=
  evict_keeps (P := fun c => countWhere p c ≤ countWhere p cache)
    (fun c leaseId h _ _ => (count_popFront_le p c leaseId).trans h) _ _
    (count_expire_le p cache nowMs)

theorem Ordered.swept (h : cache.Ordered nowMs) (laterMs : Int) :
    (cache.swept laterMs).Ordered nowMs :=
  evict_keeps (P := fun c => c.Ordered nowMs) (fun _ leaseId hc _ _ => hc.popFront leaseId) _ _
    (h.expire laterMs)

theorem Holds.swept (h : cache.Holds leaseId pair newer) {clockMs : Int}
    (ho : cache.Ordered clockMs) (hlive : live nowMs pair = true)
    (hcount : cache.countWhere (fun held => pair.atMs ≤ held.atMs) < servedCapacity) :
    (cache.swept nowMs).Holds leaseId pair newer :=
  (h.expire hlive).evict (ho.expire nowMs) ((count_expire_le _ _ _).trans_lt hcount) _

theorem Ordered.admitPair (h : cache.Ordered nowMs) {laterMs : Int} (hle : nowMs ≤ laterMs)
    (leaseId : LeaseId) (requestId : RequestId) :
    (cache.admitPair leaseId requestId laterMs).2.Ordered laterMs := by
  have hs : (cache.swept laterMs).Ordered laterMs := (h.swept laterMs).mono hle
  rcases cache.admit_cases leaseId requestId laterMs with ⟨ha, -⟩ | ⟨-, ha⟩
  · rw [ha]
    exact hs
  · rw [ha]
    have hpast : ∀ pair ∈ (queue (cache.swept laterMs) leaseId).drop
        ((queue (cache.swept laterMs) leaseId).length + 1 - servedPerLeaseCapacity),
        pair.atMs ≤ laterMs := fun pair hin => hs.past leaseId pair (List.mem_of_mem_drop hin)
    constructor
    · intro other
      rw [queue_insert]
      split
      · rw [List.pairwise_append]
        refine ⟨(hs.sorted leaseId).sublist (List.drop_sublist _ _), List.pairwise_singleton _ _, ?_⟩
        intro a ha b hb
        rw [List.mem_singleton.mp hb]
        exact hpast a ha
      · exact hs.sorted other
    · intro other pair hin
      rw [queue_insert] at hin
      split at hin
      · rcases List.mem_append.mp hin with hin | hin
        · exact hpast pair hin
        · rw [List.mem_singleton.mp hin]
      · exact hs.past other pair hin

theorem count_admit_le (p : RelayedPair → Bool) (cache : PairCache) (leaseId : LeaseId)
    (requestId : RequestId) (nowMs : Int) :
    countWhere p (cache.admitPair leaseId requestId nowMs).2 ≤ countWhere p cache +
      if (cache.admitPair leaseId requestId nowMs).1 ∧
        p { requestId, atMs := nowMs, charged := false } = true then 1 else 0 := by
  have hswept := count_swept_le p cache nowMs
  rcases cache.admit_cases leaseId requestId nowMs with ⟨ha, -⟩ | ⟨-, ha⟩
  · rw [ha]
    exact hswept.trans (Nat.le_add_right _ _)
  · rw [ha]
    have hins := count_insert p (cache.swept nowMs) leaseId
      ((queue (cache.swept nowMs) leaseId).drop
        ((queue (cache.swept nowMs) leaseId).length + 1 - servedPerLeaseCapacity) ++
          [{ requestId, atMs := nowMs, charged := false }])
    have hdrop := (List.drop_sublist ((queue (cache.swept nowMs) leaseId).length + 1 -
      servedPerLeaseCapacity) (queue (cache.swept nowMs) leaseId)).countP_le (p := p)
    rw [List.countP_append, List.countP_singleton] at hins
    simp only [true_and]
    omega

/-- A remembered pair stays remembered through an admission, unless its lease has filled up with
younger pairs. -/
theorem Holds.admitPair (h : cache.Holds leaseId pair newer) {clockMs : Int}
    (ho : cache.Ordered clockMs) (hlive : live nowMs pair = true)
    (hcount : cache.countWhere (fun held => pair.atMs ≤ held.atMs) < servedCapacity)
    (other : LeaseId) (requestId : RequestId)
    (hroom : (cache.admitPair other requestId nowMs).1 = true → other = leaseId →
      newer + 1 < servedPerLeaseCapacity) :
    (cache.admitPair other requestId nowMs).2.Holds leaseId pair
      (newer + if (cache.admitPair other requestId nowMs).1 ∧ other = leaseId then 1 else 0) := by
  have hs := h.swept ho hlive hcount
  rcases cache.admit_cases other requestId nowMs with ⟨ha, -⟩ | ⟨hnew, ha⟩
  · rw [ha]
    exact hs.mono (Nat.le_add_right _ _)
  rw [ha] at hroom ⊢
  obtain ⟨older, younger, hq, hne, hlen⟩ := hs
  by_cases ho : other = leaseId
  · subst ho
    have hroom := hroom rfl rfl
    have hdrop : (queue (cache.swept nowMs) other).length + 1 - servedPerLeaseCapacity ≤
        older.length := by
      rw [hq, List.length_append, List.length_cons]
      omega
    refine ⟨older.drop ((queue (cache.swept nowMs) other).length + 1 - servedPerLeaseCapacity),
      younger ++ [{ requestId, atMs := nowMs, charged := false }], ?_, ?_, ?_⟩
    · rw [queue_insert, if_pos rfl]
      conv_lhs => rw [hq, List.drop_append_of_le_length (by rw [← hq]; exact hdrop)]
      rw [List.append_assoc, List.cons_append, hq]
    · intro held hin
      rcases List.mem_append.mp hin with hin | hin
      · exact hne held (List.mem_append_left _ (List.mem_of_mem_drop hin))
      rcases List.mem_append.mp hin with hin | hin
      · exact hne held (List.mem_append_right _ hin)
      · rw [List.mem_singleton.mp hin]
        exact (hnew pair (by rw [hq]; simp)).symm
    · simpa using hlen
  · refine ⟨older, younger, ?_, hne, hlen.trans (Nat.le_add_right _ _)⟩
    rw [queue_insert, if_neg (Ne.symm ho), hq]

/-- A remembered pair is not admitted again. -/
theorem Holds.refused (h : cache.Holds leaseId pair newer) {clockMs : Int}
    (ho : cache.Ordered clockMs) (hlive : live nowMs pair = true)
    (hcount : cache.countWhere (fun held => pair.atMs ≤ held.atMs) < servedCapacity) :
    (cache.admitPair leaseId pair.requestId nowMs).1 = false := by
  rcases cache.admit_cases leaseId pair.requestId nowMs with ⟨ha, -⟩ | ⟨hnew, -⟩
  · rw [ha]
  · exact absurd rfl (hnew pair (h.swept ho hlive hcount).mem)

/-- A recorded pair is remembered with nothing behind it. -/
theorem holds_of_admitted (h : (cache.admitPair leaseId requestId nowMs).1 = true) :
    (cache.admitPair leaseId requestId nowMs).2.Holds leaseId
      { requestId, atMs := nowMs, charged := false } 0 := by
  rcases cache.admit_cases leaseId requestId nowMs with ⟨ha, -⟩ | ⟨hnew, ha⟩
  · rw [ha] at h
    cases h
  · rw [ha]
    refine ⟨_, [], by rw [queue_insert, if_pos rfl], fun held hin => ?_, le_rfl⟩
    rw [List.append_nil] at hin
    exact hnew held (List.mem_of_mem_drop hin)

/-! ## The process-wide bound, below it and at it -/

theorem evict_of_lt (h : cache.total < servedCapacity) (rounds : Nat) :
    cache.evict rounds = cache := by
  cases rounds with
  | zero => rfl
  | succ rounds => simp [evict, not_le.mpr h]

theorem total_expire_of_live
    (hlive : ∀ leaseId, ∀ held ∈ queue cache leaseId, live nowMs held = true) :
    (cache.expire nowMs).total = cache.total := by
  have hexpire : cache.expire nowMs = Lib.retain (fun e => !e.2.isEmpty)
      (Lib.mapVals (fun _ ids => ids.filter (live nowMs)) cache) := rfl
  rw [total_eq_count, total_eq_count, hexpire]
  unfold countWhere
  rw [Lib.entrySum_retain_eq, Lib.entrySum_mapVals]
  · unfold Lib.entrySum
    congr 1
    refine List.map_congr_left fun e he => ?_
    have hq : queue cache e.1 = e.2 := by
      have hl : cache.lookup e.1 = some e.2 := mem_entries_iff.mp he
      simp [queue, hl]
    have hall := hlive e.1
    rw [hq] at hall
    simp only
    rw [List.filter_eq_self.mpr hall]
  · intro e he
    have hnil : e.2 = [] := by simpa using he
    rw [hnil, List.countP_nil]

/-- Where nothing has expired and neither bound is reached, an admission only adds its pair. -/
theorem admit_within (hlive : ∀ leaseId, ∀ held ∈ queue cache leaseId, live nowMs held = true)
    (hroom : cache.total < servedCapacity)
    (hlen : (queue cache leaseId).length < servedPerLeaseCapacity)
    (hnew : ∀ held ∈ queue cache leaseId, held.requestId ≠ requestId) :
    (cache.admitPair leaseId requestId nowMs).2.total = cache.total + 1 ∧
      ∀ other, queue (cache.admitPair leaseId requestId nowMs).2 other =
        if other = leaseId then
          queue cache leaseId ++ [{ requestId, atMs := nowMs, charged := false }]
        else queue cache other := by
  have htotal := total_expire_of_live hlive
  have hswept : cache.swept nowMs = cache.expire nowMs :=
    evict_of_lt (by rwa [htotal]) _
  have hqueue : ∀ other, queue (cache.swept nowMs) other = queue cache other := by
    intro other
    rw [hswept, queue_expire, List.filter_eq_self.mpr (hlive other)]
  rcases cache.admit_cases leaseId requestId nowMs with ⟨-, held, hin, hid⟩ | ⟨-, ha⟩
  · rw [hqueue] at hin
    exact absurd hid (hnew held hin)
  have hdrop : (queue cache leaseId).length + 1 - servedPerLeaseCapacity = 0 := by omega
  rw [hqueue, hdrop, List.drop_zero] at ha
  rw [ha]
  constructor
  · have hins := count_insert (fun _ => true) (cache.swept nowMs) leaseId
      (queue cache leaseId ++ [{ requestId, atMs := nowMs, charged := false }])
    rw [hqueue, List.countP_append, List.countP_singleton, if_pos rfl, ← total_eq_count,
      ← total_eq_count, hswept, htotal] at hins
    rw [hswept]
    simp only at hins ⊢
    omega
  · intro other
    rw [queue_insert]
    split
    · rfl
    · exact hqueue other

theorem oldest_isSome {pair : RelayedPair} (h : (queue cache leaseId).head? = some pair) :
    ∃ victim, cache.oldest = some victim := by
  cases ho : cache.oldest with
  | some victim => exact ⟨victim, rfl⟩
  | none =>
    unfold oldest at ho
    rw [Option.map_eq_none_iff] at ho
    unfold queue at h
    cases hl : cache.lookup leaseId with
    | none => rw [hl] at h; cases h
    | some ids =>
      rw [hl, Option.getD_some] at h
      have hmem : (leaseId, pair.atMs) ∈ cache.entries.filterMap fun e =>
          e.2.head?.map fun pair => (e.1, pair.atMs) :=
        List.mem_filterMap.mpr ⟨⟨leaseId, ids⟩, mem_entries_iff.mpr hl, by simp [h]⟩
      rw [min_by_key_none.mp ho] at hmem
      cases hmem

/-- At the process-wide bound the only pair of a lease is forgotten if it is the oldest, whatever
lease is being admitted on. -/
theorem swept_forgets {pair : RelayedPair}
    (hlive : ∀ leaseId, ∀ held ∈ queue cache leaseId, live nowMs held = true)
    (hfull : servedCapacity ≤ cache.total) (hq : queue cache leaseId = [pair])
    (hold : ∀ other, other ≠ leaseId → ∀ next ∈ queue cache other, pair.atMs < next.atMs) :
    queue (cache.swept nowMs) leaseId = [] := by
  have htotal := total_expire_of_live hlive
  have hqueue : ∀ other, queue (cache.expire nowMs) other = queue cache other := by
    intro other
    rw [queue_expire, List.filter_eq_self.mpr (hlive other)]
  have hhead : (queue (cache.expire nowMs) leaseId).head? = some pair := by
    rw [hqueue, hq, List.head?_cons]
  obtain ⟨victim, hvictim⟩ := oldest_isSome hhead
  have hself : victim = leaseId := by
    obtain ⟨front, hfront, hmin⟩ := oldest_spec hvictim
    by_contra hne
    rw [hqueue] at hfront
    have hyounger := hold victim hne front (List.mem_of_mem_head? hfront)
    exact absurd (hmin leaseId pair hhead) (not_le.mpr hyounger)
  subst hself
  have hrounds : (cache.expire nowMs).total ≠ 0 := by
    rw [htotal]
    unfold servedCapacity at hfull
    omega
  obtain ⟨rounds, hr⟩ := Nat.exists_eq_succ_of_ne_zero hrounds
  have hswept : cache.swept nowMs = ((cache.expire nowMs).popFront victim).evict rounds := by
    unfold swept
    conv_lhs => rw [hr]
    simp only [evict, if_pos (htotal ▸ hfull), hvictim]
  rw [hswept]
  refine evict_keeps (P := fun c => queue c victim = []) (fun c other hc _ _ => ?_) rounds _ ?_
  · rw [queue_popFront]
    split
    · rename_i he
      rw [← he, hc, List.tail_nil]
    · exact hc
  · rw [queue_popFront, if_pos rfl, hqueue, hq, List.tail_cons]

/-! ## Charges -/

theorem queue_setCharged (cache : PairCache) (leaseId other : LeaseId) (requestId : RequestId) :
    queue (cache.setCharged leaseId requestId) other =
      if other = leaseId then
        Lib.updateFirst (fun pair => decide (pair.requestId = requestId))
          (fun pair => { pair with charged := true }) (queue cache leaseId)
      else queue cache other := by
  unfold setCharged
  cases hl : cache.lookup leaseId with
  | none =>
    simp only
    split
    · rename_i h
      subst h
      simp [queue, hl, Lib.updateFirst]
    · rfl
  | some ids =>
    have hq : queue cache leaseId = ids := by simp [queue, hl]
    simp only
    rw [queue_insert, Lib.modify_findIdx, hq]

/-- A charge changes no stamp. -/
theorem stamps_setCharged (cache : PairCache) (leaseId other : LeaseId) (requestId : RequestId) :
    (queue (cache.setCharged leaseId requestId) other).map RelayedPair.atMs =
      (queue cache other).map RelayedPair.atMs := by
  rw [queue_setCharged]
  split
  · rename_i h
    subst h
    exact Lib.map_updateFirst (f := fun pair => { pair with charged := true })
      (g := RelayedPair.atMs) (fun _ _ => rfl) _
  · rfl

theorem count_setCharged (atMs : Int) (cache : PairCache) (leaseId : LeaseId)
    (requestId : RequestId) :
    countWhere (fun held => atMs ≤ held.atMs) (cache.setCharged leaseId requestId) =
      countWhere (fun held => atMs ≤ held.atMs) cache := by
  have hstamps := stamps_setCharged cache leaseId leaseId requestId
  unfold setCharged at hstamps ⊢
  cases hl : cache.lookup leaseId with
  | none => rfl
  | some ids =>
    rw [hl] at hstamps
    simp only at hstamps ⊢
    rw [queue_insert, if_pos rfl] at hstamps
    have hins := count_insert (fun held => atMs ≤ held.atMs) cache leaseId
      (ids.modify (ids.findIdx fun pair => decide (pair.requestId = requestId)) fun pair =>
        { pair with charged := true })
    have hcount := congrArg (List.countP fun stamp => decide (atMs ≤ stamp)) hstamps
    rw [List.countP_map, List.countP_map] at hcount
    have hcomp : ((fun stamp => decide (atMs ≤ stamp)) ∘ RelayedPair.atMs) =
        fun held : RelayedPair => decide (atMs ≤ held.atMs) := rfl
    rw [hcomp] at hcount
    omega

theorem Ordered.setCharged (h : cache.Ordered nowMs) (leaseId : LeaseId) (requestId : RequestId) :
    (cache.setCharged leaseId requestId).Ordered nowMs := by
  constructor
  · intro other
    have hs := h.sorted other
    rw [← List.pairwise_map (f := RelayedPair.atMs) (R := (· ≤ ·))] at hs ⊢
    rwa [stamps_setCharged]
  · intro other pair hin
    have hmem := List.mem_map_of_mem (f := RelayedPair.atMs) hin
    rw [stamps_setCharged] at hmem
    obtain ⟨held, hheld, heq⟩ := List.mem_map.mp hmem
    rw [← heq]
    exact h.past other held hheld

theorem Holds.setCharged_ne (h : cache.Holds leaseId pair newer)
    (hne : ¬ (other = leaseId ∧ requestId = pair.requestId)) :
    (cache.setCharged other requestId).Holds leaseId pair newer := by
  obtain ⟨older, younger, hq, hids, hlen⟩ := h
  by_cases ho : leaseId = other
  · subst ho
    have hp : decide (pair.requestId = requestId) = false :=
      decide_eq_false fun he => hne ⟨rfl, he.symm⟩
    obtain ⟨older', younger', heq, hold, hyoung⟩ :=
      Lib.updateFirst_split (p := fun pair : RelayedPair => decide (pair.requestId = requestId))
        (f := fun pair => { pair with charged := true }) (g := RelayedPair.requestId)
        (fun _ _ => rfl) hp older younger
    refine ⟨older', younger', ?_, fun held hin => ?_, ?_⟩
    · rw [queue_setCharged, if_pos rfl, hq, heq]
    · have hmem := List.mem_map_of_mem (f := RelayedPair.requestId) hin
      rw [List.map_append, hold, hyoung, ← List.map_append] at hmem
      obtain ⟨held', hin', heq'⟩ := List.mem_map.mp hmem
      rw [← heq']
      exact hids held' hin'
    · have hlength := congrArg List.length hyoung
      rw [List.length_map, List.length_map] at hlength
      rwa [hlength]
  · exact ⟨older, younger, by rw [queue_setCharged, if_neg ho, hq], hids, hlen⟩

theorem Holds.setCharged_self (h : cache.Holds leaseId pair newer) :
    (cache.setCharged leaseId pair.requestId).Holds leaseId { pair with charged := true } newer := by
  obtain ⟨older, younger, hq, hids, hlen⟩ := h
  refine ⟨older, younger, ?_, hids, hlen⟩
  rw [queue_setCharged, if_pos rfl, hq, Lib.updateFirst_self (by simp)]
  intro held hin
  exact decide_eq_false (hids held (List.mem_append_left _ hin))

/-- A charge finds the pair charged, charges it, or records it first. -/
theorem mark_cases (cache : PairCache) (leaseId : LeaseId) (requestId : RequestId) (nowMs : Int) :
    (∃ held, cache.find leaseId requestId = some held ∧
      cache.markCharged leaseId requestId nowMs =
        if held.charged then (false, cache) else (true, cache.setCharged leaseId requestId)) ∨
    (cache.find leaseId requestId = none ∧ cache.markCharged leaseId requestId nowMs =
      (true, (cache.admitPair leaseId requestId nowMs).2.setCharged leaseId requestId)) := by
  unfold markCharged
  cases hf : cache.find leaseId requestId with
  | none => exact .inr ⟨rfl, rfl⟩
  | some held => exact .inl ⟨held, rfl, rfl⟩

end PairCache

end TeamClaude
