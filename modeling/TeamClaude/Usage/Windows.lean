import TeamClaude.Usage.Tracker

/-!
# What the usage windows report

Each of the three structures, read for a span it answers for, gives the sum over the records of the
span, in whatever order they came.
-/

namespace TeamClaude

open Lib

section Exact

variable {Price : Type*} (lookup : String → Option Price)
  (costNanos : Price → UInt64 → UInt64 → UInt64 → UInt64 → UInt64 → UInt64) (offset : Int)

def recordedAll (records : List UsageRecord) : AccountUsage :=
  records.foldl (fun account r => account.record lookup costNanos offset r) {}

/-- The sum over the records that satisfy a test. -/
def spent (records : List UsageRecord) (p : UsageRecord → Bool) : Totals :=
  ((records.filter p).map (priced lookup costNanos)).sum

variable {lookup costNanos offset} {records records' : List UsageRecord} {r : UsageRecord}
  {account : AccountUsage} {last : Int}

theorem recorded_snoc (records : List UsageRecord) (r : UsageRecord) :
    recordedAll lookup costNanos offset (records ++ [r]) =
      (recordedAll lookup costNanos offset records).record lookup costNanos offset r := by
  rw [recordedAll, List.foldl_concat]
  rfl

theorem spent_snoc {p : UsageRecord → Bool} : spent lookup costNanos (records ++ [r]) p =
    spent lookup costNanos records p + if p r then priced lookup costNanos r else 0 := by
  rw [spent, List.filter_append, List.map_append, List.sum_append]
  cases hp : p r <;> simp [hp, spent]

theorem spent_perm {p : UsageRecord → Bool} (h : records.Perm records') :
    spent lookup costNanos records p = spent lookup costNanos records' p :=
  ((h.filter p).map _).sum_eq

theorem spent_congr {p q : UsageRecord → Bool} (h : ∀ r ∈ records, p r = q r) :
    spent lookup costNanos records p = spent lookup costNanos records q := by
  rw [spent, spent, List.filter_congr h]

/-! ## One record -/

namespace AccountUsage

theorem ring_record : (account.record lookup costNanos offset r).ring =
    account.ring.modify (r.minute % ringMinutes).toNat fun bucket =>
      bucket.record r.minute r.modelKey (priced lookup costNanos r) := by
  have hday : ∀ (a : AccountUsage) day model totals, (a.recordDay day model totals).ring = a.ring := by
    intro a day model totals
    unfold recordDay
    split
    · split_ifs <;> rfl
    · rfl
  rw [record]
  cases r.provider <;> exact hday _ _ _ _

theorem week_record : (account.record lookup costNanos offset r).week =
    (account.recordWeek r.minute (priced lookup costNanos r) r.provider).week := by
  have hday : ∀ (a : AccountUsage) day model totals, (a.recordDay day model totals).week = a.week := by
    intro a day model totals
    unfold recordDay
    split
    · split_ifs <;> rfl
    · rfl
  rw [record]
  cases r.provider <;> simp only [recordWeek, hday, recordMinute]

def current (account : AccountUsage) : Latest Day ModelTotals :=
  ⟨account.day, account.today⟩

theorem current_record : (account.record lookup costNanos offset r).current =
    account.current.push ∅ (fun today => today.add r.modelKey (priced lookup costNanos r))
      (localDay offset r.tsMs) := by
  have hweek : ∀ (a : AccountUsage) minute totals provider,
      (a.recordWeek minute totals provider).current = a.current := by
    intro a minute totals provider
    cases provider <;> rfl
  rw [record, hweek, recordDay, Latest.push]
  simp only [recordMinute, current]
  cases hheld : account.day with
  | none => rfl
  | some held =>
    by_cases heq : held = localDay offset r.tsMs
    · simp [heq]
    · by_cases hlt : localDay offset r.tsMs < held
      · simp [heq, hlt]
      · simp [heq, hlt]

end AccountUsage

/-! ## The ring -/

namespace MinuteBucket

def latest (bucket : MinuteBucket) : Latest Int ModelTotals :=
  ⟨bucket.minute, bucket.models⟩

/-- What the bucket counts for where a test admits its minute. -/
def worth (p : Int → Bool) (bucket : MinuteBucket) : Totals :=
  if bucket.minute.any p then bucket.models.total else 0

variable {bucket : MinuteBucket} {p : Int → Bool} {minute : Int} {model : String} {totals : Totals}

theorem latest_record : (bucket.record minute model totals).latest =
    bucket.latest.push ∅ (fun models => models.add model totals) minute := by
  obtain ⟨held, models⟩ := bucket
  cases held with
  | none => rfl
  | some held =>
    simp only [record, latest, Latest.push]
    split_ifs <;> rfl

theorem worth_eq : bucket.worth p = (bucket.latest.view ∅ p).total := by
  rw [worth, Latest.view, latest]
  split_ifs <;> rfl

theorem worth_record (h : ∀ held, bucket.minute = some held →
    (held < minute → p held = false) ∧ (minute < held → p minute = false)) :
    (bucket.record minute model totals).worth p =
      bucket.worth p + if p minute then totals else 0 := by
  rw [worth_eq, worth_eq, latest_record, Latest.view_push h]
  split_ifs
  · rw [OrdMap.total_add]
  · rw [add_zero]

theorem minute_record {held : Int} (h : (bucket.record minute model totals).minute = some held) :
    held = minute ∨ bucket.minute = some held := by
  have hpush : (bucket.latest.push ∅ (fun models => models.add model totals) minute).held =
      some held := by
    rw [← latest_record]
    exact h
  exact Latest.held_push hpush

end MinuteBucket

/-- Every slot holds a minute of its own, not after the last one. -/
structure RingAligned (last : Int) (ring : List MinuteBucket) : Prop where
  length : ring.length = 360
  slot : ∀ (i : Nat) (bucket : MinuteBucket) (held : Int), ring[i]? = some bucket →
    bucket.minute = some held → held ≤ last ∧ held % ringMinutes = i

theorem ring_aligned_new : RingAligned last ({} : AccountUsage).ring where
  length := List.length_replicate.trans (by decide)
  slot i bucket held hbucket hheld := by
    have hmem := List.mem_of_getElem? hbucket
    rw [List.eq_of_mem_replicate hmem] at hheld
    cases hheld

theorem slot_of_minute (minute : Int) : ((minute % ringMinutes).toNat : Int) = minute % ringMinutes :=
  Int.toNat_of_nonneg (Int.emod_nonneg _ (by decide))

theorem RingAligned.bucket_at {ring : List MinuteBucket} (h : RingAligned last ring) (minute : Int) :
    ∃ bucket, ring[(minute % ringMinutes).toNat]? = some bucket := by
  have hlt : (minute % ringMinutes).toNat < ring.length := by
    rw [h.length, Int.toNat_lt (Int.emod_nonneg _ (by decide))]
    exact Int.emod_lt_of_pos _ (by decide)
  exact ⟨_, List.getElem?_eq_getElem hlt⟩

theorem RingAligned.record {ring : List MinuteBucket} (h : RingAligned last ring) {minute : Int}
    (hle : minute ≤ last) (model : String) (totals : Totals) :
    RingAligned last (ring.modify (minute % ringMinutes).toNat
      fun bucket => bucket.record minute model totals) where
  length := by rw [List.length_modify, h.length]
  slot i bucket held hbucket hheld := by
    rw [List.getElem?_modify, Option.map_eq_map] at hbucket
    by_cases heq : (minute % ringMinutes).toNat = i
    · simp only [heq, if_true] at hbucket
      rw [Option.map_eq_some_iff] at hbucket
      obtain ⟨before, hbefore, rfl⟩ := hbucket
      rcases MinuteBucket.minute_record hheld with rfl | hsame
      · exact ⟨hle, by rw [← heq, slot_of_minute]⟩
      · exact h.slot i before held hbefore hsame
    · simp only [heq, if_false, Option.map_id'] at hbucket
      exact h.slot i bucket held hbucket hheld

/-- A record adds to the sum over any minutes that the ring covers exactly what it is worth. -/
theorem RingAligned.sum_record {ring : List MinuteBucket} (h : RingAligned last ring) {minute : Int}
    (hle : minute ≤ last) {p : Int → Bool} (hp : ∀ m, p m = true → last - ringMinutes < m)
    (model : String) (totals : Totals) :
    ((ring.modify (minute % ringMinutes).toNat fun bucket =>
        bucket.record minute model totals).map (MinuteBucket.worth p)).sum =
      (ring.map (MinuteBucket.worth p)).sum + if p minute then totals else 0 := by
  obtain ⟨bucket, hbucket⟩ := h.bucket_at minute
  refine sum_modify hbucket (MinuteBucket.worth_record fun held hheld => ?_)
  obtain ⟨hlast, hslot⟩ := h.slot _ bucket held hbucket hheld
  rw [slot_of_minute] at hslot
  have hring : ringMinutes = 360 := rfl
  rw [hring] at hslot hp
  -- two minutes of one slot are six hours apart, so the older one is outside what the ring covers
  constructor
  · intro hlt
    by_contra hadmits
    have := hp held (by simpa using hadmits)
    omega
  · intro hlt
    by_contra hadmits
    have := hp minute (by simpa using hadmits)
    omega

theorem ring_aligned_recorded (h : ∀ r ∈ records, r.minute ≤ last) :
    RingAligned last (recordedAll lookup costNanos offset records).ring := by
  induction records using List.reverseRecOn with
  | nil => exact ring_aligned_new
  | append_singleton records r ih =>
    rw [recorded_snoc, AccountUsage.ring_record]
    refine RingAligned.record (ih fun s hs => h s (List.mem_append_left _ hs)) ?_ _ _
    exact h r (List.mem_append_right _ (List.mem_singleton_self r))

theorem ring_exact (h : ∀ r ∈ records, r.minute ≤ last) {p : Int → Bool}
    (hp : ∀ m, p m = true → last - ringMinutes < m) :
    ((recordedAll lookup costNanos offset records).ring.map (MinuteBucket.worth p)).sum =
      spent lookup costNanos records fun r => p r.minute := by
  induction records using List.reverseRecOn with
  | nil => simp [recordedAll, spent, MinuteBucket.worth]
  | append_singleton records r ih =>
    have hbefore : ∀ s ∈ records, s.minute ≤ last := fun s hs => h s (List.mem_append_left _ hs)
    have hr : r.minute ≤ last := h r (List.mem_append_right _ (List.mem_singleton_self r))
    rw [recorded_snoc, AccountUsage.ring_record, spent_snoc, ← ih hbefore]
    exact (ring_aligned_recorded hbefore).sum_record hr hp _ _

/-! ## The day and the week -/

/-- Where no record is of a later day, the day's totals are the tally of the day. -/
theorem today_exact {day : Day} (h : ∀ r ∈ records, localDay offset r.tsMs ≤ day) :
    (recordedAll lookup costNanos offset records).current.view ∅ (fun held => decide (held = day)) =
      OrdMap.tally UsageRecord.modelKey (priced lookup costNanos)
        (records.filter fun r => decide (localDay offset r.tsMs = day)) := by
  have hheld : ∀ (records : List UsageRecord), (∀ r ∈ records, localDay offset r.tsMs ≤ day) →
      ∀ held, (recordedAll lookup costNanos offset records).current.held = some held → held ≤ day := by
    intro records
    induction records using List.reverseRecOn with
    | nil => exact fun _ held hheld => nomatch hheld
    | append_singleton records r ih =>
      intro h held hheld
      rw [recorded_snoc, AccountUsage.current_record] at hheld
      rcases Latest.held_push hheld with rfl | hbefore
      · exact h r (List.mem_append_right _ (List.mem_singleton_self r))
      · exact ih (fun s hs => h s (List.mem_append_left _ hs)) held hbefore
  induction records using List.reverseRecOn with
  | nil => rfl
  | append_singleton records r ih =>
    have hbefore : ∀ s ∈ records, localDay offset s.tsMs ≤ day :=
      fun s hs => h s (List.mem_append_left _ hs)
    have hr : localDay offset r.tsMs ≤ day :=
      h r (List.mem_append_right _ (List.mem_singleton_self r))
    rw [recorded_snoc, AccountUsage.current_record, Latest.view_push, ih hbefore, List.filter_append]
    · by_cases heq : localDay offset r.tsMs = day
      · simp [heq, OrdMap.tally_snoc]
      · simp [heq]
    · intro held hcurrent
      have hle := hheld records hbefore held hcurrent
      exact ⟨fun hlt => decide_eq_false (hlt.trans_le hr).ne,
        fun hlt => decide_eq_false (hlt.trans_le hle).ne⟩

theorem week_keys (h : ∀ r ∈ records, r.minute ≤ last) :
    ∀ e ∈ (recordedAll lookup costNanos offset records).week.entries, e.1 ≤ last := by
  induction records using List.reverseRecOn with
  | nil => exact fun e he => nomatch he
  | append_singleton records r ih =>
    have hbefore := ih fun s hs => h s (List.mem_append_left _ hs)
    intro e he
    rw [recorded_snoc, AccountUsage.week_record] at he
    cases hprovider : r.provider with
    | anthropic =>
      rw [hprovider] at he
      exact hbefore e he
    | codex =>
      rw [hprovider] at he
      rcases OrdMap.mem_alter ((List.dropWhile_sublist _).subset he) with hkey | hmem
      · rw [hkey]
        exact h r (List.mem_append_right _ (List.mem_singleton_self r))
      · exact hbefore e hmem

theorem week_exact (h : ∀ r ∈ records, r.minute ≤ last) {p : Int → Bool}
    (hp : ∀ m, p m = true → last - weekMinutes ≤ m) :
    (recordedAll lookup costNanos offset records).week.sumOn p =
      spent lookup costNanos records fun r => decide (r.provider = .codex) && p r.minute := by
  induction records using List.reverseRecOn with
  | nil => rfl
  | append_singleton records r ih =>
    have hbefore : ∀ s ∈ records, s.minute ≤ last := fun s hs => h s (List.mem_append_left _ hs)
    have hr : r.minute ≤ last := h r (List.mem_append_right _ (List.mem_singleton_self r))
    rw [recorded_snoc, AccountUsage.week_record, spent_snoc, ← ih hbefore]
    cases hprovider : r.provider with
    | anthropic => simp [AccountUsage.recordWeek]
    | codex =>
      have hnewest : ((((recordedAll lookup costNanos offset records).week.add r.minute
          (priced lookup costNanos r)).lastKey).getD r.minute) ≤ last := by
        cases hlast : ((recordedAll lookup costNanos offset records).week.add r.minute
            (priced lookup costNanos r)).lastKey with
        | none => exact hr
        | some newest =>
          obtain ⟨v, hv⟩ := OrdMap.mem_of_last_key hlast
          rcases OrdMap.mem_alter hv with hkey | hmem
          · exact hkey.le.trans hr
          · exact week_keys hbefore _ hmem
      have hdrop := OrdMap.sum_on_drop_below
        (m := (recordedAll lookup costNanos offset records).week.add r.minute
          (priced lookup costNanos r))
        fun m hm => (Int.sub_le_sub_right hnewest weekMinutes).trans (hp m hm)
      simp only [AccountUsage.recordWeek]
      rw [hdrop, OrdMap.sum_on_add]
      simp

/-! ## The tracker -/

/-- The account at an index, empty past the end of the list. -/
def accountAt (accounts : UsageTracker) (idx : Nat) : AccountUsage :=
  accounts[idx]?.getD {}

theorem with_account_fst {R : Type} {accounts : UsageTracker} {idx : Nat}
    {f : AccountUsage → R × AccountUsage} :
    (withAccount accounts idx f).1 = (f (accountAt accounts idx)).1 := by
  unfold withAccount accountAt
  cases accounts[idx]? <;> rfl

theorem account_at_with_account {R : Type} {accounts : UsageTracker} {idx j : Nat}
    {f : AccountUsage → R × AccountUsage} :
    accountAt (withAccount accounts idx f).2 j =
      if j = idx then (f (accountAt accounts idx)).2 else accountAt accounts j := by
  unfold withAccount accountAt
  cases hidx : accounts[idx]? with
  | some account =>
    have hlt : idx < accounts.length := (List.getElem?_eq_some_iff.mp hidx).1
    by_cases heq : j = idx
    · subst heq
      simp [hlt]
    · simp [heq, List.getElem?_set_ne (Ne.symm heq)]
  | none =>
    have hlen : accounts.length ≤ idx := List.getElem?_eq_none_iff.mp hidx
    have hgrown : (accounts ++ List.replicate (idx - accounts.length) ({} : AccountUsage)).length =
        idx := by
      rw [List.length_append, List.length_replicate]
      omega
    by_cases heq : j = idx
    · subst heq
      rw [if_pos rfl, List.getElem?_append_right hgrown.le, hgrown, Nat.sub_self]
      rfl
    · rw [if_neg heq]
      rcases Nat.lt_or_ge j accounts.length with hj | hj
      · rw [List.getElem?_append_left (by omega), List.getElem?_append_left hj]
      · rw [List.getElem?_eq_none hj]
        rcases Nat.lt_or_ge j idx with hji | hji
        · rw [List.getElem?_append_left (by omega), List.getElem?_append_right hj,
            List.getElem?_replicate_of_lt (by omega)]
          rfl
        · rw [List.getElem?_eq_none]
          rw [List.length_append, hgrown, List.length_singleton]
          omega

variable (lookup costNanos offset) in
/-- The tracker after a list of records, each with the index of its account. -/
def recordRun (accountCount : Nat) (served : List (Nat × UsageRecord)) : UsageTracker :=
  served.foldl (fun accounts s => recordInMemory lookup costNanos offset accounts s.1 s.2)
    (.new accountCount)

def recordsOf (idx : Nat) (served : List (Nat × UsageRecord)) : List UsageRecord :=
  (served.filter fun s => decide (s.1 = idx)).map Prod.snd

theorem account_at_run (accountCount idx : Nat) (served : List (Nat × UsageRecord)) :
    accountAt (recordRun lookup costNanos offset accountCount served) idx =
      recordedAll lookup costNanos offset (recordsOf idx served) := by
  induction served using List.reverseRecOn with
  | nil =>
    simp only [recordRun, List.foldl_nil, UsageTracker.new, accountAt, recordsOf, List.filter_nil,
      List.map_nil, recordedAll, List.getElem?_replicate]
    split_ifs <;> rfl
  | append_singleton served s ih =>
    rw [recordRun, List.foldl_concat, recordInMemory, account_at_with_account, recordsOf,
      List.filter_append, List.map_append]
    by_cases heq : idx = s.1
    · subst heq
      rw [if_pos rfl]
      have hnew : (([s].filter fun t => decide (t.1 = s.1)).map Prod.snd) = [s.2] := by simp
      rw [hnew, recorded_snoc, ← recordsOf, ← ih]
      rfl
    · rw [if_neg heq]
      have hnone : (([s].filter fun t => decide (t.1 = idx)).map Prod.snd) = [] := by
        simp [Ne.symm heq]
      rw [hnone, List.append_nil, ← recordsOf, ← ih]
      rfl

/-! ## The reports -/

/-- The record's minute lies between the minutes of two instants. -/
def inSpan (sinceMs nowMs : Int) (r : UsageRecord) : Bool :=
  decide (sinceMs / 60000 ≤ r.minute) && decide (r.minute ≤ nowMs / 60000)

/-- An instant that has a local date. -/
def Dated (offset tsMs : Int) : Prop :=
  ((msToOdt tsMs).bind fun t => fromUnixTimestampNanos (t + offset)).isSome

instance (offset tsMs : Int) : Decidable (Dated offset tsMs) :=
  inferInstanceAs (Decidable (_ = true))

theorem Dated.instant {tsMs : Int} (h : Dated offset tsMs) : ∃ t, msToOdt tsMs = some t := by
  rw [Dated] at h
  cases ht : msToOdt tsMs with
  | none =>
    rw [ht] at h
    cases h
  | some t => exact ⟨t, rfl⟩

theorem ms_to_odt_eq {tsMs : Int} {t : Instant} (h : msToOdt tsMs = some t) :
    t = tsMs * 1000000 := by
  unfold msToOdt fromUnixTimestampNanos at h
  split at h
  · exact (Option.some.inj h).symm
  · cases h

/-- A day does not go back as instants advance, undated ones read as the epoch. -/
theorem local_day_le {tsMs nowMs : Int} (hnow : Dated offset nowMs) (hle : tsMs ≤ nowMs)
    (h : Dated offset tsMs ∨ 0 ≤ nowMs ∧ msToOdt tsMs = none) :
    localDay offset tsMs ≤ localDay offset nowMs := by
  obtain ⟨now, hnow⟩ := hnow.instant
  have hnowns := ms_to_odt_eq hnow
  rw [localDay, localDay, hnow, Option.getD_some, hnowns]
  refine Int.ediv_le_ediv (by decide) ?_
  rcases h with hdated | ⟨hepoch, hnone⟩
  · obtain ⟨t, ht⟩ := hdated.instant
    rw [ht, Option.getD_some, ms_to_odt_eq ht]
    omega
  · rw [hnone, Option.getD_none]
    omega

theorem range_exact {sinceMs nowMs : Int} (h : ∀ r ∈ records, r.tsMs ≤ nowMs)
    (hsince : nowMs - sinceMs ≤ 20000000) :
    (recordedAll lookup costNanos offset records).range sinceMs nowMs =
      spent lookup costNanos records (inSpan sinceMs nowMs) := by
  have hminute : ∀ r ∈ records, r.minute ≤ nowMs / 60000 :=
    fun r hr => Int.ediv_le_ediv (by decide) (h r hr)
  have hp : ∀ m, inRange sinceMs nowMs m = true → nowMs / 60000 - ringMinutes < m := by
    intro m hm
    simp only [inRange, Bool.and_eq_true, decide_eq_true_eq] at hm
    omega
  refine (ring_exact hminute hp).trans (spent_congr fun r _ => ?_)
  have hfloor : sinceMs / 60000 ≤ r.minute → nowMs / 60000 - ringMinutes + 1 ≤ r.minute := by
    intro hfirst
    have hring : ringMinutes = 360 := rfl
    omega
  rw [Bool.eq_iff_iff]
  simp only [inRange, inSpan, Bool.and_eq_true, decide_eq_true_eq]
  exact ⟨fun hm => hm.1, fun hm => ⟨hm, hfloor hm.1⟩⟩

theorem current_view {day : Day} (account : AccountUsage) :
    account.current.view ∅ (fun held => decide (held = day)) =
      if account.day = some day then account.today else ∅ := by
  cases hheld : account.day with
  | none => simp [AccountUsage.current, Latest.view, hheld]
  | some held =>
    by_cases heq : held = day
    · simp [AccountUsage.current, Latest.view, hheld, heq]
    · simp [AccountUsage.current, Latest.view, hheld, heq]

variable (lookup costNanos offset) in
def exactRow (records : List UsageRecord) (nowMs resetMs : Int) : UsageRow :=
  let ofToday := fun r : UsageRecord => decide (localDay offset r.tsMs = localDay offset nowMs)
  { today := (spent lookup costNanos records ofToday).toWire
    window := some
      { since := resetMs - fiveHoursMs
        totals := (spent lookup costNanos records (inSpan (resetMs - fiveHoursMs) nowMs)).toWire }
    lastHour := (spent lookup costNanos records (inSpan (nowMs - oneHourMs) nowMs)).toWire
    todayByModel := (OrdMap.tally UsageRecord.modelKey (priced lookup costNanos)
      (records.filter ofToday)).mapVals Totals.toWire
    sevenDayWindow := none }

theorem exact_row_perm {nowMs resetMs : Int} (h : records.Perm records') :
    exactRow lookup costNanos offset records nowMs resetMs =
      exactRow lookup costNanos offset records' nowMs resetMs := by
  simp only [exactRow, spent_perm h, OrdMap.tally_perm (h.filter _)]

theorem row_exact {nowMs resetMs : Int} (hnow : Dated offset nowMs)
    (hpast : ∀ r ∈ records, r.tsMs ≤ nowMs)
    (hdated : ∀ r ∈ records, Dated offset r.tsMs ∨ 0 ≤ nowMs ∧ msToOdt r.tsMs = none)
    (hreset : nowMs < resetMs) :
    (recordedAll lookup costNanos offset records).rowOf offset nowMs (some resetMs) =
      exactRow lookup costNanos offset records nowMs resetMs := by
  have hday : (recordedAll lookup costNanos offset records).current.view ∅ _ = _ :=
    today_exact fun r hr => local_day_le hnow (hpast r hr) (hdated r hr)
  rw [current_view] at hday
  have hwindow : (recordedAll lookup costNanos offset records).range (resetMs - fiveHoursMs)
      nowMs = _ :=
    range_exact hpast (by rw [fiveHoursMs]; omega)
  have hhour : (recordedAll lookup costNanos offset records).range (nowMs - oneHourMs) nowMs = _ :=
    range_exact hpast (by rw [oneHourMs]; omega)
  simp only [AccountUsage.rowOf, exactRow, Option.map_some, hwindow, hhour]
  by_cases hcurrent : (recordedAll lookup costNanos offset records).day =
      some (localDay offset nowMs)
  · rw [if_pos hcurrent] at hday
    simp only [hcurrent, if_true, hday, OrdMap.total_tally, spent]
  · rw [if_neg hcurrent] at hday
    have htotal := congrArg OrdMap.total hday
    rw [OrdMap.total_tally] at htotal
    simp only [hcurrent, if_false, spent, ← hday, ← htotal]
    rfl

theorem seven_day_exact {nowMs resetMs lengthMs : Int} (hpast : ∀ r ∈ records, r.tsMs ≤ nowMs)
    (hsince : nowMs - weekMs ≤ resetMs - lengthMs) :
    (recordedAll lookup costNanos offset records).weekRange ((resetMs - lengthMs) / 60000)
        (nowMs / 60000) =
      spent lookup costNanos records fun r =>
        decide (r.provider = .codex) && inSpan (resetMs - lengthMs) nowMs r := by
  have hminute : ∀ r ∈ records, r.minute ≤ nowMs / 60000 :=
    fun r hr => Int.ediv_le_ediv (by decide) (hpast r hr)
  refine week_exact hminute fun m hm => ?_
  simp only [Bool.and_eq_true, decide_eq_true_eq] at hm
  rw [weekMinutes]
  rw [weekMs] at hsince ⊢
  omega

theorem spent_none {p : UsageRecord → Bool} (h : ∀ r ∈ records, p r = false) :
    spent lookup costNanos records p = 0 := by
  rw [spent, List.filter_eq_nil_iff.mpr fun r hr => by simp [h r hr]]
  rfl

theorem row_of_run {served : List (Nat × UsageRecord)} {accountCount idx : Nat} {nowMs : Int}
    {resetMs : Option Int} :
    (recordRun lookup costNanos offset accountCount served).row offset idx nowMs resetMs =
      (recordedAll lookup costNanos offset (recordsOf idx served)).rowOf offset nowMs resetMs := by
  rw [UsageTracker.row, with_account_fst, account_at_run]

theorem seven_day_of_run {served : List (Nat × UsageRecord)} {accountCount idx : Nat}
    {nowMs resetMs lengthMs : Int} (hpast : ∀ r ∈ recordsOf idx served, r.tsMs ≤ nowMs) :
    (recordRun lookup costNanos offset accountCount served).sevenDayWindow idx nowMs resetMs
        lengthMs =
      if resetMs - lengthMs < nowMs - weekMs then none
      else some
        { since := resetMs - lengthMs
          totals := (spent lookup costNanos (recordsOf idx served) fun r =>
            decide (r.provider = .codex) && inSpan (resetMs - lengthMs) nowMs r).toWire } := by
  simp only [UsageTracker.sevenDayWindow, with_account_fst, account_at_run]
  by_cases hsince : resetMs - lengthMs < nowMs - weekMs
  · rw [if_pos hsince, if_pos hsince]
  · rw [if_neg hsince, if_neg hsince, seven_day_exact hpast (not_lt.mp hsince)]
    by_cases hopen : (resetMs - lengthMs) / 60000 ≤ nowMs / 60000
    · rw [if_pos hopen]
    · rw [if_neg hopen, spent_none]
      · rfl
      · intro r _
        rw [Bool.and_eq_false_iff]
        right
        rw [inSpan, Bool.and_eq_false_iff, decide_eq_false_iff_not, decide_eq_false_iff_not]
        omega

/-- Of records not after now, recorded in any order among those of other accounts, the row reports
exactly the sums over the records of each span, and so does a weekly window that it answers. -/
theorem usage_windows_exact {served : List (Nat × UsageRecord)} {accountCount idx : Nat}
    {nowMs resetMs : Int} (hnow : Dated offset nowMs)
    (hpast : ∀ r ∈ recordsOf idx served, r.tsMs ≤ nowMs)
    (hdated : ∀ r ∈ recordsOf idx served,
      Dated offset r.tsMs ∨ 0 ≤ nowMs ∧ msToOdt r.tsMs = none)
    (hreset : nowMs < resetMs) :
    (recordRun lookup costNanos offset accountCount served).row offset idx nowMs (some resetMs) =
        exactRow lookup costNanos offset (recordsOf idx served) nowMs resetMs ∧
      (∀ weekResetMs lengthMs window,
        (recordRun lookup costNanos offset accountCount served).sevenDayWindow idx nowMs weekResetMs
            lengthMs = some window →
          window.since = weekResetMs - lengthMs ∧
            window.totals = (spent lookup costNanos (recordsOf idx served) fun r =>
              decide (r.provider = .codex) && inSpan (weekResetMs - lengthMs) nowMs r).toWire) ∧
      ∀ served', (recordsOf idx served').Perm (recordsOf idx served) →
        (recordRun lookup costNanos offset accountCount served').row offset idx nowMs
            (some resetMs) =
          (recordRun lookup costNanos offset accountCount served).row offset idx nowMs
            (some resetMs) := by
  refine ⟨?_, fun weekResetMs lengthMs window hwindow => ?_, fun served' hperm => ?_⟩
  · rw [row_of_run, row_exact hnow hpast hdated hreset]
  · rw [seven_day_of_run hpast] at hwindow
    split_ifs at hwindow
    obtain rfl := Option.some.inj hwindow
    exact ⟨rfl, rfl⟩
  · rw [row_of_run, row_of_run, row_exact hnow hpast hdated hreset, row_exact hnow
      (fun r hr => hpast r (hperm.mem_iff.mp hr)) (fun r hr => hdated r (hperm.mem_iff.mp hr))
      hreset]
    exact exact_row_perm hperm

end Exact

/-- A Codex account served twice, the later record first, with a record of another account between
them. -/
theorem usage_windows_exact_replayed :
    (recordRun (fun _ => (none : Option Unit)) (fun _ _ _ _ _ _ => 0) 0 1
        [(0, { tsMs := 90000000, model := none, provider := .codex }),
          (1, { tsMs := 90000000, model := some "a" }),
          (0, { tsMs := 86400000, model := none, provider := .codex })]).row 0 0 90000000
        (some 90000001) =
      exactRow (fun _ => (none : Option Unit)) (fun _ _ _ _ _ _ => 0) 0
        [{ tsMs := 90000000, model := none, provider := .codex },
          { tsMs := 86400000, model := none, provider := .codex }] 90000000 90000001 :=
  And.left (usage_windows_exact (by decide) (by decide) (by decide) (by decide))

/-- Before the epoch, a record with no date holds the day at the epoch and the day's own records are
dropped. -/
theorem undated_holds_the_day :
    (∀ r ∈ recordsOf 0 [(0, { tsMs := -400000000000000, model := none }),
        (0, { tsMs := -86400000, model := none })], r.tsMs ≤ -86400000) ∧
      ((recordRun (fun _ => (none : Option Unit)) (fun _ _ _ _ _ _ => 0) 0 1
        [(0, { tsMs := -400000000000000, model := none }),
          (0, { tsMs := -86400000, model := none })]).row 0 0 (-86400000) (some 0)).today ≠
      (spent (fun _ => (none : Option Unit)) (fun _ _ _ _ _ _ => 0)
        [{ tsMs := -400000000000000, model := none }, { tsMs := -86400000, model := none }]
        fun r => decide (localDay 0 r.tsMs = localDay 0 (-86400000))).toWire := by
  decide +kernel

end TeamClaude
