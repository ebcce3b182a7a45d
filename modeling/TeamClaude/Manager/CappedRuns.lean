import TeamClaude.Manager.Frame

/-!
# Runs of insertions in a capped map

An eviction removes at most one entry, and none where the oldest is the one just inserted. Over a
run the size therefore depends on the order of the touches: an insertion whose touch is no newer
than every held one leaves the map one entry larger each time. The order in which an iteration
visits the entries is not fixed.
-/

namespace TeamClaude

/-- A write of a capped map followed by its eviction. -/
inductive Insertion (κ ν : Type)
  | insert (key : κ) (value : ν)
  /-- `entry(key)`, edited in place, then `evict_sparing(key)`. -/
  | entry (key : κ) (edit : Option ν → ν)

namespace Insertion

variable {κ ν : Type}

def key : Insertion κ ν → κ
  | .insert key _ | .entry key _ => key

/-- The value written over what the key held before. -/
def value (prior : Option ν) : Insertion κ ν → ν
  | .insert _ value => value
  | .entry _ edit => edit prior

end Insertion

namespace CappedMap

variable {κ ν : Type}

/-- The same map, visited in another order. -/
structure Reordered (m m' : CappedMap κ ν) : Prop where
  entries : m'.map.entries.Perm m.map.entries
  cap : m'.cap = m.cap
  touched : m'.touched = m.touched

@[refl] theorem Reordered.refl (m : CappedMap κ ν) : m.Reordered m :=
  ⟨List.Perm.refl _, rfl, rfl⟩

variable [DecidableEq κ]

def written (m : CappedMap κ ν) (op : Insertion κ ν) : CappedMap κ ν :=
  m.put op.key (op.value (m.get op.key))

/-- The map after an insertion, for some order of visiting the entries. -/
inductive Inserted (m : CappedMap κ ν) (op : Insertion κ ν) : CappedMap κ ν → Prop
  | mk {m' : CappedMap κ ν} (h : (m.written op).Reordered m') : Inserted m op (m'.evictSparing op.key)

/-- The maps a run of insertions can lead to. -/
inductive Reaches (m : CappedMap κ ν) : List (Insertion κ ν) → CappedMap κ ν → Prop
  | nil : Reaches m [] m
  | snoc {ops op m' m''} (hrun : Reaches m ops m') (hlast : m'.Inserted op m'') :
      Reaches m (ops ++ [op]) m''

/-- Every insertion of the run leaves at most one entry over the cap, its own among them. -/
def StaysBounded (m : CappedMap κ ν) (ops : List (Insertion κ ν)) : Prop :=
  ∀ pre op, pre ++ [op] <+: ops → ∀ m' m'', m.Reaches pre m' → m'.Inserted op m'' →
    m''.len ≤ m.cap + 1 ∧ (m''.get op.key).isSome

/-- The insertion has room, or its key is in, or something held was touched before it. -/
def Fits (m : CappedMap κ ν) (op : Insertion κ ν) : Prop :=
  m.len ≤ m.cap ∨ (m.get op.key).isSome ∨
    ∃ k v, m.get k = some v ∧ m.touched v < m.touched (op.value none)

def EachFits (m : CappedMap κ ν) (ops : List (Insertion κ ν)) : Prop :=
  ∀ pre op, pre ++ [op] <+: ops → ∀ m', m.Reaches pre m' → m'.Fits op

section Step

variable {m m' m'' : CappedMap κ ν} {op : Insertion κ ν} {key k : κ} {value v : ν}

theorem Reordered.get (h : m.Reordered m') (k : κ) : m'.get k = m.get k :=
  AList.perm_lookup h.entries

theorem mem_map_entries : ⟨k, v⟩ ∈ m.map.entries ↔ m.get k = some v :=
  AList.mem_lookup_iff.symm

theorem length_kerase (m : CappedMap κ ν) (key : κ) :
    (m.map.entries.kerase key).length = if (m.get key).isSome then m.len - 1 else m.len := by
  have hmem : (m.get key).isSome ↔ key ∈ m.map.entries.keys := AList.lookup_isSome
  split
  · rename_i hin
    obtain ⟨value, before, after, -, hentries, herase⟩ := List.exists_of_kerase (hmem.mp hin)
    rw [herase, len, hentries]
    simp
  · rename_i hout
    rw [List.kerase_of_notMem_keys fun hin => hout (hmem.mpr hin), len]

/-- Writing over a key leaves the size, writing a new one adds one. -/
theorem len_put (m : CappedMap κ ν) (key : κ) (value : ν) :
    (m.put key value).len = if (m.get key).isSome then m.len else m.len + 1 := by
  have hlen : (m.put key value).len = (m.map.entries.kerase key).length + 1 := by
    rw [len, put, AList.entries_insert, List.length_cons]
  rw [hlen, length_kerase]
  split
  · rename_i hin
    have hpos : 0 < m.len := by
      obtain ⟨value, hvalue⟩ := Option.isSome_iff_exists.mp hin
      exact List.length_pos_of_mem (mem_map_entries.mpr hvalue)
    omega
  · rfl

theorem victim_held (h : m.victim key = some k) : (m.get k).isSome := by
  unfold victim at h
  split at h
  · cases h
  · obtain ⟨holdest, -⟩ := Option.filter_eq_some_iff.mp h
    obtain ⟨e, hmin, rfl⟩ := Option.map_eq_some_iff.mp holdest
    have hget : m.get e.1 = some e.2 := mem_map_entries.mp (min_by_key_spec hmin).1
    rw [hget]
    rfl

theorem len_evict (m : CappedMap κ ν) (key : κ) :
    (m.evictSparing key).len = if (m.victim key).isSome then m.len - 1 else m.len := by
  unfold evictSparing
  cases hvictim : m.victim key with
  | none => rfl
  | some oldest =>
    have hlen : ({ m with map := m.map.erase oldest } : CappedMap κ ν).len =
        (m.map.entries.kerase oldest).length := rfl
    simp only [hlen, length_kerase, victim_held hvictim, Option.isSome_some, if_true]

theorem evict_cap (m : CappedMap κ ν) (key : κ) : (m.evictSparing key).cap = m.cap := by
  unfold evictSparing
  split
  · rfl
  · rfl

theorem evict_touched (m : CappedMap κ ν) (key : κ) : (m.evictSparing key).touched = m.touched := by
  unfold evictSparing
  split
  · rfl
  · rfl

/-- Nothing is evicted where no other entry was touched before the key's. -/
theorem victim_none_of_least {rest : List (Sigma fun _ : κ => ν)}
    (hentries : m.map.entries = ⟨key, value⟩ :: rest)
    (hleast : ∀ e ∈ rest, m.touched value ≤ m.touched e.2) : m.victim key = none := by
  have holdest : m.oldest = some key := by
    rw [oldest, hentries]
    simp only [minByKey]
    split
    · rfl
    · rename_i e hmin
      rw [if_neg (not_lt.mpr (hleast e (min_by_key_spec hmin).1))]
      rfl
  rw [victim, holdest]
  split
  · rfl
  · simp

/-- An eviction over the cap removes an entry where one was touched before the key's. -/
theorem victim_isSome_of_older (hover : m.cap < m.len) (hkey : m.get key = some value)
    (hget : m.get k = some v) (hlt : m.touched v < m.touched value) : (m.victim key).isSome := by
  rw [victim, if_neg (not_le.mpr hover), oldest]
  cases hmin : minByKey (fun e => m.touched e.2) m.map.entries with
  | none =>
    have hmem := mem_map_entries.mpr hget
    rw [min_by_key_none.mp hmin] at hmem
    cases hmem
  | some least =>
    obtain ⟨hin, hleast⟩ := min_by_key_spec hmin
    have hle : m.touched least.2 ≤ m.touched v := hleast ⟨k, v⟩ (mem_map_entries.mpr hget)
    have hne : least.1 ≠ key := by
      rintro rfl
      have hsame : m.get least.1 = some least.2 := mem_map_entries.mp hin
      rw [hkey] at hsame
      rw [← Option.some_injective _ hsame] at hle
      omega
    simp [hne]

/-- An insertion that does not fit adds an entry, where the new one is visited first. -/
theorem unfit_grows (hfits : ¬m.Fits op) :
    m.cap < m.len ∧ ((m.written op).evictSparing op.key).len = m.len + 1 := by
  obtain ⟨hfull, hnew, hleast⟩ : m.cap < m.len ∧ m.get op.key = none ∧
      ∀ k v, m.get k = some v → m.touched (op.value none) ≤ m.touched v := by
    simp only [Fits, not_or, not_exists, not_and, not_lt, not_le, Bool.not_eq_true,
      Option.isSome_eq_false_iff, Option.isNone_iff_eq_none] at hfits
    exact hfits
  have hentries : (m.written op).map.entries = ⟨op.key, op.value none⟩ :: m.map.entries := by
    have hout : op.key ∉ m.map := AList.lookup_eq_none.mp hnew
    rw [written, hnew, put, AList.entries_insert_of_notMem hout]
  have hvictim : (m.written op).victim op.key = none :=
    victim_none_of_least hentries fun e he => hleast e.1 e.2 (mem_map_entries.mp he)
  refine ⟨hfull, ?_⟩
  rw [len_evict, hvictim, written, len_put, hnew]
  rfl

/-- An insertion that fits is within one entry over the cap, in every order of visiting the
entries. -/
theorem fit_len (hlen : m.len ≤ m.cap + 1) (hfits : m.Fits op) (h : m.Inserted op m'') :
    m''.len ≤ m.cap + 1 := by
  obtain ⟨hreorder⟩ := h
  rename_i m'
  have hsize : m'.len = (m.written op).len := hreorder.entries.length_eq
  rw [written, len_put] at hsize
  rw [len_evict]
  by_cases hroom : m.len ≤ m.cap ∨ (m.get op.key).isSome
  · have hsmall : m'.len ≤ m.cap + 1 := by
      rcases hroom with hroom | hheld
      · split_ifs at hsize <;> omega
      · rwa [hsize, if_pos hheld]
    split_ifs <;> omega
  · rw [not_or] at hroom
    obtain ⟨k, v, hget, hlt⟩ := (hfits.resolve_left hroom.1).resolve_left hroom.2
    have hnew : m.get op.key = none := by simpa using hroom.2
    rw [if_neg hroom.2] at hsize
    have hne : k ≠ op.key := by
      rintro rfl
      rw [hnew] at hget
      cases hget
    have hkey : m'.get op.key = some (op.value none) := by
      rw [hreorder.get, written, hnew, get_put_self]
    have hold : m'.get k = some v := by
      rw [hreorder.get, written, get_put_ne _ _ hne, hget]
    have hcap : m'.cap = m.cap := hreorder.cap
    have htouched : m'.touched = m.touched := hreorder.touched
    have hvictim : (m'.victim op.key).isSome :=
      victim_isSome_of_older (by omega) hkey hold (by rwa [htouched])
    rw [if_pos hvictim]
    omega

/-- An insertion stays within one entry over the cap, in every order of visiting the entries,
exactly when it fits. -/
theorem inserted_len_iff (hlen : m.len ≤ m.cap + 1) :
    (∀ m'', m.Inserted op m'' → m''.len ≤ m.cap + 1) ↔ m.Fits op := by
  constructor
  · intro hbounded
    by_contra hfits
    obtain ⟨hfull, hgrown⟩ := unfit_grows hfits
    have hlarge := hbounded _ (.mk (.refl _))
    omega
  · exact fun hfits _ h => fit_len hlen hfits h

/-- The insertion that visits the entries in the order they are listed. -/
theorem inserted_listed (m : CappedMap κ ν) (op : Insertion κ ν) :
    m.Inserted op ((m.written op).evictSparing op.key) :=
  .mk (.refl _)

theorem inserted_get (h : m.Inserted op m'') : (m''.get op.key).isSome := by
  obtain ⟨hreorder⟩ := h
  rw [get_evict_self, hreorder.get, written, get_put_self]
  rfl

theorem inserted_cap (h : m.Inserted op m'') : m''.cap = m.cap ∧ m''.touched = m.touched := by
  obtain ⟨hreorder⟩ := h
  exact ⟨(evict_cap _ _).trans hreorder.cap, (evict_touched _ _).trans hreorder.touched⟩

/-- The insertion of a new key whose touch is older than every held one evicts nothing. -/
theorem inserted_older (h : m.Inserted op m'') (hnew : m.get op.key = none)
    (holder : ∀ k v, m.get k = some v → m.touched (op.value none) < m.touched v) :
    m''.len = m.len + 1 ∧
      ∀ k v, m''.get k = some v → (k = op.key ∧ v = op.value none) ∨ m.get k = some v := by
  obtain ⟨hreorder⟩ := h
  rename_i m'
  have hget : ∀ k, m'.get k = (m.put op.key (op.value none)).get k := by
    intro k
    rw [hreorder.get, written, hnew]
  have htouched : m'.touched = m.touched := hreorder.touched
  have hheld : ∀ k v, m'.get k = some v → (k = op.key ∧ v = op.value none) ∨ m.get k = some v := by
    intro k v hk
    rw [hget] at hk
    by_cases hkey : k = op.key
    · subst hkey
      rw [get_put_self] at hk
      exact .inl ⟨rfl, (Option.some_injective _ hk).symm⟩
    · rw [get_put_ne _ _ hkey] at hk
      exact .inr hk
  have hvictim : m'.victim op.key = none := by
    rw [victim]
    split
    · rfl
    rw [oldest]
    cases hmin : minByKey (fun e => m'.touched e.2) m'.map.entries with
    | none => rfl
    | some least =>
      obtain ⟨hin, hleast⟩ := min_by_key_spec hmin
      have hself : m'.get op.key = some (op.value none) := by rw [hget, get_put_self]
      have hle : m'.touched least.2 ≤ m'.touched (op.value none) :=
        hleast ⟨op.key, op.value none⟩ (mem_map_entries.mpr hself)
      rcases hheld least.1 least.2 (mem_map_entries.mp hin) with ⟨hkey, -⟩ | hold
      · simp [hkey]
      · have hlt := holder least.1 least.2 hold
        rw [htouched] at hle
        omega
  have hsame : m'.evictSparing op.key = m' := by rw [evictSparing, hvictim]
  refine ⟨?_, fun k v hk => hheld k v (by rwa [hsame] at hk)⟩
  have hsize : m'.len = (m.written op).len := hreorder.entries.length_eq
  rw [hsame, hsize, written, len_put, hnew]
  rfl

end Step

/-! ## Runs -/

section Run

variable {m m' : CappedMap κ ν} {ops : List (Insertion κ ν)} {op : Insertion κ ν}

theorem reaches_nil_iff : m.Reaches [] m' ↔ m' = m := by
  constructor
  · intro h
    generalize hops : ([] : List (Insertion κ ν)) = ops at h
    cases h with
    | nil => rfl
    | snoc hrun hlast => simp at hops
  · rintro rfl
    exact .nil

theorem reaches_snoc_iff :
    m.Reaches (ops ++ [op]) m' ↔ ∃ before, m.Reaches ops before ∧ before.Inserted op m' := by
  constructor
  · intro h
    generalize hops : ops ++ [op] = all at h
    cases h with
    | nil => simp at hops
    | snoc hrun hlast =>
      obtain ⟨rfl, hop⟩ := List.append_inj' hops rfl
      cases hop
      exact ⟨_, hrun, hlast⟩
  · rintro ⟨before, hrun, hlast⟩
    exact .snoc hrun hlast

theorem reaches_cap (h : m.Reaches ops m') : m'.cap = m.cap ∧ m'.touched = m.touched := by
  induction h with
  | nil => exact ⟨rfl, rfl⟩
  | snoc hrun hlast ih =>
    obtain ⟨hcap, htouched⟩ := inserted_cap hlast
    exact ⟨hcap.trans ih.1, htouched.trans ih.2⟩

theorem reaches_len_of_bounded (hstart : m.len ≤ m.cap + 1) (hbounded : m.StaysBounded ops)
    {pre : List (Insertion κ ν)} (hpre : pre <+: ops) (h : m.Reaches pre m') :
    m'.len ≤ m.cap + 1 := by
  rcases List.eq_nil_or_concat' pre with rfl | ⟨earlier, last, rfl⟩
  · rwa [reaches_nil_iff.mp h]
  · obtain ⟨before, hrun, hlast⟩ := reaches_snoc_iff.mp h
    exact (hbounded earlier last hpre before m' hrun hlast).1

theorem reaches_len_of_fits (hstart : m.len ≤ m.cap + 1) (hfits : m.EachFits ops)
    {pre : List (Insertion κ ν)} (hpre : pre <+: ops) (h : m.Reaches pre m') :
    m'.len ≤ m.cap + 1 := by
  induction pre using List.reverseRecOn generalizing m' with
  | nil => rwa [reaches_nil_iff.mp h]
  | append_singleton earlier last ih =>
    obtain ⟨before, hrun, hlast⟩ := reaches_snoc_iff.mp h
    have hcap := (reaches_cap hrun).1
    have hlen := ih ((List.prefix_append earlier [last]).trans hpre) hrun
    rw [← hcap] at hlen ⊢
    exact (inserted_len_iff hlen).mpr (hfits earlier last hpre before hrun) m' hlast

/-- From an empty map, every map of a run is at most one over the cap, in every order of visiting the
entries, exactly when every insertion has room, meets its own key, or is newer than some entry held. -/
theorem stays_bounded_iff (cap : Nat) (touched : ν → Int) (ops : List (Insertion κ ν)) :
    (new cap touched : CappedMap κ ν).StaysBounded ops ↔
      (new cap touched : CappedMap κ ν).EachFits ops := by
  have hstart : (new cap touched : CappedMap κ ν).len ≤
      (new cap touched : CappedMap κ ν).cap + 1 := Nat.zero_le _
  constructor
  · intro hbounded pre op hpre m hrun
    have hcap := (reaches_cap hrun).1
    have hlen := reaches_len_of_bounded hstart hbounded
      ((List.prefix_append pre [op]).trans hpre) hrun
    rw [← hcap] at hlen
    refine (inserted_len_iff hlen).mp fun after hlast => ?_
    rw [hcap]
    exact (hbounded pre op hpre m after hrun hlast).1
  · intro hfits pre op hpre m after hrun hlast
    exact ⟨reaches_len_of_fits hstart hfits hpre (.snoc hrun hlast), inserted_get hlast⟩

/-- Three sessions, each touched before the last. -/
def declining : List (Insertion Nat Int) :=
  [.insert 1 30, .insert 2 20, .insert 3 10]

/-- A map with a cap of one holds all three. -/
theorem declining_unbounded :
    ¬(new 1 fun touched => touched : CappedMap Nat Int).StaysBounded declining := by
  intro hbounded
  have hstart : (new 1 fun touched => touched : CappedMap Nat Int).Reaches []
      (new 1 fun touched => touched) := .nil
  have hfirst := hstart.snoc (inserted_listed _ (.insert 1 30))
  have hsecond := hfirst.snoc (inserted_listed _ (.insert 2 20))
  have hlen := (hbounded [.insert 1 30, .insert 2 20] (.insert 3 10) (List.prefix_refl declining) _ _
    hsecond (inserted_listed _ _)).1
  exact absurd hlen (by decide)

/-- A run of new keys, each touched before every earlier one, loses none of them. -/
theorem older_pile_up (cap : Nat) (touched : ν → Int)
    (holder : ops.Pairwise fun a b =>
      a.key ≠ b.key ∧ touched (b.value none) < touched (a.value none))
    (h : (new cap touched : CappedMap κ ν).Reaches ops m') :
    m'.len = ops.length ∧
      ∀ k v, m'.get k = some v → ∃ op ∈ ops, k = op.key ∧ v = op.value none := by
  induction ops using List.reverseRecOn generalizing m' with
  | nil =>
    rw [reaches_nil_iff.mp h]
    refine ⟨rfl, fun k v hget => ?_⟩
    rw [get, new, AList.lookup_empty] at hget
    cases hget
  | append_singleton ops op ih =>
    obtain ⟨before, hrun, hlast⟩ := reaches_snoc_iff.mp h
    obtain ⟨holder, -, hop⟩ := List.pairwise_append.mp holder
    obtain ⟨hlen, hheld⟩ := ih holder hrun
    have htouched : before.touched = touched := (reaches_cap hrun).2
    have hearlier : ∀ k v, before.get k = some v →
        k ≠ op.key ∧ before.touched (op.value none) < before.touched v := by
      intro k v hget
      obtain ⟨earlier, hmem, rfl, rfl⟩ := hheld k v hget
      rw [htouched]
      exact hop earlier hmem op (List.mem_singleton_self op)
    have hnew : before.get op.key = none := by
      cases hget : before.get op.key with
      | none => rfl
      | some v => exact absurd rfl (hearlier op.key v hget).1
    obtain ⟨hone, hafter⟩ := inserted_older hlast hnew fun k v hget => (hearlier k v hget).2
    refine ⟨by rw [hone, hlen, List.length_append, List.length_singleton], fun k v hget => ?_⟩
    rcases hafter k v hget with ⟨rfl, rfl⟩ | hold
    · exact ⟨op, List.mem_append_right _ (List.mem_singleton_self op), rfl, rfl⟩
    · obtain ⟨earlier, hmem, hkv⟩ := hheld k v hold
      exact ⟨earlier, List.mem_append_left _ hmem, hkv⟩

end Run

end CappedMap

/-! ## The divert ledger -/

namespace Manager

/-- The write of the ledger by a divert whose destination the mask can hold. -/
def divertInsertion (kept : Kept) (key : Key) (dest : Nat) : Insertion Key DivertEpisode :=
  .entry key fun prior => divertEpisode prior kept.pin kept.untilMs dest

variable {m : Manager}

theorem record_divert_inserted (key : Key) (kept : Kept) {dest : Nat} (hdest : dest % 2 ^ 32 < 64) :
    m.divertLedger.Inserted (divertInsertion kept key dest)
      (m.recordDivert key kept dest).divertLedger := by
  have hrecord : (m.recordDivert key kept dest).divertLedger = m.divertLedger.insert key
      (divertEpisode (m.divertLedger.get key) kept.pin kept.untilMs dest) := by
    rw [recordDivert, if_neg (not_le.mpr hdest)]
  rw [hrecord]
  exact CappedMap.inserted_listed m.divertLedger (divertInsertion kept key dest)

theorem record_diverts_reach {dest : Nat} (hdest : dest % 2 ^ 32 < 64)
    (diverts : List (Key × Kept)) :
    m.divertLedger.Reaches (diverts.map fun d => divertInsertion d.2 d.1 dest)
      (diverts.foldl (fun m d => m.recordDivert d.1 d.2 dest) m).divertLedger := by
  induction diverts using List.reverseRecOn with
  | nil => exact .nil
  | append_singleton diverts d ih =>
    rw [List.map_append, List.foldl_append]
    exact ih.snoc (record_divert_inserted d.1 d.2 hdest)

/-- Sessions diverted under ever earlier deadlines all stay in the ledger, however many they are. -/
theorem divert_ledger_piles_up (config : Config) {dest : Nat} (hdest : dest % 2 ^ 32 < 64)
    (diverts : List (Key × Kept))
    (hearlier : diverts.Pairwise fun a b => a.1 ≠ b.1 ∧ b.2.untilMs < a.2.untilMs) :
    (diverts.foldl (fun m d => m.recordDivert d.1 d.2 dest) (Manager.new config)).divertLedger.len =
      diverts.length := by
  have hreach : (Manager.new config).divertLedger.Reaches _ _ := record_diverts_reach hdest diverts
  have holder : (diverts.map fun d => divertInsertion d.2 d.1 dest).Pairwise fun a b =>
      a.key ≠ b.key ∧ (b.value none).untilMs < (a.value none).untilMs :=
    List.pairwise_map.mpr hearlier
  have hlen := (CappedMap.older_pile_up divertLedgerCap DivertEpisode.untilMs holder hreach).1
  rw [hlen, List.length_map]

end Manager

end TeamClaude
