import TeamClaude.Lib.Exec
import TeamClaude.Manager.Identity
import TeamClaude.Usage.Tracker

/-!
# Whose line is it

A ledger line carries the identity of the account that served it, as it was written. A replay resolves
the line against the fleet of a later day, whose rows may have been renamed, filled in, reordered or
removed since.
-/

namespace TeamClaude

open Lib

structure LedgerAccount where
  name : String
  uuid : Option String := none
  org : Option String := none
  orgName : Option String := none
  provider : Provider := .anthropic
  deriving DecidableEq

/-- The account of a row, as `attach_usage_ledger` takes it. -/
def LedgerAccount.ofRow (a : AccountRuntime) : LedgerAccount where
  name := a.name
  uuid := uuidKey a.probe
  org := orgKey a.probe
  orgName := presentKey a.orgName
  provider := a.provider

/-- `LedgerLine`, before it is written. -/
structure UsageLine where
  t : Int
  a : String
  u : Option String
  g : Option String
  p : Option String
  m : Option String
  s : Option UInt64
  i : UInt64
  c5 : UInt64
  c1 : UInt64
  r : UInt64
  o : UInt64
  rt : UInt64
  deriving DecidableEq

def UsageRecord.line (record : UsageRecord) (accountName : String)
    (accountUuid accountOrg : Option String) : UsageLine where
  t := record.tsMs
  a := accountName
  u := accountUuid
  g := accountOrg
  p :=
    match record.provider with
    | .anthropic => none
    | .codex => some "codex"
  m := record.model
  s := record.session
  i := record.input
  c5 := record.cache5m
  c1 := record.cache1h
  r := record.cacheRead
  o := record.output
  rt := record.reasoning

def AccountRuntime.usageLine (a : AccountRuntime) (record : UsageRecord) : UsageLine :=
  { record with provider := a.provider : UsageRecord }.line a.name (uuidKey a.probe) (orgKey a.probe)

def namesOrg (account : LedgerAccount) (org : Option String) : Bool :=
  org.any fun org => decide (account.org = some org) || decide (account.orgName = some org)

/-- The one candidate. -/
def only : List (LedgerAccount × Nat) → Option Nat
  | [candidate] => some candidate.2
  | _ => none

def resolveAccount (accounts : List LedgerAccount) (line : UsageLine) : Option Nat :=
  match line.u with
  | some uuid =>
    let samePerson := accounts.zipIdx.filter fun e => decide (e.1.uuid = some uuid)
    match line.g with
    | some org => only (samePerson.filter fun e => namesOrg e.1 (some org))
    | none => only samePerson
  | none =>
    if line.g.isSome then
      only (accounts.zipIdx.filter fun e => decide (e.1.name = line.a) && namesOrg e.1 line.g)
    else only (accounts.zipIdx.filter fun e => decide (e.1.name = line.a))

def UsageLine.record (line : UsageLine) (provider : Provider) : UsageRecord where
  tsMs := line.t
  model := line.m
  session := line.s
  quotaInput := line.i + line.c5 + line.c1 + line.r
  input := line.i
  cache5m := line.c5
  cache1h := line.c1
  cacheRead := line.r
  output := line.o
  provider := provider
  reasoning := line.rt

structure ReplayState where
  tracker : UsageTracker
  replayed : Nat := 0
  unresolved : Nat := 0

/-- `replay_day`, of the lines of the day. -/
def replayDay {Price : Type*} (lookup : String → Option Price)
    (costNanos : Price → UInt64 → UInt64 → UInt64 → UInt64 → UInt64 → UInt64) (offset : Int)
    (accounts : List LedgerAccount) (lines : List UsageLine) (s : ReplayState) : ReplayState :=
  lines.foldl (fun s line =>
    match resolveAccount accounts line with
    | none => { s with unresolved := s.unresolved + 1 }
    | some idx =>
      let provider := ((accounts[idx]?).map LedgerAccount.provider).getD .anthropic
      { s with
        tracker := recordInMemory lookup costNanos offset s.tracker idx (line.record provider)
        replayed := s.replayed + 1 }) s

/-- The records a replay finds an account for, each with the account's index. -/
def resolvedRecords (accounts : List LedgerAccount) (lines : List UsageLine) :
    List (Nat × UsageRecord) :=
  lines.filterMap fun line => (resolveAccount accounts line).map fun idx =>
    (idx, line.record (((accounts[idx]?).map LedgerAccount.provider).getD .anthropic))

/-- A replay records what it finds an account for, in order, and counts the other lines. -/
theorem replay_day_run {Price : Type*} (lookup : String → Option Price)
    (costNanos : Price → UInt64 → UInt64 → UInt64 → UInt64 → UInt64 → UInt64) (offset : Int)
    (accounts : List LedgerAccount) (lines : List UsageLine) (s : ReplayState) :
    (replayDay lookup costNanos offset accounts lines s).tracker =
        (resolvedRecords accounts lines).foldl (fun tracker e =>
          recordInMemory lookup costNanos offset tracker e.1 e.2) s.tracker ∧
      (replayDay lookup costNanos offset accounts lines s).replayed =
        s.replayed + (resolvedRecords accounts lines).length ∧
      (replayDay lookup costNanos offset accounts lines s).replayed +
        (replayDay lookup costNanos offset accounts lines s).unresolved =
          s.replayed + s.unresolved + lines.length := by
  induction lines generalizing s with
  | nil => exact ⟨rfl, rfl, rfl⟩
  | cons line lines ih =>
    simp only [replayDay, List.foldl_cons, resolvedRecords, List.filterMap_cons] at ih ⊢
    cases hresolve : resolveAccount accounts line with
    | none =>
      obtain ⟨htracker, hreplayed, hcount⟩ := ih { s with unresolved := s.unresolved + 1 }
      refine ⟨htracker, hreplayed, ?_⟩
      dsimp only at hcount ⊢
      rw [hcount, List.length_cons]
      omega
    | some idx =>
      obtain ⟨htracker, hreplayed, hcount⟩ := ih
        { s with
          tracker := recordInMemory lookup costNanos offset s.tracker idx
            (line.record (((accounts[idx]?).map LedgerAccount.provider).getD .anthropic))
          replayed := s.replayed + 1 }
      refine ⟨htracker, ?_, ?_⟩
      · dsimp only [Option.map_some] at hreplayed ⊢
        rw [hreplayed, List.length_cons]
        omega
      · dsimp only at hcount ⊢
        rw [hcount, List.length_cons]
        omega

/-! ## Who answers to a line -/

/-- The account has the uuid of the line, and its organisation if the line names one. -/
def LedgerAccount.answers (account : LedgerAccount) (line : UsageLine) : Bool :=
  decide (account.uuid = line.u) && (line.g.isNone || namesOrg account line.g)

theorem resolve_by_uuid {accounts : List LedgerAccount} {line : UsageLine} (h : line.u.isSome) :
    resolveAccount accounts line = only (accounts.zipIdx.filter fun e => e.1.answers line) := by
  obtain ⟨uuid, hu⟩ := Option.isSome_iff_exists.mp h
  unfold resolveAccount LedgerAccount.answers
  rw [hu]
  cases line.g with
  | none => simp
  | some org =>
    simp only [List.filter_filter, Option.isNone_some, Bool.false_or]
    exact congrArg only (List.filter_congr fun e _ => Bool.and_comm _ _)

theorem only_some {candidates : List (LedgerAccount × Nat)} {idx : Nat}
    (h : only candidates = some idx) : ∃ account, candidates = [(account, idx)] := by
  match candidates, h with
  | [(account, i)], h =>
    obtain rfl : i = idx := Option.some.inj h
    exact ⟨account, rfl⟩

/-- A line with a uuid resolves to the account that alone answers to it. -/
theorem resolve_account_some {accounts : List LedgerAccount} {line : UsageLine} {idx : Nat}
    (hu : line.u.isSome) : resolveAccount accounts line = some idx ↔
      ∃ account, accounts.zipIdx.filter (fun e => e.1.answers line) = [(account, idx)] := by
  rw [resolve_by_uuid hu]
  constructor
  · exact only_some
  · rintro ⟨account, h⟩
    rw [h]
    rfl

/-! ## The fleet over time -/

structure FleetRow (ι : Type*) where
  account : ι
  row : AccountRuntime

inductive FleetEdit (ι : Type*)
  | add (account : ι) (row : AccountRuntime)
  | rename (idx : Nat) (name : String)
  | backfillOrg (idx : Nat) (orgUuid orgName : Option String)
  | reorder (order : List Nat)
  | remove (idx : Nat)

variable {ι : Type*}

/-- Unknown organisation fields filled in. -/
def AccountRuntime.backfillOrg (a : AccountRuntime) (orgUuid orgName : Option String) :
    AccountRuntime :=
  { a with orgUuid := a.orgUuid.or orgUuid, orgName := a.orgName.or orgName }

def applyEdit (fleet : List (FleetRow ι)) : FleetEdit ι → List (FleetRow ι)
  | .add account row => fleet ++ [⟨account, row⟩]
  | .rename idx name => fleet.modify idx fun r => { r with row := { r.row with name } }
  | .backfillOrg idx orgUuid orgName =>
    fleet.modify idx fun r => { r with row := r.row.backfillOrg orgUuid orgName }
  | .reorder order =>
    if order.Perm (List.range fleet.length) then order.filterMap fun i => fleet[i]? else fleet
  | .remove idx => fleet.eraseIdx idx

/-- The edit removes no row of the account. -/
def Spares (account : ι) (fleet : List (FleetRow ι)) (edit : FleetEdit ι) : Prop :=
  ∀ idx r, edit = .remove idx → fleet[idx]? = some r → r.account ≠ account

/-- No two live rows have one uuid and one organisation. -/
def Distinguished (fleet : List (FleetRow ι)) : Prop :=
  fleet.Pairwise fun a b => (uuidKey a.row.probe).isSome →
    ¬(uuidKey a.row.probe = uuidKey b.row.probe ∧ orgKey a.row.probe = orgKey b.row.probe)

instance (fleet : List (FleetRow ι)) : Decidable (Distinguished fleet) :=
  inferInstanceAs (Decidable (fleet.Pairwise _))

def FleetRow.answers (r : FleetRow ι) (line : UsageLine) : Bool :=
  (LedgerAccount.ofRow r.row).answers line

variable {a : AccountRuntime} {record : UsageRecord} {line : UsageLine} {account : ι}
  {fleet : List (FleetRow ι)} {edit : FleetEdit ι}

theorem answers_own : (LedgerAccount.ofRow a).answers (a.usageLine record) = true := by
  have hg : (a.usageLine record).g = (LedgerAccount.ofRow a).org := rfl
  have hu : (a.usageLine record).u = (LedgerAccount.ofRow a).uuid := rfl
  rw [LedgerAccount.answers, hg, hu, decide_eq_true rfl, Bool.true_and]
  cases horg : (LedgerAccount.ofRow a).org with
  | none => rfl
  | some org => simp [namesOrg, horg]

theorem present_key_or {id filled : Option String} {k : String} (h : presentKey id = some k) :
    presentKey (id.or filled) = some k := by
  obtain ⟨rfl, -⟩ := present_key_some.mp h
  exact h

/-- A row answers to the id of its organisation and to the name. -/
theorem names_org_iff {k : String} : namesOrg (.ofRow a) (some k) = true ↔
    presentKey a.orgUuid = some k ∨ presentKey a.orgName = some k := by
  have horg : (LedgerAccount.ofRow a).org = (presentKey a.orgUuid).or (presentKey a.orgName) := rfl
  have hname : (LedgerAccount.ofRow a).orgName = presentKey a.orgName := rfl
  rw [namesOrg, horg, hname]
  generalize presentKey a.orgUuid = orgUuid
  generalize presentKey a.orgName = orgName
  cases orgUuid <;> cases orgName <;> simp

/-- A row that is filled in still answers to what it answered to. -/
theorem answers_backfill {orgUuid orgName : Option String}
    (h : (LedgerAccount.ofRow a).answers line = true) :
    (LedgerAccount.ofRow (a.backfillOrg orgUuid orgName)).answers line = true := by
  rw [LedgerAccount.answers, Bool.and_eq_true, Bool.or_eq_true] at h ⊢
  refine ⟨h.1, h.2.imp id fun hnames => ?_⟩
  cases hg : line.g with
  | none =>
    rw [hg] at hnames
    cases hnames
  | some k =>
    rw [hg] at hnames
    exact names_org_iff.mpr ((names_org_iff.mp hnames).imp present_key_or present_key_or)

/-- An edit that spares the account leaves it a row that answers, if it had one. -/
theorem answering_edit (hspares : Spares account fleet edit)
    (h : ∃ r ∈ fleet, r.account = account ∧ r.answers line = true) :
    ∃ r ∈ applyEdit fleet edit, r.account = account ∧ r.answers line = true := by
  obtain ⟨r, hr, haccount, hanswers⟩ := h
  obtain ⟨i, hi⟩ := List.getElem?_of_mem hr
  -- a row edited in place keeps its account and answers as before
  have hmodify : ∀ (idx : Nat) (f : FleetRow ι → FleetRow ι), (f r).account = account →
      (f r).answers line = true →
        ∃ r ∈ fleet.modify idx f, r.account = account ∧ r.answers line = true := by
    intro idx f hf hfanswers
    have hget : (fleet.modify idx f)[i]? = some (if idx = i then f r else r) := by
      rw [List.getElem?_modify, hi]
      by_cases heq : idx = i <;> simp [heq]
    refine ⟨_, List.mem_of_getElem? hget, ?_, ?_⟩
    · split_ifs
      · exact hf
      · exact haccount
    · split_ifs
      · exact hfanswers
      · exact hanswers
  cases edit with
  | add other row => exact ⟨r, List.mem_append_left _ hr, haccount, hanswers⟩
  | rename idx name => exact hmodify idx _ haccount hanswers
  | backfillOrg idx orgUuid orgName => exact hmodify idx _ haccount (answers_backfill hanswers)
  | reorder order =>
    by_cases hperm : order.Perm (List.range fleet.length)
    · simp only [applyEdit, if_pos hperm]
      refine ⟨r, List.mem_filterMap.mpr ⟨i, ?_, hi⟩, haccount, hanswers⟩
      rw [hperm.mem_iff, List.mem_range]
      exact (List.getElem?_eq_some_iff.mp hi).1
    · simp only [applyEdit, if_neg hperm]
      exact ⟨r, hr, haccount, hanswers⟩
  | remove idx =>
    have hne : i ≠ idx := by
      rintro rfl
      exact hspares i r rfl hi haccount
    refine ⟨r, List.mem_eraseIdx_iff_getElem?.mpr ⟨i, hne, hi⟩, haccount, hanswers⟩

theorem answering_run {edits : List (FleetEdit ι)}
    (hspares : EachStep applyEdit (Spares account) fleet edits)
    (h : ∃ r ∈ fleet, r.account = account ∧ r.answers line = true) :
    ∃ r ∈ exec applyEdit fleet edits, r.account = account ∧ r.answers line = true :=
  exec_invariant (I := fun fleet => ∃ r ∈ fleet, r.account = account ∧ r.answers line = true)
    (fun _ _ hbefore hedit => answering_edit hedit hbefore) h hspares edits (List.prefix_refl edits)

/-! ## Never a neighbour -/

/-- The fleet, as a replay is handed it. -/
def ledgerAccounts (fleet : List (FleetRow ι)) : List LedgerAccount :=
  fleet.map fun r => .ofRow r.row

def ResolvesTo (account : ι) (fleet : List (FleetRow ι)) (line : UsageLine) : Prop :=
  ∀ idx, resolveAccount (ledgerAccounts fleet) line = some idx →
    ∃ r, fleet[idx]? = some r ∧ r.account = account

theorem answering_rows (fleet : List (FleetRow ι)) (line : UsageLine) :
    (ledgerAccounts fleet).zipIdx.filter (fun e => e.1.answers line) =
      (fleet.zipIdx.filter fun e => e.1.answers line).map fun e => (.ofRow e.1.row, e.2) := by
  rw [ledgerAccounts, List.zipIdx_map, List.filter_map]
  rfl

theorem length_answering (fleet : List (FleetRow ι)) (line : UsageLine) :
    (fleet.zipIdx.filter fun e => e.1.answers line).length =
      (fleet.filter fun r => r.answers line).length := by
  have hrows : (fleet.filter fun r => r.answers line) =
      (fleet.zipIdx.filter fun e => e.1.answers line).map Prod.fst := by
    conv_lhs => rw [← List.zipIdx_map_fst 0 fleet]
    rw [List.filter_map]
    rfl
  rw [hrows, List.length_map]

/-- A line is never billed to another account exactly when a live row of its account answers to it or
the live rows that answer are not just one. -/
theorem resolves_to_iff (hu : line.u.isSome) : ResolvesTo account fleet line ↔
    (∃ r ∈ fleet, r.account = account ∧ r.answers line = true) ∨
      (fleet.filter fun r => r.answers line).length ≠ 1 := by
  constructor
  · intro h
    by_cases hone : (fleet.filter fun r => r.answers line).length = 1
    · left
      rw [← length_answering] at hone
      obtain ⟨⟨r, idx⟩, hr⟩ := List.length_eq_one_iff.mp hone
      have hresolve : resolveAccount (ledgerAccounts fleet) line = some idx := by
        rw [resolve_account_some hu, answering_rows, hr]
        exact ⟨_, rfl⟩
      obtain ⟨r', hr', haccount⟩ := h idx hresolve
      have hmem : (r, idx) ∈ fleet.zipIdx.filter fun e => e.1.answers line := by
        rw [hr]
        exact List.mem_singleton_self _
      obtain ⟨hin, hanswers⟩ := List.mem_filter.mp hmem
      have hsame : r' = r := by
        have hget := List.mem_zipIdx_iff_getElem?.mp hin
        exact Option.some.inj (hr'.symm.trans hget)
      subst hsame
      exact ⟨r', List.mem_of_getElem? hr', haccount, hanswers⟩
    · exact Or.inr hone
  · rintro h idx hresolve
    rw [resolve_account_some hu, answering_rows] at hresolve
    obtain ⟨found, hfound⟩ := hresolve
    obtain ⟨⟨r, i⟩, hr, hi⟩ := List.map_eq_singleton_iff.mp hfound
    obtain rfl : i = idx := congrArg Prod.snd hi
    have hone : (fleet.filter fun r => r.answers line).length = 1 := by
      rw [← length_answering, hr]
      rfl
    obtain ⟨r', hr', haccount, hanswers⟩ := h.resolve_right (not_not.mpr hone)
    obtain ⟨j, hj⟩ := List.getElem?_of_mem hr'
    have hmem : (r', j) ∈ fleet.zipIdx.filter fun e => e.1.answers line :=
      List.mem_filter.mpr ⟨List.mem_zipIdx_iff_getElem?.mpr hj, hanswers⟩
    rw [hr, List.mem_singleton] at hmem
    obtain rfl : j = i := congrArg Prod.snd hmem
    exact ⟨r', hj, haccount⟩

/-- For every later fleet, a line of an account that had a uuid resolves to that account or to none if
and only if the account has not been removed, or is live again as a row that answers to the line, or
the live rows that answer are not just one. -/
theorem replay_bills_the_writer {written : List (FleetRow ι)} {edits : List (FleetEdit ι)} {idx : Nat}
    {writer : FleetRow ι} (record : UsageRecord) (hwriter : written[idx]? = some writer)
    (huuid : (uuidKey writer.row.probe).isSome) :
    ResolvesTo writer.account (exec applyEdit written edits) (writer.row.usageLine record) ↔
      EachStep applyEdit (Spares writer.account) written edits ∨
        (∃ r ∈ exec applyEdit written edits,
          r.account = writer.account ∧ r.answers (writer.row.usageLine record) = true) ∨
        ((exec applyEdit written edits).filter fun r =>
          r.answers (writer.row.usageLine record)).length ≠ 1 := by
  rw [resolves_to_iff huuid]
  refine ⟨Or.inr, ?_⟩
  rintro (hspares | h)
  · exact Or.inl (answering_run hspares ⟨writer, List.mem_of_getElem? hwriter, rfl, answers_own⟩)
  · exact h

/-- A row before its organisation was known, and the row of another organisation of the person. -/
def firstLogin : FleetRow Nat where
  account := 0
  row := { name := "a@x", provider := .anthropic, accountUuid := some "acct-1" }

def secondOrg : FleetRow Nat where
  account := 1
  row :=
    { name := "a@x/Home"
      provider := .anthropic
      accountUuid := some "acct-1"
      orgUuid := some "org-2"
      orgName := some "Home" }

/-- A line of a row that is renamed and moved resolves to it. -/
theorem replay_bills_the_writer_moved :
    ResolvesTo firstLogin.account
      (exec applyEdit [firstLogin, secondOrg] [.rename 0 "b@x", .reorder [1, 0]])
      (firstLogin.row.usageLine { tsMs := 0, model := none }) := by
  have huuid : (uuidKey firstLogin.row.probe).isSome := by decide +kernel
  have hfirst : [firstLogin, secondOrg][0]? = some firstLogin := rfl
  refine (replay_bills_the_writer { tsMs := 0, model := none } hfirst huuid).mpr (Or.inl ?_)
  refine each_step_cons.mpr ⟨?_, each_step_cons.mpr ⟨?_, each_step_nil⟩⟩
  · intro idx r hremove
    cases hremove
  · intro idx r hremove
    cases hremove

/-- The organisation becomes known, the second one is added, and the first is removed. -/
def orgLeaves : List (FleetEdit Nat) :=
  [.backfillOrg 0 (some "org-1") (some "Acme"), .add 1 secondOrg.row, .remove 0]

theorem replay_bills_a_sibling :
    (∀ k < 4, Distinguished (exec applyEdit [firstLogin] (orgLeaves.take k))) ∧
      ¬ResolvesTo 0 (exec applyEdit [firstLogin] orgLeaves)
        (firstLogin.row.usageLine { tsMs := 0, model := none }) := by
  refine ⟨by decide +kernel, fun h => ?_⟩
  obtain ⟨r, hr, haccount⟩ := h 0 (by decide +kernel)
  have hsibling : ((exec applyEdit [firstLogin] orgLeaves)[0]?).map FleetRow.account = some 1 := rfl
  rw [hr, Option.map_some, haccount] at hsibling
  cases hsibling

end TeamClaude
