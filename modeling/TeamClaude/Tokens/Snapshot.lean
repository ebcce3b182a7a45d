import TeamClaude.Lib.Fallible
import TeamClaude.Lib.FirstSeen
import TeamClaude.Lib.KeepNewest
import TeamClaude.Manager.PinFile
import TeamClaude.Tokens.Store

/-!
# The bound-token file

What a flush makes of the bound-token map and what the next boot reads back. The map is iterated in
no fixed order, so that a snapshot of one map is built in any order: its account table is renumbered
in the order of the tokens' hashes before it is written.
-/

namespace TeamClaude.BoundTokens

open Lib Lib.Json

def formatVersion : UInt32 := 2

/-- One account identity, written once and referenced by slot. -/
structure StoredAccount where
  name : String
  accountUuid : Option String
  orgUuid : Option String
  orgName : Option String
  provider : Provider
  deriving DecidableEq

namespace StoredAccount

def of (account : AccountRuntime) : StoredAccount where
  name := account.name
  accountUuid := account.accountUuid
  orgUuid := account.orgUuid
  orgName := account.orgName
  provider := account.provider

/-- The identity the record resolves through. -/
def probe (a : StoredAccount) : Account :=
  TeamClaude.probe a.provider
    { name := a.name
      accountUuid := a.accountUuid
      orgUuid := a.orgUuid
      orgName := a.orgName }

def toJson (a : StoredAccount) : Value :=
  .object ([("name", .string a.name)] ++
    optionalField "accountUuid" (a.accountUuid.map .string) ++
    optionalField "orgUuid" (a.orgUuid.map .string) ++
    optionalField "orgName" (a.orgName.map .string) ++
    optionalField "provider" a.provider.spelling)

def ofJson (v : Value) : Option StoredAccount := do
  let stored ← DiskIdentity.ofEntry v
  let provider ← providerOfEntry v
  return {
    name := stored.name
    accountUuid := stored.accountUuid
    orgUuid := stored.orgUuid
    orgName := stored.orgName
    provider }

/-- The fields of a written account, one place after the other. -/
theorem get_to_json (a : StoredAccount) (key : String) : a.toJson.get key =
    (((((Value.object [("name", .string a.name)]).get key).or
    (if "accountUuid" = key then a.accountUuid.map .string else none)).or
    (if "orgUuid" = key then a.orgUuid.map .string else none)).or
    (if "orgName" = key then a.orgName.map .string else none)).or
    (if "provider" = key then a.provider.spelling else none) := by
  unfold toJson
  simp only [get_append, get_optional_field]

theorem of_json_to_json (a : StoredAccount) : ofJson a.toJson = some a := by
  have hstored : DiskIdentity.ofEntry a.toJson =
      some ⟨a.name, a.accountUuid, a.orgUuid, a.orgName⟩ := by
    refine disk_identity_of_get ?_ ?_ ?_ ?_ <;> rw [get_to_json] <;> simp [Value.get]
  have hprovider : providerOfEntry a.toJson = some a.provider := by
    refine provider_of_get ?_
    rw [get_to_json]
    simp [Value.get]
  unfold ofJson
  rw [hstored, hprovider]
  rfl

end StoredAccount

/-- The word a kind is written as. -/
def spelling : BoundTokenKind → String
  | .serverToolUse => "tool"
  | .thinkingSignature => "sig"
  | .redactedThinking => "redacted"
  | .messageId => "msg"

/-- A unit variant is spelled as a string, or as an object of that one key holding `null`. -/
def kindOf (v : Value) : Option BoundTokenKind :=
  let named := fun name : String =>
    if name = "tool" then some BoundTokenKind.serverToolUse
    else if name = "sig" then some BoundTokenKind.thinkingSignature
    else if name = "redacted" then some BoundTokenKind.redactedThinking
    else if name = "msg" then some BoundTokenKind.messageId
    else none
  match v with
  | .string name => named name
  | .object [(name, .null)] => named name
  | _ => none

/-- One persisted token: its hash, its kind, the slot of the account that minted it, and when. -/
structure StoredBoundToken where
  hash : String
  kind : BoundTokenKind
  account : Nat
  ms : Int64
  deriving DecidableEq

namespace StoredBoundToken

def toJson (t : StoredBoundToken) : Value :=
  .object [("hash", .string t.hash), ("kind", .string (spelling t.kind)),
    ("account", .number (.posInt (UInt64.ofNat t.account))), ("ms", .ofI64 t.ms)]

def ofJson (v : Value) : Option StoredBoundToken := do
  let hash ← v.str "hash"
  let kind ← (v.get "kind").bind kindOf
  let account ← v.u64 "account"
  let ms ← (v.get "ms").bind Value.toI64
  return { hash, kind, account := account.toNat, ms }

theorem of_json_to_json {t : StoredBoundToken} (h : t.account < 2 ^ 64) :
    ofJson t.toJson = some t := by
  obtain ⟨hash, kind, account, ms⟩ := t
  have hi := Value.to_i64_of_i64 ms
  have hslot : account % 18446744073709551616 = account := Nat.mod_eq_of_lt h
  cases kind <;>
    simp [ofJson, toJson, spelling, kindOf, Value.str, Value.u64, Value.get, Value.asStr,
      Value.asU64, hi, hslot]

end StoredBoundToken

structure BoundTokenFile where
  version : UInt32
  savedAtMs : Int64
  accounts : List StoredAccount
  tokens : List StoredBoundToken

namespace BoundTokenFile

def toJson (file : BoundTokenFile) : Value :=
  .object [("version", .number (.posInt file.version.toUInt64)),
    ("savedAtMs", .ofI64 file.savedAtMs), ("accounts", .array (file.accounts.map StoredAccount.toJson)),
    ("tokens", .array (file.tokens.map StoredBoundToken.toJson))]

def ofJson (v : Value) : Option BoundTokenFile := do
  let version ← PinFile.versionOf v
  let savedAtMs ← (v.get "savedAtMs").bind Value.toI64
  let accounts ← (v.get "accounts").bind Value.asArray
  let accounts ← accounts.mapM StoredAccount.ofJson
  let tokens ← (v.get "tokens").bind Value.asArray
  let tokens ← tokens.mapM StoredBoundToken.ofJson
  return { version, savedAtMs, accounts, tokens }

theorem version_of_to_json (file : BoundTokenFile) :
    PinFile.versionOf file.toJson = some file.version := by
  have hlt := file.version.toNat_lt
  simp [PinFile.versionOf, toJson, Value.u64, Value.get, Value.asU64, hlt]

theorem of_json_to_json {file : BoundTokenFile} (h : ∀ t ∈ file.tokens, t.account < 2 ^ 64) :
    ofJson file.toJson = some file := by
  have hsaved : (file.toJson.get "savedAtMs").bind Value.toI64 = some file.savedAtMs := by
    simp [toJson, Value.get, Value.to_i64_of_i64]
  have haccounts : (file.toJson.get "accounts").bind Value.asArray =
      some (file.accounts.map StoredAccount.toJson) := by
    simp [toJson, Value.get, Value.asArray]
  have htokens : (file.toJson.get "tokens").bind Value.asArray =
      some (file.tokens.map StoredBoundToken.toJson) := by
    simp [toJson, Value.get, Value.asArray]
  have hreadAccounts := map_m_map fun a (_ : a ∈ file.accounts) => StoredAccount.of_json_to_json a
  have hreadTokens := map_m_map fun t ht => StoredBoundToken.of_json_to_json (h t ht)
  rw [ofJson, version_of_to_json, hsaved, haccounts, htokens]
  simp only [Option.bind_eq_bind, Option.bind_some, hreadAccounts, hreadTokens]
  rfl

end BoundTokenFile

/-! ## Snapshots -/

/-- Each minting account once, and every token naming its account by slot. -/
structure Snapshot where
  accounts : List StoredAccount := []
  tokens : List StoredBoundToken := []

namespace Snapshot

def accountSlot (s : Snapshot) (account : StoredAccount) : Nat × Snapshot :=
  match s.accounts.idxOf? account with
  | some slot => (slot, s)
  | none => (s.accounts.length, { s with accounts := s.accounts ++ [account] })

def push (s : Snapshot) (hash : String) (kind : BoundTokenKind) (slot : Nat) (ms : Int64) : Snapshot :=
  { s with tokens := s.tokens ++ [{ hash, kind, account := slot, ms }] }

theorem account_slot_eq (s : Snapshot) (account : StoredAccount) :
    s.accountSlot account = ((FirstSeen.enter s.accounts account).idxOf account,
      { s with accounts := FirstSeen.enter s.accounts account }) := by
  unfold accountSlot
  cases hfound : s.accounts.idxOf? account with
  | none =>
    have hnot := List.idxOf?_eq_none_iff.mp hfound
    rw [FirstSeen.idx_of_enter_self hnot, FirstSeen.enter_of_not_mem hnot]
  | some slot =>
    have hmem : account ∈ s.accounts := by
      rw [← List.isSome_idxOf?, hfound]
      rfl
    have hslot : s.accounts.idxOf account = slot := by
      rw [List.idxOf_eq_getD_idxOf?, hfound]
      rfl
    rw [FirstSeen.enter_of_mem hmem, hslot]

end Snapshot

/-- A token with the identity of its account. -/
structure MintRecord where
  hash : String
  kind : BoundTokenKind
  account : StoredAccount
  ms : Int64
  deriving DecidableEq

def MintRecord.stored (table : List StoredAccount) (r : MintRecord) : StoredBoundToken where
  hash := r.hash
  kind := r.kind
  account := table.idxOf r.account
  ms := r.ms

/-- One record: its account's slot is taken, then the token is pushed. -/
def Snapshot.add (s : Snapshot) (r : MintRecord) : Snapshot :=
  let (slot, s) := s.accountSlot r.account
  s.push r.hash r.kind slot r.ms

def build (records : List MintRecord) : Snapshot :=
  records.foldl Snapshot.add {}

section Build

variable {records : List MintRecord} {table : List StoredAccount} {tokens : List StoredBoundToken}

theorem stored_congr {table' : List StoredAccount} {r : MintRecord} (h : table <+: table')
    (hr : r.account ∈ table) : r.stored table' = r.stored table := by
  unfold MintRecord.stored
  rw [FirstSeen.idx_of_initial h hr]

theorem build_from (records : List MintRecord) (table : List StoredAccount)
    (tokens : List StoredBoundToken) :
    records.foldl Snapshot.add { accounts := table, tokens } =
      { accounts := FirstSeen.enterAll table (records.map MintRecord.account)
        tokens := tokens ++ records.map
          (MintRecord.stored (FirstSeen.enterAll table (records.map MintRecord.account))) } := by
  induction records generalizing table tokens with
  | nil => rw [List.map_nil, List.map_nil, List.append_nil, List.foldl_nil, FirstSeen.enter_all_nil]
  | cons r records ih =>
    have hself : r.account ∈ FirstSeen.enter table r.account :=
      FirstSeen.mem_enter.mpr (Or.inr rfl)
    have hstored := stored_congr
      (FirstSeen.prefix_enter_all (FirstSeen.enter table r.account) (records.map MintRecord.account))
      hself
    rw [List.foldl_cons, Snapshot.add, Snapshot.account_slot_eq, List.map_cons,
      FirstSeen.enter_all_cons, List.map_cons, hstored, List.append_cons]
    exact ih _ _

/-- The accounts stand in the order the records name them, the tokens in the records' order. -/
theorem build_eq (records : List MintRecord) :
    build records =
      { accounts := FirstSeen.enterAll [] (records.map MintRecord.account)
        tokens := records.map
          (MintRecord.stored (FirstSeen.enterAll [] (records.map MintRecord.account))) } :=
  build_from records [] []

end Build

structure LiveToken where
  hash : String
  index : Nat
  kind : BoundTokenKind
  ms : Int64

/-- The entry with the identity of its account in place of the index. -/
def LiveToken.record (accounts : List AccountRuntime) (t : LiveToken) : Option MintRecord :=
  accounts[t.index]?.map fun account =>
    { hash := t.hash
      kind := t.kind
      account := StoredAccount.of account
      ms := t.ms }

/-- One entry of the map: an account's slot is asked for once, and an entry whose index names no
account is skipped. -/
def snapshotEntry (accounts : List AccountRuntime) (s : Snapshot × List (Option Nat))
    (t : LiveToken) : Snapshot × List (Option Nat) :=
  match accounts[t.index]?, s.2[t.index]? with
  | some account, some cell =>
    match cell with
    | some slot => (s.1.push t.hash t.kind slot t.ms, s.2)
    | none =>
      let (slot, snapshot) := s.1.accountSlot (StoredAccount.of account)
      (snapshot.push t.hash t.kind slot t.ms, s.2.set t.index (some slot))
  | _, _ => s

def boundTokenSnapshot (accounts : List AccountRuntime) (entries : List LiveToken) : Snapshot :=
  (entries.foldl (snapshotEntry accounts) ({}, List.replicate accounts.length none)).1

structure SlotsHeld (accounts : List AccountRuntime) (s : Snapshot × List (Option Nat)) : Prop where
  length : s.2.length = accounts.length
  slot : ∀ (i slot : Nat) (account : AccountRuntime), s.2[i]? = some (some slot) →
    accounts[i]? = some account →
      StoredAccount.of account ∈ s.1.accounts ∧ s.1.accounts.idxOf (StoredAccount.of account) = slot

section Live

variable {accounts : List AccountRuntime} {s : Snapshot × List (Option Nat)} {t : LiveToken}

theorem snapshot_entry_add (h : SlotsHeld accounts s) :
    (snapshotEntry accounts s t).1 = (t.record accounts).elim s.1 s.1.add := by
  unfold snapshotEntry LiveToken.record
  cases ha : accounts[t.index]? with
  | none => rfl
  | some account =>
    cases hcell : s.2[t.index]? with
    | none =>
      have hlt := (List.getElem?_eq_some_iff.mp ha).1
      rw [List.getElem?_eq_none_iff, h.length] at hcell
      omega
    | some cell =>
      cases cell with
      | none => rfl
      | some slot =>
        obtain ⟨hmem, hslot⟩ := h.slot _ _ _ hcell ha
        show s.1.push t.hash t.kind slot t.ms = s.1.add _
        rw [Snapshot.add, Snapshot.account_slot_eq, FirstSeen.enter_of_mem hmem, hslot]

theorem snapshot_entry_held (h : SlotsHeld accounts s) :
    SlotsHeld accounts (snapshotEntry accounts s t) := by
  unfold snapshotEntry
  split
  · rename_i account cell ha hcell
    split
    · exact ⟨h.length, h.slot⟩
    · rw [Snapshot.account_slot_eq]
      refine ⟨by rw [List.length_set, h.length], fun i slot other hi hother => ?_⟩
      show _ ∈ FirstSeen.enter s.1.accounts (StoredAccount.of account) ∧
        (FirstSeen.enter s.1.accounts (StoredAccount.of account)).idxOf _ = slot
      rw [List.getElem?_set] at hi
      split at hi
      · rename_i hself
        subst hself
        rw [ha] at hother
        cases hother
        split at hi
        · cases hi
          exact ⟨FirstSeen.mem_enter.mpr (Or.inr rfl), rfl⟩
        · cases hi
      · obtain ⟨hmem, hslot⟩ := h.slot i slot other hi hother
        exact ⟨FirstSeen.mem_enter.mpr (Or.inl hmem), (FirstSeen.idx_of_enter hmem _).trans hslot⟩
  · exact h

theorem snapshot_from (h : SlotsHeld accounts s) (entries : List LiveToken) :
    (entries.foldl (snapshotEntry accounts) s).1 =
      (entries.filterMap (LiveToken.record accounts)).foldl Snapshot.add s.1 := by
  induction entries generalizing s with
  | nil => rfl
  | cons t entries ih =>
    rw [List.foldl_cons, ih (snapshot_entry_held h), snapshot_entry_add h, List.filterMap_cons]
    cases t.record accounts <;> rfl

/-- The snapshot of a live map is that of its entries' records, in the map's order. -/
theorem bound_token_snapshot_eq (accounts : List AccountRuntime) (entries : List LiveToken) :
    boundTokenSnapshot accounts entries =
      build (entries.filterMap (LiveToken.record accounts)) := by
  refine snapshot_from ⟨List.length_replicate, fun i slot account hi _ => ?_⟩ entries
  rw [List.getElem?_replicate] at hi
  split at hi <;> cases hi

end Live

/-! ## Preparing a write -/

/-- The order of `Reverse(ms)`. -/
def newerMint (a b : StoredBoundToken) : Bool :=
  decide (b.ms ≤ a.ms)

def byHash (a b : StoredBoundToken) : Bool :=
  decide (a.hash ≤ b.hash)

/-- The newest tokens the cap leaves room for, sorted by hash. -/
def keptTokens (tokens : List StoredBoundToken) : List StoredBoundToken :=
  let kept :=
    if boundTokenCap < tokens.length then (tokens.mergeSort newerMint).take boundTokenCap else tokens
  kept.mergeSort byHash

/-- The renumbering under way: the accounts still to place, where the others are placed, and the
table they are placed in. -/
structure Renumbering where
  unplaced : List (Option StoredAccount)
  placed : List (Option Nat)
  table : List StoredAccount

namespace Renumbering

/-- Nothing is placed yet. -/
def start (accounts : List StoredAccount) : Renumbering where
  unplaced := accounts.map some
  placed := List.replicate accounts.length none
  table := []

/-- One token gets its account's slot in the table, which its account enters on first sight. -/
def token (s : Renumbering) (t : StoredBoundToken) : Except String (Renumbering × StoredBoundToken) :=
  match s.placed[t.account]?.join with
  | some slot => .ok (s, { t with account := slot })
  | none =>
    match s.unplaced[t.account]?.join with
    | none =>
      .error ("bound-token snapshot names account slot " ++ toString t.account ++
        ", which it does not hold")
    | some account =>
      let slot := s.table.length
      .ok ({ unplaced := s.unplaced.set t.account none
             placed := s.placed.set t.account (some slot)
             table := s.table ++ [account] },
        { t with account := slot })

def tokens : Renumbering → List StoredBoundToken →
    Except String (Renumbering × List StoredBoundToken)
  | s, [] => .ok (s, [])
  | s, t :: rest =>
    match s.token t with
    | .error e => .error e
    | .ok (s, t) =>
      match s.tokens rest with
      | .error e => .error e
      | .ok (s, rest) => .ok (s, t :: rest)

/-- An account that the table does not hold is still to place. -/
def left (table : List StoredAccount) (a : StoredAccount) : Option StoredAccount :=
  if a ∈ table then none else some a

def slot (table : List StoredAccount) (a : StoredAccount) : Option Nat :=
  if a ∈ table then some (table.idxOf a) else none

/-- The renumbering of a snapshot's accounts once those of a table are placed. -/
def after (accounts table : List StoredAccount) : Renumbering where
  unplaced := accounts.map (left table)
  placed := accounts.map (slot table)
  table := table

end Renumbering

/-- What a save writes: the kept tokens in hash order and the account table they name. -/
structure Prepared where
  accounts : List StoredAccount
  tokens : List StoredBoundToken
  deriving DecidableEq

def prepare (snapshot : Snapshot) : Except String Prepared :=
  match (Renumbering.start snapshot.accounts).tokens (keptTokens snapshot.tokens) with
  | .error e => .error e
  | .ok (s, tokens) => .ok { accounts := s.table, tokens }

/-- The hash of everything the file holds but its stamp. -/
def Prepared.contentHash (digest : Value → UInt64) (p : Prepared) : UInt64 :=
  digest (.array [.array (p.accounts.map StoredAccount.toJson),
    .array (p.tokens.map StoredBoundToken.toJson)])

def Prepared.file (p : Prepared) (nowMs : Int64) : BoundTokenFile where
  version := formatVersion
  savedAtMs := nowMs
  accounts := p.accounts
  tokens := p.tokens

/-- `flush_bound_tokens`: the hash the next flush is compared by, what is written, and how many
tokens landed. -/
def flush (digest : Value → UInt64) (snapshot : Snapshot) (nowMs : Int64) :
    Except String (UInt64 × Value × Nat) :=
  match prepare snapshot with
  | .error e => .error e
  | .ok p => .ok (p.contentHash digest, (p.file nowMs).toJson, p.tokens.length)

section Prepare

variable {accounts table : List StoredAccount} {records : List MintRecord} {r : MintRecord}
  {a : StoredAccount}

theorem left_enter (table : List StoredAccount) (a : StoredAccount) :
    Renumbering.left (FirstSeen.enter table a) = Function.update (Renumbering.left table) a none := by
  funext b
  unfold Renumbering.left
  by_cases hb : b = a
  · subst hb
    rw [Function.update_self, if_pos (FirstSeen.mem_enter.mpr (Or.inr rfl))]
  · rw [Function.update_of_ne hb]
    simp only [FirstSeen.mem_enter, hb, or_false]

theorem slot_enter (h : a ∉ table) : Renumbering.slot (FirstSeen.enter table a) =
    Function.update (Renumbering.slot table) a (some table.length) := by
  funext b
  unfold Renumbering.slot
  by_cases hb : b = a
  · subst hb
    rw [Function.update_self, if_pos (FirstSeen.mem_enter.mpr (Or.inr rfl)),
      FirstSeen.idx_of_enter_self h]
  · rw [Function.update_of_ne hb]
    by_cases hmem : b ∈ table
    · rw [if_pos hmem, if_pos (FirstSeen.mem_enter.mpr (Or.inl hmem)), FirstSeen.idx_of_enter hmem]
    · rw [if_neg hmem, if_neg fun hin => (FirstSeen.mem_enter.mp hin).elim hmem hb]

/-- Among distinct accounts a write at the index of one changes what is said of that one. -/
theorem set_map_of_get {β : Type} (f : StoredAccount → β) (v : β) {i : Nat} (hnodup : accounts.Nodup)
    (h : accounts[i]? = some a) :
    (accounts.map f).set i v = accounts.map (Function.update f a v) := by
  obtain ⟨hlt, rfl⟩ := List.getElem?_eq_some_iff.mp h
  rw [hnodup.map_update, if_pos (List.getElem_mem hlt), hnodup.idxOf_getElem]

/-- An account of the snapshot is renumbered to its place in the table of first sights. -/
theorem renumber_token {t : StoredBoundToken} (hnodup : accounts.Nodup)
    (ha : accounts[t.account]? = some a) :
    (Renumbering.after accounts table).token t =
      .ok (Renumbering.after accounts (FirstSeen.enter table a),
        { t with account := (FirstSeen.enter table a).idxOf a }) := by
  have hplaced : (Renumbering.after accounts table).placed[t.account]?.join =
      Renumbering.slot table a := by
    rw [Renumbering.after, List.getElem?_map, ha]
    rfl
  have hunplaced : (Renumbering.after accounts table).unplaced[t.account]?.join =
      Renumbering.left table a := by
    rw [Renumbering.after, List.getElem?_map, ha]
    rfl
  unfold Renumbering.token
  rw [hplaced, hunplaced]
  by_cases hmem : a ∈ table
  · rw [FirstSeen.enter_of_mem hmem, Renumbering.slot, if_pos hmem]
  · rw [Renumbering.slot, if_neg hmem, Renumbering.left, if_neg hmem, FirstSeen.idx_of_enter_self hmem]
    unfold Renumbering.after
    rw [left_enter, slot_enter hmem, ← set_map_of_get _ _ hnodup ha, ← set_map_of_get _ _ hnodup ha,
      FirstSeen.enter_of_not_mem hmem]

/-- Tokens of the snapshot's accounts are all renumbered, and each keeps its place in the table that
comes out. -/
theorem renumber_tokens (hnodup : accounts.Nodup) (hmem : ∀ r ∈ records, r.account ∈ accounts) :
    (Renumbering.after accounts table).tokens (records.map (MintRecord.stored accounts)) =
      .ok (Renumbering.after accounts (FirstSeen.enterAll table (records.map MintRecord.account)),
        records.map
          (MintRecord.stored (FirstSeen.enterAll table (records.map MintRecord.account)))) := by
  induction records generalizing table with
  | nil => rfl
  | cons r records ih =>
    have hr := hmem r List.mem_cons_self
    have hget : accounts[(r.stored accounts).account]? = some r.account :=
      List.getElem?_idxOf hr
    have hself : r.account ∈ FirstSeen.enter table r.account :=
      FirstSeen.mem_enter.mpr (Or.inr rfl)
    have hstored := stored_congr
      (FirstSeen.prefix_enter_all (FirstSeen.enter table r.account) (records.map MintRecord.account))
      hself
    rw [List.map_cons, Renumbering.tokens, renumber_token hnodup hget, List.map_cons,
      FirstSeen.enter_all_cons, List.map_cons, hstored]
    simp only
    rw [ih fun other hother => hmem other (List.mem_cons_of_mem r hother)]
    rfl

/-- The mint time and the hash of a record, as the library orders them. -/
def mintTime (r : MintRecord) : Int := r.ms.toInt

/-- The records a save keeps, in the order it writes them. -/
def keptRecords (records : List MintRecord) : List MintRecord :=
  KeepNewest.keepSorted mintTime MintRecord.hash boundTokenCap records

theorem kept_tokens_eq (tokens : List StoredBoundToken) :
    keptTokens tokens =
      KeepNewest.keepSorted (fun t => t.ms.toInt) StoredBoundToken.hash boundTokenCap tokens := by
  have hnewer : newerMint = KeepNewest.newer fun t => t.ms.toInt := by
    funext a b
    exact decide_eq_decide.mpr Int64.le_iff_toInt_le
  unfold keptTokens KeepNewest.keepSorted KeepNewest.keep
  rw [hnewer]
  rfl

theorem kept_stored (table : List StoredAccount) (records : List MintRecord) :
    keptTokens (records.map (MintRecord.stored table)) =
      (keptRecords records).map (MintRecord.stored table) := by
  rw [kept_tokens_eq]
  exact (KeepNewest.keep_sorted_map (MintRecord.stored table) records).symm

theorem mem_kept_records (h : r ∈ keptRecords records) : r ∈ records :=
  (KeepNewest.keep_subperm _ _ _).subset (List.mem_mergeSort.mp h)

theorem length_kept_records (records : List MintRecord) :
    (keptRecords records).length ≤ boundTokenCap := by
  unfold keptRecords KeepNewest.keepSorted
  rw [List.length_mergeSort]
  exact KeepNewest.length_keep_le

/-- The table of a write: the accounts of the kept records, in the order these name them. -/
def keptTable (records : List MintRecord) : List StoredAccount :=
  FirstSeen.enterAll [] ((keptRecords records).map MintRecord.account)

theorem mem_kept_table (h : r ∈ keptRecords records) : r.account ∈ keptTable records :=
  FirstSeen.mem_enter_all.mpr (Or.inr (List.mem_map_of_mem h))

def written (records : List MintRecord) : Prepared where
  accounts := keptTable records
  tokens := (keptRecords records).map (MintRecord.stored (keptTable records))

/-- A snapshot built of records is prepared, and what comes out depends on the kept ones alone. -/
theorem prepare_build (records : List MintRecord) :
    prepare (build records) = .ok (written records) := by
  have hnodup : (FirstSeen.enterAll [] (records.map MintRecord.account)).Nodup :=
    FirstSeen.nodup_enter_all List.nodup_nil _
  have hmem : ∀ r ∈ keptRecords records,
      r.account ∈ FirstSeen.enterAll [] (records.map MintRecord.account) := fun r hr =>
    FirstSeen.mem_enter_all.mpr (Or.inr (List.mem_map_of_mem (mem_kept_records hr)))
  rw [build_eq, prepare]
  generalize FirstSeen.enterAll [] (records.map MintRecord.account) = accounts at hnodup hmem ⊢
  have hstart : Renumbering.start accounts = Renumbering.after accounts [] := by
    have hleft : Renumbering.left [] = some := funext fun a => if_neg List.not_mem_nil
    have hslot : Renumbering.slot [] = fun _ => none := funext fun a => if_neg List.not_mem_nil
    rw [Renumbering.start, Renumbering.after, hleft, hslot, List.map_const']
  simp only
  rw [hstart, kept_stored, renumber_tokens hnodup hmem]
  rfl

end Prepare

end TeamClaude.BoundTokens
