import TeamClaude.Lib.JsonEdit
import TeamClaude.Manager.CodexSyncEnds

/-!
# A refreshed login is on file or owed to it

The refreshes and retries of an imported row take their turns, and the Codex CLI writes the file in
between. A pair that a refresh leaves on the row is in the file or owed to it, unless the row goes
back from what it adopted of the file to the pair that was minted. What is written replaces a token
that the chain of POSTs behind it started from.
-/

namespace TeamClaude

open Lib

section Runs

variable {Bytes : Type}

/-! ## Calls on a row -/

/-- A row and its login file. The log of the file is that of the latest call; `past` has all of them,
the newest event first. -/
structure SyncWorld (Bytes : Type) where
  row : SyncRow
  dir : AuthDir Bytes
  past : List (SyncEvent Bytes) := []

/-- A call on the row under its refresh lock, with the turns before its operations. -/
inductive SyncCall (Bytes : Type)
  | refresh (force : Bool) (refreshToken accessBefore : String) (turns : List (SyncTurn Bytes))
  | retry (turns : List (SyncTurn Bytes))

/-- What a call returns, and the row and the file that it leaves. -/
def SyncCall.play [DecidableEq Bytes] (c : AuthCodec Bytes) (w : SyncWorld Bytes) :
    SyncCall Bytes → (Bool × SyncRow) × AuthDir Bytes
  | .refresh force refreshToken accessBefore turns =>
    (authFile c).play (refreshLocked c w.row force refreshToken accessBefore) turns
      { w.dir with log := [] }
  | .retry turns =>
    let (row, dir) := (authFile c).play (retryCodexWriteback c w.row) turns { w.dir with log := [] }
    ((false, row), dir)

def syncStep [DecidableEq Bytes] (c : AuthCodec Bytes) (w : SyncWorld Bytes)
    (call : SyncCall Bytes) : SyncWorld Bytes :=
  let ((_, row), dir) := call.play c w
  { row, dir, past := dir.log ++ w.past }

/-! ## On file or owed -/

def lastReadPair (log : List (SyncEvent Bytes)) : Option (String × Option String) :=
  log.findSome? fun
    | .read auth _ => auth.map ImportedAuth.pair
    | _ => none

/-- The row's pair is the one last read from the file, one written there, or the pending one. -/
def OnFileOrOwed (row : SyncRow) (log : List (SyncEvent Bytes)) : Prop :=
  lastReadPair log = some row.pair ∨
    (∃ before tokens, SyncEvent.wrote before tokens ∈ log ∧ tokens.pair = row.pair) ∨
    ∃ pending, row.pending = some pending ∧ pending.tokens.pair = row.pair

/-- A call that returns true leaves such a pair. -/
def LeavesOnFileOrOwed [DecidableEq Bytes] (c : AuthCodec Bytes) (w : SyncWorld Bytes)
    (call : SyncCall Bytes) : Prop :=
  (call.play c w).1.1 = true → OnFileOrOwed (call.play c w).1.2 (call.play c w).2.log

/-- After a minted pair's write-back was refused, the file held that pair or a newer live one to
adopt, but when it was read again it offered none that is newer than the pair the refresh began
with; and the minted pair is not the one last read. -/
def pairOvertaken (c : AuthCodec Bytes) (row : SyncRow) (refreshToken accessBefore : String) :
    List (SyncEvent Bytes) → Bool
  | .read last lastMs :: .read (some auth) readMs :: .read _ _ :: .minted _ tokens :: earlier =>
    decide (settleOwed c row tokens (some auth, readMs) ≠ .owed) &&
      (newerLive c row refreshToken accessBefore
        (loadedRefreshMs (firstRead earlier) refreshToken) last lastMs).isNone &&
      decide ((last.getD auth).pair ≠ tokens.pair)
  | _ => false

def SyncCall.Overtaken [DecidableEq Bytes] (c : AuthCodec Bytes) (w : SyncWorld Bytes) :
    SyncCall Bytes → Prop
  | .refresh force refreshToken accessBefore turns =>
    pairOvertaken c w.row refreshToken accessBefore
      ((SyncCall.refresh force refreshToken accessBefore turns).play c w).2.log = true
  | .retry _ => False

/-! ## Written over its source -/

/-- The tokens that a chain of POSTs came to, and the refresh token that it started from. -/
inductive PostChain : List (SyncEvent Bytes) → String → CodexTokens → Prop
  | start {posted : String} {tokens : CodexTokens} {past : List (SyncEvent Bytes)} :
      PostChain (.minted posted tokens :: past) posted tokens
  | link {source posted : String} {previous tokens : CodexTokens} {past : List (SyncEvent Bytes)}
      (hchain : PostChain past source previous) (hposted : previous.refreshToken = some posted) :
      PostChain (.minted posted tokens :: past) source tokens
  | later {source : String} {tokens : CodexTokens} {e : SyncEvent Bytes}
      {past : List (SyncEvent Bytes)} (hchain : PostChain past source tokens) :
      PostChain (e :: past) source tokens

/-- Whatever was written replaced a file whose refresh token the written pair's chain of POSTs
started from, as far as the digest of a token tells it from others. -/
def WrittenOverSource (c : AuthCodec Bytes) : List (SyncEvent Bytes) → Prop
  | [] => True
  | .wrote before tokens :: earlier =>
    (∃ auth source, before.bind (ImportedAuth.ofBytes c) = some auth ∧
      PostChain earlier source tokens ∧
      c.refreshDigest auth.login.refreshToken = c.refreshDigest source ∧
      (Function.Injective c.refreshDigest → auth.login.refreshToken = source)) ∧
      WrittenOverSource c earlier
  | _ :: earlier => WrittenOverSource c earlier

/-- The pair was minted by a chain of POSTs that started from the token it is to replace. -/
def OwedOverSource (c : AuthCodec Bytes) (past : List (SyncEvent Bytes))
    (pending : PendingCodexWriteback) : Prop :=
  ∃ source, c.refreshDigest source = pending.expectedRefresh ∧
    PostChain past source pending.tokens

/-- What is pending on a row and what was written have their sources. -/
structure Sourced (c : AuthCodec Bytes) (row : SyncRow) (past : List (SyncEvent Bytes)) : Prop where
  owed : ∀ pending, row.pending = some pending → OwedOverSource c past pending
  written : WrittenOverSource c past

variable {c : AuthCodec Bytes}

/-! ## What one call leaves -/

theorem reads_not_overtaken {row : SyncRow} {refreshToken accessBefore : String}
    {log : List (SyncEvent Bytes)} (h : ∀ e ∈ log, e.IsRead) :
    pairOvertaken c row refreshToken accessBefore log = false := by
  unfold pairOvertaken
  split
  · rename_i last lastMs auth readMs first firstMs posted tokens earlier
    exact (h (.minted posted tokens) (by simp)).elim
  · rfl

theorem SyncRow.settled_none {row : SyncRow} {nowMs : Int} {settled : SettledOwed}
    (h : settled ≠ .owed) : (row.settled nowMs settled).pending = none := by
  cases settled with
  | published => rfl
  | adopted tokens => rfl
  | owed => exact absurd rfl h

/-- After two readings that settled what was pending, only the later one can have the row's pair. -/
theorem left_by_overtaken {row : SyncRow} {tokens : CodexTokens} {cooldown : Option Int}
    {auth first : Option (ImportedAuth Bytes)} {x : ImportedAuth Bytes}
    {lastMs readMs firstMs : Int} {posted : String} {minted : CodexTokens}
    {log : List (SyncEvent Bytes)} (hreads : ∀ e ∈ log, e.IsRead) (hpending : row.pending = none) :
    OnFileOrOwed (row.apply tokens.toTokens cooldown)
        (.read auth lastMs :: .read (some x) readMs :: .read first firstMs ::
          .minted posted minted :: log) ↔
      (auth.getD x).pair = tokens.pair := by
  have hlast : lastReadPair (.read auth lastMs :: .read (some x) readMs :: .read first firstMs ::
      .minted posted minted :: log) = some (auth.getD x).pair := by
    cases auth <;> rfl
  constructor
  · rintro (hread | ⟨before, written, hmem, -⟩ | ⟨owed, howed, -⟩)
    · exact Option.some.inj (hlast.symm.trans hread)
    · simp only [List.mem_cons, reduceCtorEq, false_or] at hmem
      exact (hreads _ hmem).elim
    · cases hpending.symm.trans howed
  · intro hpair
    exact .inl (hlast.trans (congrArg some hpair))

/-- A publication leaves a pair that is on file or owed, unless it was overtaken. -/
theorem Published.on_file_or_owed {row row' : SyncRow} {refreshToken accessBefore posted : String}
    {pending : PendingCodexWriteback} {log log' : List (SyncEvent Bytes)} {tokens : CodexTokens}
    {cooldown : Option Int}
    (h : Published c row refreshToken accessBefore
      (loadedRefreshMs (firstRead log) refreshToken) pending
      (.minted posted pending.tokens :: log) tokens row' log')
    (hreads : ∀ e ∈ log, e.IsRead) :
    OnFileOrOwed (row'.apply tokens.toTokens cooldown) log' ↔
      pairOvertaken c row refreshToken accessBefore log' = false := by
  cases h with
  | flushed hflushed hresult =>
    cases hflushed with
    | published hwrote =>
      cases hwrote with
      | published auth nowMs hfile hdigest =>
        exact iff_of_true (.inr (.inl ⟨_, _, List.mem_cons_self, rfl⟩)) rfl
    | changed found readMs nowMs hwrote => exact absurd rfl hresult
    | failed nowMs hwrote =>
      refine iff_of_true (.inr (.inr ⟨_, rfl, rfl⟩)) ?_
      cases hwrote <;> rfl
  | newer hflushed hnewer =>
    cases hflushed with
    | changed found readMs nowMs hwrote =>
      cases hwrote
      obtain ⟨a, rfl, hpair⟩ := newer_live_pair hnewer
      refine iff_of_true (.inl (congrArg some hpair.symm)) ?_
      cases found with
      | none => rfl
      | some x => simp [pairOvertaken, hnewer]
  | kept hflushed hnewer =>
    rename_i auth lastMs
    cases hflushed with
    | changed found readMs nowMs hwrote =>
      cases hwrote
      cases found with
      | none => exact iff_of_true (.inr (.inr ⟨_, rfl, rfl⟩)) rfl
      | some x =>
        have hrow : settleOwed c { row with pending := some pending } pending.tokens
            (some x, readMs) = settleOwed c row pending.tokens (some x, readMs) := rfl
        rw [hrow]
        by_cases howed : settleOwed c row pending.tokens (some x, readMs) = .owed
        · rw [howed]
          exact iff_of_true (.inr (.inr ⟨_, rfl, rfl⟩)) (by simp [pairOvertaken, howed])
        · rw [left_by_overtaken hreads (SyncRow.settled_none howed)]
          simp [pairOvertaken, howed, hnewer]

/-- A refresh that returns true leaves a pair that is on file or owed, unless it was overtaken. -/
theorem RefreshEnds.on_file_or_owed {row row' : SyncRow} {refreshToken accessBefore : String}
    {log : List (SyncEvent Bytes)} {returned : Bool}
    (h : RefreshEnds c row refreshToken accessBefore returned row' log) :
    (returned = true → OnFileOrOwed row' log) ↔
      ¬pairOvertaken c row refreshToken accessBefore log = true := by
  rw [Bool.not_eq_true]
  cases h with
  | stopped hreads hsame hpending => exact iff_of_true nofun (reads_not_overtaken hreads)
  | taken auth nowMs hreads hsame hpending hpair =>
    exact iff_of_true (fun _ => .inl (congrArg some hpair.symm))
      (reads_not_overtaken (List.forall_mem_cons.mpr ⟨trivial, hreads⟩))
  | minted cooldown hreads hpublished =>
    rw [imp_iff_right rfl]
    exact hpublished.on_file_or_owed hreads

/-! ## Sources -/

theorem OwedOverSource.later {past : List (SyncEvent Bytes)} {pending : PendingCodexWriteback}
    (h : OwedOverSource c past pending) (e : SyncEvent Bytes) :
    OwedOverSource c (e :: past) pending := by
  obtain ⟨source, hdigest, hchain⟩ := h
  exact ⟨source, hdigest, hchain.later⟩

namespace Sourced

variable {row row' : SyncRow} {past log log' : List (SyncEvent Bytes)}
  {pending : PendingCodexWriteback}

theorem read (h : Sourced c row past) (auth : Option (ImportedAuth Bytes)) (nowMs : Int) :
    Sourced c row (.read auth nowMs :: past) :=
  ⟨fun pending hpending => (h.owed pending hpending).later _, h.written⟩

theorem reads (h : Sourced c row past) (hreads : ∀ e ∈ log, e.IsRead) :
    Sourced c row (log ++ past) := by
  induction log with
  | nil => exact h
  | cons e log ih =>
    obtain ⟨hread, hrest⟩ := List.forall_mem_cons.mp hreads
    cases e with
    | read auth nowMs => exact (ih hrest).read auth nowMs
    | minted posted tokens => exact hread.elim
    | wrote before tokens => exact hread.elim

/-- A row with nothing else pending. -/
theorem of_pending (h : Sourced c row past)
    (hpending : row'.pending = none ∨ row'.pending = row.pending) : Sourced c row' past := by
  refine ⟨fun pending howed => ?_, h.written⟩
  obtain hnone | hsame := hpending
  · cases hnone.symm.trans howed
  · exact h.owed pending (hsame.symm.trans howed)

/-- What a POST mints is owed over the source of the pair it goes on from, or over what it posted. -/
theorem minted (h : Sourced c row past) (posted : String) (fromFile : Bool) (tokens : CodexTokens) :
    Sourced c
      { row with pending := some { expectedRefresh := expectedFor c row posted fromFile, tokens } }
      (.minted posted tokens :: past) := by
  refine ⟨fun pending howed => ?_, h.written⟩
  rw [← Option.some.inj howed]
  unfold expectedFor
  split
  · rename_i previous hprevious
    obtain ⟨hrow, hgoes⟩ := Option.filter_eq_some_iff.mp hprevious
    obtain ⟨source, hdigest, hchain⟩ := h.owed previous hrow
    have hposted : previous.tokens.refreshToken = some posted := by
      simp only [Bool.and_eq_true, decide_eq_true_eq] at hgoes
      exact hgoes.2
    exact ⟨source, hdigest, hchain.link hposted⟩
  · exact ⟨posted, rfl, .start⟩

theorem wrote_back (h : Sourced c row past) (hpending : row.pending = some pending)
    {result : WriteBack}
    (hwrote : WroteBack c pending.expectedRefresh pending.tokens past result log') :
    Sourced c row log' := by
  cases hwrote with
  | published auth nowMs hfile hdigest =>
    have hread := h.read (some auth) nowMs
    obtain ⟨source, hsource, hchain⟩ := hread.owed pending hpending
    have hdigests : c.refreshDigest auth.login.refreshToken = c.refreshDigest source :=
      hdigest.trans hsource.symm
    exact ⟨fun p hp => (hread.owed p hp).later _,
      ⟨auth, source, hfile, hchain, hdigests, fun hinj => hinj hdigests⟩, hread.written⟩
  | changed auth nowMs => exact h.read auth nowMs
  | unread => exact h
  | failed auth nowMs => exact h.read auth nowMs

/-- What a settlement leaves pending is what was pending, or nothing. -/
theorem settled (h : Sourced c row past) (nowMs : Int) (settled : SettledOwed) :
    Sourced c (row.settled nowMs settled) past := by
  cases settled with
  | published => exact h.of_pending (.inl rfl)
  | adopted tokens => exact h.of_pending (.inl rfl)
  | owed =>
    refine ⟨fun pending howed => ?_, h.written⟩
    obtain ⟨previous, hprevious, rfl⟩ := Option.map_eq_some_iff.mp howed
    exact h.owed previous hprevious

theorem flushed (h : Sourced c row past) (hpending : row.pending = some pending)
    {result : Option WriteBack} (hflushed : Flushed c row pending past result row' log') :
    Sourced c row' log' := by
  cases hflushed with
  | published hwrote => exact (h.wrote_back hpending hwrote).settled _ _
  | changed found readMs nowMs hwrote =>
    exact ((h.wrote_back hpending hwrote).read found readMs).settled _ _
  | failed nowMs hwrote => exact (h.wrote_back hpending hwrote).settled _ _

theorem published {refreshToken accessBefore : String} {loadedMs : Option Int} {tokens : CodexTokens}
    (h : Sourced c { row with pending := some pending } past)
    (hpublished : Published c row refreshToken accessBefore loadedMs pending past tokens row' log') :
    Sourced c row' log' := by
  cases hpublished with
  | flushed hflushed hresult => exact h.flushed rfl hflushed
  | newer hflushed hnewer =>
    exact ((h.flushed rfl hflushed).read _ _).of_pending (.inl rfl)
  | kept hflushed hnewer => exact (h.flushed rfl hflushed).read _ _

end Sourced

/-! ## From the log of a call to the whole past -/

section Append

variable {row row' : SyncRow} {log log' past : List (SyncEvent Bytes)}
  {pending : PendingCodexWriteback}

theorem WroteBack.append {digest : String} {tokens : CodexTokens} {result : WriteBack}
    (h : WroteBack c digest tokens log result log') (past : List (SyncEvent Bytes)) :
    WroteBack c digest tokens (log ++ past) result (log' ++ past) := by
  cases h with
  | published auth nowMs hfile hdigest => exact .published auth nowMs hfile hdigest
  | changed auth nowMs => exact .changed auth nowMs
  | unread => exact .unread
  | failed auth nowMs => exact .failed auth nowMs

theorem Flushed.append {result : Option WriteBack} (h : Flushed c row pending log result row' log')
    (past : List (SyncEvent Bytes)) :
    Flushed c row pending (log ++ past) result row' (log' ++ past) := by
  cases h with
  | published hwrote => exact .published (hwrote.append past)
  | changed found readMs nowMs hwrote => exact .changed found readMs nowMs (hwrote.append past)
  | failed nowMs hwrote => exact .failed nowMs (hwrote.append past)

theorem Published.append {refreshToken accessBefore : String} {loadedMs : Option Int}
    {tokens : CodexTokens}
    (h : Published c row refreshToken accessBefore loadedMs pending log tokens row' log')
    (past : List (SyncEvent Bytes)) :
    Published c row refreshToken accessBefore loadedMs pending (log ++ past) tokens row'
      (log' ++ past) := by
  cases h with
  | flushed hflushed hresult => exact .flushed (hflushed.append past) hresult
  | newer hflushed hnewer => exact .newer (hflushed.append past) hnewer
  | kept hflushed hnewer => exact .kept (hflushed.append past) hnewer

theorem Published.same {refreshToken accessBefore : String} {loadedMs : Option Int}
    {tokens : CodexTokens}
    (h : Published c row refreshToken accessBefore loadedMs pending log tokens row' log') :
    row.SameLogin row' := by
  cases h with
  | flushed hflushed hresult => exact hflushed.same
  | newer hflushed hnewer => exact hflushed.same
  | kept hflushed hnewer => exact hflushed.same

/-- A refresh keeps the row's login and the sources. -/
theorem RefreshEnds.sourced {refreshToken accessBefore : String} {returned : Bool}
    (h : RefreshEnds c row refreshToken accessBefore returned row' log)
    (hsourced : Sourced c row past) : row.SameLogin row' ∧ Sourced c row' (log ++ past) := by
  cases h with
  | stopped hreads hsame hpending =>
    exact ⟨hsame, (hsourced.reads hreads).of_pending hpending⟩
  | taken auth nowMs hreads hsame hpending hpair =>
    exact ⟨hsame, ((hsourced.reads hreads).read _ _).of_pending (.inl hpending)⟩
  | minted cooldown hreads hpublished =>
    rename_i posted fromFile
    have hminted := (hsourced.reads hreads).minted posted fromFile
    exact ⟨hpublished.same,
      ((hminted _).published (hpublished.append past)).of_pending (.inr rfl)⟩

theorem RetryEnds.sourced (h : RetryEnds c row row' log) (hsourced : Sourced c row past) :
    row.SameLogin row' ∧ Sourced c row' (log ++ past) := by
  cases h with
  | idle => exact ⟨⟨rfl, rfl, rfl, rfl, rfl⟩, hsourced⟩
  | flushed hpending hflushed =>
    exact ⟨hflushed.same, hsourced.flushed hpending (hflushed.append past)⟩

end Append

/-! ## Runs -/

/-- The row is an imported one, not removed, and all that is pending or was written has its source. -/
structure SyncWorld.Ready (c : AuthCodec Bytes) (w : SyncWorld Bytes) : Prop where
  imported : w.row.imported = true
  live : w.row.removed = false
  sourced : Sourced c w.row w.past

variable [DecidableEq Bytes] {w : SyncWorld Bytes}

theorem SyncWorld.Ready.refresh (h : w.Ready c) (force : Bool) (refreshToken accessBefore : String)
    (turns : List (SyncTurn Bytes)) :
    let out := (SyncCall.refresh force refreshToken accessBefore turns).play c w
    RefreshEnds c w.row refreshToken accessBefore out.1.1 out.1.2 out.2.log :=
  Shared.Always.play (refresh_ends h.live h.imported rfl) turns

theorem SyncWorld.Ready.retry (h : w.Ready c) (turns : List (SyncTurn Bytes)) :
    let out := (SyncCall.retry turns).play c w
    RetryEnds c w.row out.1.2 out.2.log :=
  Shared.Always.play (retry_ends h.live h.imported rfl) turns

theorem sync_step_ready (h : w.Ready c) (call : SyncCall Bytes) : (syncStep c w call).Ready c := by
  have hkept : w.row.SameLogin (syncStep c w call).row ∧
      Sourced c (syncStep c w call).row (syncStep c w call).past := by
    cases call with
    | refresh force refreshToken accessBefore turns =>
      exact (h.refresh force refreshToken accessBefore turns).sourced h.sourced
    | retry turns => exact (h.retry turns).sourced h.sourced
  exact ⟨hkept.1.imported.trans h.imported, hkept.1.2.2.1.trans h.live, hkept.2⟩

/-- One call leaves a pair that is on file or owed, if it was not overtaken. -/
theorem leaves_on_file_or_owed (h : w.Ready c) (call : SyncCall Bytes) :
    LeavesOnFileOrOwed c w call ↔ ¬call.Overtaken c w := by
  cases call with
  | refresh force refreshToken accessBefore turns =>
    exact (h.refresh force refreshToken accessBefore turns).on_file_or_owed
  | retry turns => exact iff_of_true nofun not_false

/-- In a run of refreshes and retries of an imported row that is not removed, with the Codex CLI at
the file in between, every refresh that returns true leaves a pair that is on file or owed exactly
when no refresh is overtaken; and every write-back replaces the token that its pair's chain of POSTs
started from. -/
theorem refreshed_login_on_file_or_owed (c : AuthCodec Bytes) (w : SyncWorld Bytes)
    (himported : w.row.imported = true) (hlive : w.row.removed = false)
    (hsourced : Sourced c w.row w.past) (calls : List (SyncCall Bytes)) :
    (EachStep (syncStep c) (LeavesOnFileOrOwed c) w calls ↔
      EachStep (syncStep c) (fun w call => ¬call.Overtaken c w) w calls) ∧
      WrittenOverSource c (exec (syncStep c) w calls).past := by
  have hready : w.Ready c := ⟨himported, hlive, hsourced⟩
  constructor
  · exact each_step_congr (I := SyncWorld.Ready c) (L := fun _ => True)
      (fun w call h _ => leaves_on_file_or_owed h call) (fun w call h _ _ => sync_step_ready h call)
      hready (fun _ _ => trivial)
  · have hkept : SyncWorld.Ready c (exec (syncStep c) w calls) :=
      exec_invariant (I := SyncWorld.Ready c) (A := fun _ _ => True)
        (fun w call h _ => sync_step_ready h call) hready (fun _ _ _ => trivial) calls
        (List.prefix_refl calls)
    exact hkept.sourced.written

end Runs

/-! ## One login -/

namespace SharedLogin

/-- An access token with its issuance and its expiry, in seconds. -/
def claims (iat exp : UInt64) : Json.Value :=
  .object [("iat", .number (.posInt iat)), ("exp", .number (.posInt exp))]

/-- Files by the documents they hold, if they hold one. -/
def codec : AuthCodec (Option Json.Value) where
  document := id
  print := some
  jwtPayload jwt :=
    if jwt = "first access" then some (claims 10 20)
    else if jwt = "minted access" then some (claims 30 60)
    else if jwt = "cli access" then some (claims 40 90)
    else none
  readInstant text :=
    if text = "1970-01-01T00:00:10Z" then some 10000
    else if text = "1970-01-01T00:00:40Z" then some 40000
    else none
  writeInstant _ := "1970-01-01T00:00:40Z"
  refreshDigest refresh := "digest of " ++ refresh

def document (access refresh lastRefresh : String) : Json.Value :=
  .object
    [("tokens", .object
      [("access_token", .string access), ("refresh_token", .string refresh),
        ("account_id", .string "workspace")]),
      ("last_refresh", .string lastRefresh)]

def minted : CodexTokens where
  accessToken := "minted access"
  refreshToken := some "minted refresh"
  expiresAtMs := 60000

/-- An expired row and the file it was imported from. -/
def world : SyncWorld (Option Json.Value) where
  row :=
    { name := "codex", provider := .codex, orgUuid := some "workspace"
      codexHome := some "/home/codex", accessToken := "first access"
      refreshToken := some "first refresh", expiresAtMs := some 20000 }
  dir := { content := some (some (document "first access" "first refresh" "1970-01-01T00:00:10Z")) }

/-- The turn before an operation that nobody disturbs. -/
def at30 : SyncTurn (Option Json.Value) where
  nowMs := 30000

def answered : SyncTurn (Option Json.Value) where
  nowMs := 30000
  minting := .success minted

/-- A refresh whose write-back does not get the lock. -/
def unpublished : SyncCall (Option Json.Value) :=
  .refresh true "first refresh" "first access"
    [at30, at30, at30, answered, { at30 with fails := true }, at30, at30]

/-- A retry that does, later on. -/
def published : SyncCall (Option Json.Value) :=
  .retry (List.replicate 7 { nowMs := 40000 })

theorem world_sourced : Sourced codec world.row world.past :=
  ⟨nofun, trivial⟩

theorem retried_login_on_file :
    EachStep (syncStep codec) (LeavesOnFileOrOwed codec) world [unpublished, published] ∧
      WrittenOverSource codec (exec (syncStep codec) world [unpublished, published]).past ∧
      (exec (syncStep codec) world [unpublished, published]).row.pending = none := by
  have hruns := refreshed_login_on_file_or_owed codec world rfl rfl world_sourced
    [unpublished, published]
  refine ⟨hruns.1.mpr ?_, hruns.2, by decide +kernel⟩
  rw [each_step_cons, each_step_cons]
  refine ⟨?_, not_false, each_step_nil⟩
  show ¬pairOvertaken codec world.row "first refresh" "first access"
    (unpublished.play codec world).2.log = true
  decide +kernel

def newer : Json.Value :=
  document "cli access" "cli refresh" "1970-01-01T00:00:40Z"

/-- The Codex CLI writes a newer pair during the POST, and writes again when it is read the second
time after the refused write-back: that reading finds no document. -/
def passedOver : SyncCall (Option Json.Value) :=
  .refresh true "first refresh" "first access"
    [at30, at30, at30,
      { answered with cli := some { content := some (some newer) } }, at30, at30, at30, at30, at30,
      { at30 with cli := some { content := some none } }, at30]

/-- The row goes back from the pair it adopted to the minted one, which is neither on file nor
pending. -/
theorem minted_over_adopted :
    world.Ready codec ∧
      ¬EachStep (syncStep codec) (LeavesOnFileOrOwed codec) world [passedOver] := by
  have hready : world.Ready codec := ⟨rfl, rfl, world_sourced⟩
  refine ⟨hready, fun h => ?_⟩
  have hovertaken : passedOver.Overtaken codec world := by
    show pairOvertaken codec world.row "first refresh" "first access"
      (passedOver.play codec world).2.log = true
    decide +kernel
  exact (leaves_on_file_or_owed hready passedOver).mp (each_step_cons.mp h).1 hovertaken

end SharedLogin

end TeamClaude
