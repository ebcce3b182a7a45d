import TeamClaude.Manager.CodexSync

/-!
# How a synchronization ends

Whatever the Codex CLI does in its turns, a write-back, a flush and a refresh end in one of a few
ways, each with what it has met with on its way.
-/

namespace TeamClaude

open Lib Lib.Shared

section Rules

variable {Bytes : Type} {c : AuthCodec Bytes} {d : AuthDir Bytes}

/-! ## One rule for each operation -/

theorem AuthDir.written_log (d : AuthDir Bytes) (cli : Option (CliWrite Bytes)) :
    (d.written cli).log = d.log := by
  cases cli <;> rfl

theorem ImportedAuth.of_bytes_original {bytes : Bytes} {auth : ImportedAuth Bytes}
    (h : ImportedAuth.ofBytes c bytes = some auth) : auth.original = bytes := by
  obtain ⟨document, -, h⟩ := Option.bind_eq_some_iff.mp h
  obtain ⟨login, -, rfl⟩ := Option.map_eq_some_iff.mp h
  rfl

theorem always_clock {post : Int → AuthDir Bytes → Prop}
    (h : ∀ nowMs d', d'.log = d.log → post nowMs d') :
    (authFile c).Always SyncProg.clock post d :=
  fun turn => h turn.nowMs _ (d.written_log turn.cli)

theorem always_lock {post : Bool → AuthDir Bytes → Prop}
    (h : ∀ locked d', d'.log = d.log → post locked d') :
    (authFile c).Always SyncProg.lock post d :=
  fun turn => h _ _ (d.written_log turn.cli)

theorem always_link {post : Option Bool → AuthDir Bytes → Prop}
    (h : ∀ link d', d'.log = d.log → post link d') :
    (authFile c).Always SyncProg.isLink post d :=
  fun turn => h _ _ (d.written_log turn.cli)

theorem always_prepare {post : Bool → AuthDir Bytes → Prop}
    (h : ∀ prepared d', d'.log = d.log → post prepared d') :
    (authFile c).Always SyncProg.prepare post d :=
  fun turn => h _ _ (d.written_log turn.cli)

/-- What is read is the document of the bytes it was read from. -/
theorem always_read {post : Option (ImportedAuth Bytes) × Int → AuthDir Bytes → Prop}
    (h : ∀ auth nowMs d', d'.log = .read auth nowMs :: d.log →
      (∀ a, auth = some a → ImportedAuth.ofBytes c a.original = some a) → post (auth, nowMs) d') :
    (authFile c).Always SyncProg.read post d := by
  intro turn
  refine h _ _ _ (congrArg (List.cons _) (d.written_log turn.cli)) fun a ha => ?_
  split at ha
  · cases ha
  · obtain ⟨bytes, -, hof⟩ := Option.bind_eq_some_iff.mp ha
    rw [ImportedAuth.of_bytes_original hof]
    exact hof

/-- What is compared with is what the file holds until the next operation. -/
theorem always_compare {post : Option Bytes → AuthDir Bytes → Prop}
    (h : ∀ current d', d'.log = d.log → (∀ bytes, current = some bytes → d'.content = some bytes) →
      post current d') :
    (authFile c).Always SyncProg.compare post d := by
  intro turn
  refine h (if turn.fails then none else (d.written turn.cli).content) _ (d.written_log turn.cli)
    fun bytes hcurrent => ?_
  split at hcurrent
  · cases hcurrent
  · exact hcurrent

theorem always_rename {bytes : Bytes} {tokens : CodexTokens} {post : Bool → AuthDir Bytes → Prop}
    (hfailed : post false d)
    (hrenamed : ∀ d', d'.log = .wrote d.content tokens :: d.log → post true d') :
    (authFile c).Always (SyncProg.rename bytes tokens) post d := by
  refine always_call.mpr fun turn => ?_
  by_cases hfails : turn.fails = true
  · simpa [AuthDir.perform, hfails] using hfailed
  · simpa [AuthDir.perform, hfails] using hrenamed _ rfl

theorem always_post {refresh : String} {post : Minting → AuthDir Bytes → Prop}
    (hminted : ∀ tokens d', d'.log = .minted refresh tokens :: d.log → post (.success tokens) d')
    (hfailed : ∀ minting d', (∀ tokens, minting ≠ .success tokens) → d'.log = d.log →
      post minting d') :
    (authFile c).Always (SyncProg.post refresh) post d := by
  refine always_call.mpr fun turn => ?_
  cases hminting : turn.minting with
  | success tokens =>
    simpa [AuthDir.perform, hminting]
      using hminted tokens _ (congrArg (List.cons _) (d.written_log turn.cli))
  | authRejected status code =>
    simpa [AuthDir.perform, hminting] using hfailed _ _ (by simp) (d.written_log turn.cli)
  | transient =>
    simpa [AuthDir.perform, hminting] using hfailed _ _ (by simp) (d.written_log turn.cli)

end Rules

/-! ## A write-back -/

section Ends

variable {Bytes : Type} (c : AuthCodec Bytes)

/-- A write-back replaced the file whose refresh token it read and found to have the digest, was
refused after a read, or failed. -/
inductive WroteBack (digest : String) (tokens : CodexTokens) (log : List (SyncEvent Bytes)) :
    WriteBack → List (SyncEvent Bytes) → Prop
  | published (auth : ImportedAuth Bytes) (nowMs : Int)
      (hfile : ImportedAuth.ofBytes c auth.original = some auth)
      (hdigest : c.refreshDigest auth.login.refreshToken = digest) :
      WroteBack digest tokens log .published
        (.wrote (some auth.original) tokens :: .read (some auth) nowMs :: log)
  | changed (auth : Option (ImportedAuth Bytes)) (nowMs : Int) :
      WroteBack digest tokens log .changed (.read auth nowMs :: log)
  | unread : WroteBack digest tokens log .failed log
  | failed (auth : Option (ImportedAuth Bytes)) (nowMs : Int) :
      WroteBack digest tokens log .failed (.read auth nowMs :: log)

variable {c} {d : AuthDir Bytes}

theorem commit_write_back_ends [DecidableEq Bytes] {digest : String} {auth : ImportedAuth Bytes}
    {bytes : Bytes} {tokens : CodexTokens} {nowMs : Int} {log : List (SyncEvent Bytes)}
    (hlog : d.log = .read (some auth) nowMs :: log)
    (hfile : ImportedAuth.ofBytes c auth.original = some auth)
    (hdigest : c.refreshDigest auth.login.refreshToken = digest) :
    (authFile c).Always (commitWriteBack c digest auth bytes tokens)
      (fun result d' => WroteBack c digest tokens log result d'.log) d := by
  have hfailed : ∀ d' : AuthDir Bytes, d'.log = d.log →
      WroteBack c digest tokens log .failed d'.log := by
    intro d' h
    rw [h, hlog]
    exact .failed _ _
  unfold commitWriteBack
  refine always_bind.mpr (always_prepare fun prepared d₁ h₁ => ?_)
  split
  · exact hfailed d₁ h₁
  refine always_bind.mpr (always_link fun link d₂ h₂ => ?_)
  split
  · exact hfailed d₂ (h₂.trans h₁)
  refine always_bind.mpr (always_compare fun current d₃ h₃ hcontent => ?_)
  have h₃ : d₃.log = d.log := (h₃.trans h₂).trans h₁
  cases current with
  | none => exact hfailed d₃ h₃
  | some current =>
    dsimp only
    split
    · split
      · rw [always_ret, h₃, hlog]
        exact .changed _ _
      · exact hfailed d₃ h₃
    · rename_i hsame
      refine always_bind.mpr (always_rename (hfailed d₃ h₃) fun d₄ h₄ => ?_)
      rw [always_ret, h₄, hcontent current rfl, not_not.mp hsame, h₃, hlog]
      exact .published auth nowMs hfile hdigest

theorem write_back_ends [DecidableEq Bytes] (digest : String) (tokens : CodexTokens) :
    (authFile c).Always (writeBackWithDigest c digest tokens)
      (fun result d' => WroteBack c digest tokens d.log result d'.log) d := by
  unfold writeBackWithDigest
  refine always_bind.mpr (always_lock fun locked d₁ h₁ => ?_)
  split
  · rw [always_ret, h₁]
    exact .unread
  refine always_bind.mpr (always_link fun link d₂ h₂ => ?_)
  rw [h₁] at h₂
  split
  · rw [always_ret, h₂]
    exact .unread
  refine always_bind.mpr (always_read fun auth nowMs d₃ h₃ hof => ?_)
  rw [h₂] at h₃
  cases auth with
  | none =>
    rw [always_ret, h₃]
    exact .failed _ _
  | some auth =>
    dsimp only
    split
    · rw [always_ret, h₃]
      exact .changed _ _
    rename_i hdigest
    split
    · rw [always_ret, h₃]
      exact .failed _ _
    split
    · rw [always_ret, h₃]
      exact .failed _ _
    · exact commit_write_back_ends h₃ (hof auth rfl) (not_not.mp hdigest)

/-! ## A flush -/

variable (c) in
/-- A flush wrote the pair owed, settled it by what it found in the file, or still owes it. -/
inductive Flushed (row : SyncRow) (pending : PendingCodexWriteback)
    (log : List (SyncEvent Bytes)) : Option WriteBack → SyncRow → List (SyncEvent Bytes) → Prop
  | published {log' : List (SyncEvent Bytes)}
      (hwrote : WroteBack c pending.expectedRefresh pending.tokens log .published log') :
      Flushed row pending log (some .published) (row.settled 0 .published) log'
  | changed {log' : List (SyncEvent Bytes)} (found : Option (ImportedAuth Bytes)) (readMs nowMs : Int)
      (hwrote : WroteBack c pending.expectedRefresh pending.tokens log .changed log') :
      Flushed row pending log (some .changed)
        (row.settled nowMs (settleOwed c row pending.tokens (found, readMs)))
        (.read found readMs :: log')
  | failed {log' : List (SyncEvent Bytes)} (nowMs : Int)
      (hwrote : WroteBack c pending.expectedRefresh pending.tokens log .failed log') :
      Flushed row pending log (some .failed) (row.settled nowMs .owed) log'

theorem flush_ends [DecidableEq Bytes] (row : SyncRow) (pending : PendingCodexWriteback)
    (hlive : row.removed = false) (himported : row.imported = true)
    (hpending : row.pending = some pending) :
    (authFile c).Always (flushCodexWritebackLocked c row)
      (fun r d' => Flushed c row pending d.log r.1 r.2 d'.log) d := by
  unfold flushCodexWritebackLocked
  rw [if_neg (by simp [hlive, himported]), hpending]
  refine always_bind.mpr ((write_back_ends _ _).mono fun result d₁ hwrote => ?_)
  cases result with
  | published => exact .published hwrote
  | changed =>
    refine always_bind.mpr (always_read fun found readMs d₂ h₂ _ => ?_)
    refine always_bind.mpr (always_clock fun nowMs d₃ h₃ => ?_)
    rw [always_ret, h₃, h₂]
    exact .changed found readMs nowMs hwrote
  | failed =>
    refine always_bind.mpr (always_clock fun nowMs d₂ h₂ => ?_)
    rw [always_ret, h₂]
    exact .failed nowMs hwrote

/-! ## A publication -/

/-- The file's pair, if it is live and newer than the one a refresh began with. -/
def newerLive (c : AuthCodec Bytes) (row : SyncRow) (refreshToken accessBefore : String)
    (afterMs : Option Int) (auth : Option (ImportedAuth Bytes)) (nowMs : Int) :
    Option CodexTokens :=
  (auth.bind fun auth => auth.newerTokens c refreshToken accessBefore row.orgUuid row.accountUuid
    afterMs false).filter fun tokens => decide (nowMs < tokens.expiresAtMs)

theorem newer_live_pair {row : SyncRow} {refreshToken accessBefore : String} {afterMs : Option Int}
    {auth : Option (ImportedAuth Bytes)} {nowMs : Int} {tokens : CodexTokens}
    (h : newerLive c row refreshToken accessBefore afterMs auth nowMs = some tokens) :
    ∃ a, auth = some a ∧ tokens.pair = a.pair := by
  obtain ⟨a, ha, hnewer⟩ := Option.bind_eq_some_iff.mp (Option.filter_eq_some_iff.mp h).1
  exact ⟨a, ha, (ImportedAuth.newer_tokens_pair hnewer).1⟩

/-- The login that a row was imported for, which no refresh changes. -/
def SyncRow.SameLogin (row row' : SyncRow) : Prop :=
  row'.provider = row.provider ∧ row'.codexHome = row.codexHome ∧ row'.removed = row.removed ∧
    row'.orgUuid = row.orgUuid ∧ row'.accountUuid = row.accountUuid

theorem SyncRow.SameLogin.imported {row row' : SyncRow} (h : row.SameLogin row') :
    row'.imported = row.imported := by
  unfold SyncRow.imported
  rw [h.1, h.2.1]

theorem SyncRow.settled_same (row : SyncRow) (nowMs : Int) (settled : SettledOwed) :
    row.SameLogin (row.settled nowMs settled) := by
  cases settled <;> exact ⟨rfl, rfl, rfl, rfl, rfl⟩

theorem Flushed.same {row row' : SyncRow} {pending : PendingCodexWriteback}
    {log log' : List (SyncEvent Bytes)} {result : Option WriteBack}
    (h : Flushed c row pending log result row' log') : row.SameLogin row' := by
  cases h <;> exact row.settled_same _ _

theorem always_imported {row : SyncRow} {post : Option (ImportedAuth Bytes) → AuthDir Bytes → Prop}
    (himported : row.imported = true)
    (h : ∀ auth nowMs d', d'.log = .read auth nowMs :: d.log → post auth d') :
    (authFile c).Always (readImported row) post d := by
  unfold readImported
  rw [if_pos himported]
  exact always_bind.mpr (always_read fun auth nowMs d' h' _ => h auth nowMs d' h')

/-- Where the file is read for a newer pair, and what it is then taken for. -/
theorem always_newer {row : SyncRow} {refreshToken accessBefore : String} {afterMs : Option Int}
    {previousRejected : Bool} {post : Option CodexTokens × Int → AuthDir Bytes → Prop}
    (himported : row.imported = true)
    (h : ∀ auth nowMs d', d'.log = .read auth nowMs :: d.log →
      post (auth.bind fun auth => auth.newerTokens c refreshToken accessBefore row.orgUuid
        row.accountUuid afterMs previousRejected, nowMs) d') :
    (authFile c).Always (newerInFile c row refreshToken accessBefore afterMs previousRejected)
      post d := by
  unfold newerInFile
  rw [if_pos himported]
  exact always_bind.mpr (always_read fun auth nowMs d' h' _ => h auth nowMs d' h')

variable (c) in
/-- A publication ends with its flush, or after a refused one with the file's newer pair or without
one. -/
inductive Published (row : SyncRow) (refreshToken accessBefore : String) (loadedMs : Option Int)
    (pending : PendingCodexWriteback) (log : List (SyncEvent Bytes)) :
    CodexTokens → SyncRow → List (SyncEvent Bytes) → Prop
  | flushed {result : Option WriteBack} {row' : SyncRow} {log' : List (SyncEvent Bytes)}
      (hflushed : Flushed c { row with pending := some pending } pending log result row' log')
      (hresult : result ≠ some .changed) :
      Published row refreshToken accessBefore loadedMs pending log pending.tokens row' log'
  | newer {row' : SyncRow} {log' : List (SyncEvent Bytes)} {auth : Option (ImportedAuth Bytes)}
      {nowMs : Int} {newer : CodexTokens}
      (hflushed : Flushed c { row with pending := some pending } pending log (some .changed) row'
        log')
      (hnewer : newerLive c row refreshToken accessBefore loadedMs auth nowMs = some newer) :
      Published row refreshToken accessBefore loadedMs pending log newer
        { row' with pending := none } (.read auth nowMs :: log')
  | kept {row' : SyncRow} {log' : List (SyncEvent Bytes)} {auth : Option (ImportedAuth Bytes)}
      {nowMs : Int}
      (hflushed : Flushed c { row with pending := some pending } pending log (some .changed) row'
        log')
      (hnewer : newerLive c row refreshToken accessBefore loadedMs auth nowMs = none) :
      Published row refreshToken accessBefore loadedMs pending log pending.tokens row'
        (.read auth nowMs :: log')

theorem publish_minted_ends [DecidableEq Bytes] {row : SyncRow}
    {refreshToken accessBefore : String} {loadedMs : Option Int} {tokens : CodexTokens}
    {posted : String} {fromFile : Bool} (hlive : row.removed = false)
    (himported : row.imported = true) :
    (authFile c).Always
      (publishMinted c row refreshToken accessBefore loadedMs tokens posted fromFile)
      (fun r d' => Published c row refreshToken accessBefore loadedMs
        { expectedRefresh := expectedFor c row posted fromFile, tokens } d.log r.1 r.2 d'.log)
      d := by
  unfold publishMinted
  rw [if_pos himported]
  let pending : PendingCodexWriteback :=
    { expectedRefresh := expectedFor c row posted fromFile, tokens }
  have hflush := flush_ends (c := c) (d := d) { row with pending := some pending } pending hlive
    himported rfl
  refine always_bind.mpr (hflush.mono ?_)
  rintro ⟨result, row'⟩ d₁ hflushed
  dsimp only at hflushed ⊢
  split
  · rename_i hchanged
    subst hchanged
    have hsame := hflushed.same
    refine always_bind.mpr (always_newer (hsame.imported.trans himported) ?_)
    intro auth nowMs d₂ h₂
    have hlive : newerLive c row' refreshToken accessBefore loadedMs auth nowMs =
        newerLive c row refreshToken accessBefore loadedMs auth nowMs := by
      unfold newerLive
      rw [hsame.2.2.2.1, hsame.2.2.2.2]
    split
    · rename_i newer hnewer
      rw [always_ret, h₂]
      exact .newer hflushed (hlive.symm.trans hnewer)
    · rename_i hnewer
      rw [always_ret, h₂]
      exact .kept hflushed (hlive.symm.trans hnewer)
  · rename_i hresult
    exact .flushed hflushed hresult

/-! ## A refresh -/

/-- The POSTs of a refresh end with a pair minted for the first token or, after a reading of the
file, for another one, with a pair found there, or without a pair. -/
inductive Posted (posted : String) (fromFile : Bool) (log : List (SyncEvent Bytes)) :
    Refreshed → List (SyncEvent Bytes) → Prop
  | first (tokens : CodexTokens) :
      Posted posted fromFile log (.minted tokens posted fromFile) (.minted posted tokens :: log)
  | second (auth : Option (ImportedAuth Bytes)) (nowMs : Int) (token : String)
      (tokens : CodexTokens) :
      Posted posted fromFile log (.minted tokens token true)
        (.minted token tokens :: .read auth nowMs :: log)
  | found (auth : ImportedAuth Bytes) (nowMs : Int) (tokens : CodexTokens)
      (hpair : tokens.pair = auth.pair) :
      Posted posted fromFile log (.found tokens) (.read (some auth) nowMs :: log)
  | failed {minting : Minting} (auth : Option (ImportedAuth Bytes)) (nowMs : Int) (token : String)
      (held : Bool) (hfailed : ∀ tokens, minting ≠ .success tokens) :
      Posted posted fromFile log (minting.refreshed token held) (.read auth nowMs :: log)

theorem post_again_ends {row : SyncRow} {refreshToken accessBefore : String}
    {loadedMs : Option Int} {posted : String} {fromFile : Bool} {failure : Minting}
    (himported : row.imported = true) (hfailed : ∀ tokens, failure ≠ .success tokens) :
    (authFile c).Always
      (postAgain c row refreshToken accessBefore loadedMs posted fromFile failure)
      (fun r d' => Posted posted fromFile d.log r d'.log) d := by
  refine always_bind.mpr (always_newer himported fun auth nowMs d₁ h₁ => ?_)
  dsimp only
  split
  · rw [always_ret, h₁]
    exact .failed auth nowMs posted fromFile hfailed
  rename_i replacement hreplacement
  obtain ⟨a, rfl, hnewer⟩ :=
    Option.bind_eq_some_iff.mp (Option.filter_eq_some_iff.mp hreplacement).1
  split
  · rw [always_ret, h₁]
    exact .found a nowMs replacement (ImportedAuth.newer_tokens_pair hnewer).1
  split
  · rw [always_ret, h₁]
    exact .failed (some a) nowMs posted fromFile hfailed
  rename_i token _
  refine always_bind.mpr (always_post (fun tokens d₂ h₂ => ?_) fun minting d₂ hfailed h₂ => ?_)
  · rw [always_ret, h₂, h₁]
    exact .second (some a) nowMs token tokens
  · rw [always_ret, h₂, h₁]
    exact .failed (some a) nowMs token true hfailed

theorem post_ends {row : SyncRow} {refreshToken accessBefore : String} {loadedMs : Option Int}
    {posted : String} {fromFile : Bool} (himported : row.imported = true) :
    (authFile c).Always (postRefresh c row refreshToken accessBefore loadedMs posted fromFile)
      (fun r d' => Posted posted fromFile d.log r d'.log) d := by
  refine always_bind.mpr (always_post (fun tokens d₁ h₁ => ?_) fun minting d₁ hfailed h₁ => ?_)
  · rw [always_ret, h₁]
    exact .first tokens
  · rw [← h₁]
    cases minting with
    | success tokens => exact absurd rfl (hfailed tokens)
    | authRejected status code => exact post_again_ends himported hfailed
    | transient => exact post_again_ends himported hfailed

/-- A file read and nothing else. -/
def SyncEvent.IsRead : SyncEvent Bytes → Prop
  | .read _ _ => True
  | _ => False

def firstRead (log : List (SyncEvent Bytes)) : Option (ImportedAuth Bytes) :=
  match log.getLast? with
  | some (.read auth _) => auth
  | _ => none

variable (c) in
/-- A refresh ends without a pair, with one that it found in the file, or with the publication of one
that was minted. -/
inductive RefreshEnds (row : SyncRow) (refreshToken accessBefore : String) :
    Bool → SyncRow → List (SyncEvent Bytes) → Prop
  | stopped {row' : SyncRow} {log : List (SyncEvent Bytes)} (hreads : ∀ e ∈ log, e.IsRead)
      (hsame : row.SameLogin row') (hpending : row'.pending = none ∨ row'.pending = row.pending) :
      RefreshEnds row refreshToken accessBefore false row' log
  | taken {row' : SyncRow} {log : List (SyncEvent Bytes)} (auth : ImportedAuth Bytes) (nowMs : Int)
      (hreads : ∀ e ∈ log, e.IsRead) (hsame : row.SameLogin row') (hpending : row'.pending = none)
      (hpair : row'.pair = auth.pair) :
      RefreshEnds row refreshToken accessBefore true row' (.read (some auth) nowMs :: log)
  | minted {row' : SyncRow} {log log' : List (SyncEvent Bytes)} {tokens tokens' : CodexTokens}
      {posted : String} {fromFile : Bool} (cooldown : Option Int) (hreads : ∀ e ∈ log, e.IsRead)
      (hpublished : Published c row refreshToken accessBefore
        (loadedRefreshMs (firstRead log) refreshToken)
        { expectedRefresh := expectedFor c row posted fromFile, tokens }
        (.minted posted tokens :: log) tokens' row' log') :
      RefreshEnds row refreshToken accessBefore true (row'.apply tokens'.toTokens cooldown) log'

theorem install_pair_ends {row : SyncRow} {force : Bool} {tokens : CodexTokens}
    {post : Bool × SyncRow → AuthDir Bytes → Prop}
    (h : ∀ cooldown d', d'.log = d.log → post (true, row.apply tokens.toTokens cooldown) d') :
    (authFile c).Always (installPair row force tokens) post d :=
  always_bind.mpr (always_clock fun _ d' h' => h _ d' h')

theorem first_read_cons {e : SyncEvent Bytes} {log : List (SyncEvent Bytes)} (hlog : log ≠ []) :
    firstRead (e :: log) = firstRead log := by
  unfold firstRead
  rw [List.getLast?_cons, List.getLast?_eq_some_getLast hlog]
  rfl

theorem finish_refresh_ends [DecidableEq Bytes] {row : SyncRow} {posted : String} {fromFile : Bool}
    {refreshed : Refreshed} {log log' : List (SyncEvent Bytes)} (force : Bool)
    (refreshToken accessBefore : String) (hlive : row.removed = false)
    (himported : row.imported = true) (hlog : log ≠ []) (hreads : ∀ e ∈ log, e.IsRead)
    (hposted : Posted posted fromFile log refreshed log') (hd : d.log = log') :
    (authFile c).Always (finishRefresh c row force refreshToken accessBefore
        (loadedRefreshMs (firstRead log) refreshToken) refreshed)
      (fun r d' => RefreshEnds c row refreshToken accessBefore r.1 r.2 d'.log) d := by
  have hread : ∀ auth nowMs, ∀ e ∈ SyncEvent.read auth nowMs :: log, e.IsRead :=
    fun auth nowMs => List.forall_mem_cons.mpr ⟨trivial, hreads⟩
  cases hposted with
  | first tokens =>
    refine always_bind.mpr ((publish_minted_ends hlive himported).mono ?_)
    intro published d₁ hpublished
    refine install_pair_ends fun cooldown d₂ h₂ => ?_
    rw [h₂]
    rw [hd] at hpublished
    exact .minted cooldown hreads hpublished
  | second auth nowMs token tokens =>
    refine always_bind.mpr ((publish_minted_ends hlive himported).mono ?_)
    intro published d₁ hpublished
    refine install_pair_ends fun cooldown d₂ h₂ => ?_
    rw [h₂]
    rw [hd, ← first_read_cons (e := .read auth nowMs) hlog] at hpublished
    exact .minted cooldown (hread auth nowMs) hpublished
  | found auth nowMs tokens hpair =>
    refine install_pair_ends fun cooldown d₁ h₁ => ?_
    rw [h₁, hd]
    exact .taken auth nowMs hreads ⟨rfl, rfl, rfl, rfl, rfl⟩ rfl hpair
  | failed auth nowMs token held hfailed =>
    rename_i minting
    cases minting with
    | success tokens => exact absurd rfl (hfailed tokens)
    | authRejected status code =>
      refine always_bind.mpr (always_clock fun _ d₁ h₁ => ?_)
      rw [always_ret, h₁, hd]
      refine .stopped (hread auth nowMs) ⟨rfl, rfl, rfl, rfl, rfl⟩ ?_
      dsimp only
      cases row.provider with
      | anthropic => exact .inr rfl
      | codex => exact .inl rfl
    | transient =>
      refine always_bind.mpr (always_clock fun _ d₁ h₁ => ?_)
      rw [always_ret, h₁, hd]
      exact .stopped (hread auth nowMs) ⟨rfl, rfl, rfl, rfl, rfl⟩ (.inr rfl)

theorem refresh_ends [DecidableEq Bytes] {row : SyncRow} {force : Bool}
    {refreshToken accessBefore : String} (hlive : row.removed = false)
    (himported : row.imported = true) (hlog : d.log = []) :
    (authFile c).Always (refreshLocked c row force refreshToken accessBefore)
      (fun r d' => RefreshEnds c row refreshToken accessBefore r.1 r.2 d'.log) d := by
  have hidle : ∀ d' : AuthDir Bytes, d'.log = d.log →
      RefreshEnds c row refreshToken accessBefore false row d'.log := by
    intro d' h
    rw [h, hlog]
    exact .stopped (List.forall_mem_nil _) ⟨rfl, rfl, rfl, rfl, rfl⟩ (.inr rfl)
  unfold refreshLocked
  split
  · exact hidle d rfl
  refine always_bind.mpr (always_clock fun _ d₁ h₁ => ?_)
  split
  · exact hidle d₁ h₁
  refine always_bind.mpr (always_imported himported fun before beforeMs d₂ h₂ => ?_)
  refine always_bind.mpr (always_newer himported fun found foundMs d₃ h₃ => ?_)
  rw [h₂, h₁, hlog] at h₃
  dsimp only
  split
  · rename_i tokens htokens
    obtain ⟨a, rfl, hnewer⟩ :=
      Option.bind_eq_some_iff.mp (Option.filter_eq_some_iff.mp htokens).1
    refine install_pair_ends fun cooldown d₄ h₄ => ?_
    rw [h₄, h₃]
    exact .taken a foundMs (by simp [SyncEvent.IsRead]) ⟨rfl, rfl, rfl, rfl, rfl⟩ rfl
      (ImportedAuth.newer_tokens_pair hnewer).1
  · refine always_bind.mpr ((post_ends himported).mono fun refreshed d₄ hposted => ?_)
    rw [h₃] at hposted
    have hfirst : firstRead [.read found foundMs, .read before beforeMs] = before := rfl
    have hfinish := finish_refresh_ends (c := c) force refreshToken accessBefore hlive himported
      (List.cons_ne_nil _ _) (by simp [SyncEvent.IsRead]) hposted rfl
    rw [hfirst] at hfinish
    exact hfinish

/-! ## A retry -/

variable (c) in
inductive RetryEnds (row : SyncRow) : SyncRow → List (SyncEvent Bytes) → Prop
  | idle : RetryEnds row row []
  | flushed {pending : PendingCodexWriteback} {result : Option WriteBack} {row' : SyncRow}
      {log : List (SyncEvent Bytes)} (hpending : row.pending = some pending)
      (hflushed : Flushed c row pending [] result row' log) : RetryEnds row row' log

theorem retry_ends [DecidableEq Bytes] {row : SyncRow} (hlive : row.removed = false)
    (himported : row.imported = true) (hlog : d.log = []) :
    (authFile c).Always (retryCodexWriteback c row)
      (fun row' d' => RetryEnds c row row' d'.log) d := by
  have hhome : row.codexHome ≠ none := by
    intro h
    unfold SyncRow.imported at himported
    rw [h] at himported
    cases hprovider : row.provider <;> simp [hprovider] at himported
  unfold retryCodexWriteback
  rw [if_neg (by simp [hlive, hhome])]
  refine always_bind.mpr (always_clock fun nowMs d₁ h₁ => ?_)
  rw [hlog] at h₁
  split
  · rename_i hdue
    obtain ⟨pending, hpending⟩ : ∃ pending, row.pending = some pending := by
      cases hrow : row.pending with
      | none => simp [hrow] at hdue
      | some pending => exact ⟨pending, rfl⟩
    refine always_bind.mpr ((flush_ends row pending hlive himported hpending).mono ?_)
    intro flushed d₂ hflushed
    rw [h₁] at hflushed
    exact .flushed hpending hflushed
  · rw [always_ret, h₁]
    exact .idle

end Ends

end TeamClaude
