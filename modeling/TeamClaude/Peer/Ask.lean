import TeamClaude.Lib.SealedBox
import TeamClaude.Peer.JoinToken

/-!
# Asks and sealed replies

A one-time key that a friend seals a join key to, and the reply that carries it back. Each is pasted
as text with a magic, a version and a body, and each is read by a parser of its own.
-/

namespace TeamClaude.Invite

def askPrefix : List Char := "tcr-invite:v1:".toList

/-- `ASK_MAGIC`, `TCRA`. -/
def askMagic : List UInt8 := [0x54, 0x43, 0x52, 0x41]

def replyPrefix : List Char := "tcr-reply:v1:".toList

/-- `REPLY_MAGIC`, `TCRP`. -/
def replyMagic : List UInt8 := [0x54, 0x43, 0x52, 0x50]

def wireVersion : UInt8 := 1

def payloadVersion : UInt8 := 1

def payloadTypeKey : UInt8 := 1

structure Ask where
  key : Octets 32
  deriving DecidableEq

inductive AskRefusal
  | notAnAsk
  | cutShort
  | unknownVersion (version : UInt8)
  deriving DecidableEq

inductive ReplyRefusal
  | notOurs
  | unknownVersion (version : UInt8)
  | cutShort
  | didNotOpen
  | unknownPayload (payloadType : UInt8)
  deriving DecidableEq

structure PendingAsk where
  id : Nat
  publicKey : Octets 32
  privateKey : Octets 32
  untilMs : Int

structure Reply where
  body : List UInt8
  deriving DecidableEq

inductive Opened
  | key (token : JoinToken)
  deriving DecidableEq

/-- The frame that both shapes have: a magic and a version in front. -/
def framed (magic : List UInt8) (content : List UInt8) : List UInt8 :=
  magic ++ wireVersion :: content

namespace Ask

def wireBytes (ask : Ask) : List UInt8 :=
  framed askMagic ask.key.1

def toStringWire (base : Lib.Encoding) (ask : Ask) : List Char :=
  askPrefix ++ base.encode ask.wireBytes

def parse (base : Lib.Encoding) (pasted : List Char) : Except AskRefusal Ask :=
  match askPrefix.isPrefixOf? (Lib.trimSpace pasted) with
  | none => .error .notAnAsk
  | some body =>
    match crockfordDecode base body with
    | .error _ => .error .cutShort
    | .ok bytes =>
      if bytes.length < askMagic.length + 1 + 32 then .error .cutShort
      else if bytes.take askMagic.length ≠ askMagic then .error .notAnAsk
      else
        match bytes.drop askMagic.length with
        | [] => .error .cutShort
        | version :: rest =>
          if version ≠ wireVersion then .error (.unknownVersion version)
          else
            match DialAddrs.splitFirstChunk 32 rest with
            | some (key, _) => .ok ⟨key⟩
            | none => .error .cutShort

end Ask

def minReplyBytes : Nat := replyMagic.length + 1 + 32 + 16 + 1

namespace Reply

def toStringWire (base : Lib.Encoding) (reply : Reply) : List Char :=
  replyPrefix ++ base.encode reply.body

def parse (base : Lib.Encoding) (pasted : List Char) : Except ReplyRefusal Reply :=
  match replyPrefix.isPrefixOf? (Lib.trimSpace pasted) with
  | none => .error .notOurs
  | some body =>
    match crockfordDecode base body with
    | .error _ => .error .cutShort
    | .ok bytes =>
      if bytes.length < minReplyBytes then .error .cutShort
      else if bytes.take replyMagic.length ≠ replyMagic then .error .notOurs
      else
        match bytes.drop replyMagic.length with
        | [] => .error .cutShort
        | version :: _ =>
          if version ≠ wireVersion then .error (.unknownVersion version) else .ok ⟨bytes⟩

def sealedPart (reply : Reply) : List UInt8 :=
  reply.body.drop (replyMagic.length + 1)

end Reply

/-- The seal that is used, one `N` message of Noise. -/
abbrev Noise := Lib.SealedBox (Octets 32) (Octets 32) (List UInt8) (List UInt8)

/-- The plaintext that `seal_key` builds. -/
def sealPlaintext (token : JoinToken) : List UInt8 :=
  payloadVersion :: payloadTypeKey :: token.toV3Body

/-- `seal_key` can give this reply. -/
def SealsKey (noise : Noise) (ask : Ask) (token : JoinToken) (reply : Reply) : Prop :=
  ∃ out, noise.Sealed ask.key (sealPlaintext token) out ∧ reply = ⟨framed replyMagic out⟩

def decodeOpened (plaintext : List UInt8) : Except ReplyRefusal Opened :=
  match plaintext with
  | _version :: payloadType :: rest =>
    if payloadType = payloadTypeKey then
      match JoinToken.fromV3Body rest with
      | .ok token => .ok (.key token)
      | .error _ => .error .didNotOpen
    else .error (.unknownPayload payloadType)
  | _ => .error .didNotOpen

def liveRows (rows : List PendingAsk) (nowMs : Int) : List PendingAsk :=
  rows.filter fun row => nowMs < row.untilMs

def openReply (base : Lib.Encoding) (noise : Noise) (rows : List PendingAsk) (pasted : List Char)
    (nowMs : Int) : Except ReplyRefusal (Opened × Nat) := do
  let reply ← Reply.parse base pasted
  match noise.openFirst PendingAsk.privateKey reply.sealedPart (liveRows rows nowMs) with
  | none => .error .didNotOpen
  | some (row, plaintext) =>
    let opened ← decodeOpened plaintext
    return (opened, row.id)

section
variable {base : Lib.Encoding} {noise : Noise} {rows : List PendingAsk} {nowMs : Int}
  {pasted : List Char}

/-- Bytes whose magic and version have been checked are a frame. -/
theorem framed_of_checks {magic bytes rest : List UInt8} {version : UInt8}
    (hmagic : bytes.take magic.length = magic) (hdrop : bytes.drop magic.length = version :: rest)
    (hversion : version = wireVersion) : bytes = framed magic rest := by
  rw [← List.take_append_drop magic.length bytes, hmagic, hdrop, hversion]
  rfl

theorem take_framed (magic content : List UInt8) :
    (framed magic content).take magic.length = magic :=
  List.take_left

theorem drop_framed (magic content : List UInt8) :
    (framed magic content).drop magic.length = wireVersion :: content :=
  List.drop_left

theorem framed_inj {magic content other : List UInt8}
    (h : framed magic content = framed magic other) : content = other :=
  (List.cons.inj (List.append_cancel_left h)).2

theorem ask_parse_iff {ask : Ask} :
    Ask.parse base pasted = .ok ask ↔
      ∃ body more, Lib.trimSpace pasted = askPrefix ++ body ∧
        base.decode body = .ok (framed askMagic (ask.key.1 ++ more)) := by
  unfold Ask.parse
  constructor
  · intro h
    split at h
    · cases h
    · rename_i body hbody
      split at h
      · cases h
      · rename_i bytes hdecode
        split at h
        · cases h
        · split at h
          · cases h
          · rename_i hmagic
            split at h
            · cases h
            · rename_i version rest hdrop
              split at h
              · cases h
              · rename_i hversion
                split at h
                · rename_i key more hkey
                  cases h
                  refine ⟨body, more, Lib.strip_front_some hbody, ?_⟩
                  rw [crockford_decode_ok.mp hdecode, framed_of_checks (not_not.mp hmagic) hdrop
                    (not_not.mp hversion), DialAddrs.split_first_chunk_some hkey]
                · cases h
  · rintro ⟨body, more, hbody, hdecode⟩
    have hlen : ¬(framed askMagic (ask.key.1 ++ more)).length < askMagic.length + 1 + 32 := by
      simp only [framed, List.length_append, List.length_cons, ask.key.2]
      omega
    rw [hbody, Lib.strip_front_append]
    simp only [crockford_decode_ok.mpr hdecode]
    rw [if_neg hlen, take_framed, if_neg (not_not_intro rfl), drop_framed]
    simp only
    rw [if_neg (not_not_intro rfl), DialAddrs.split_first_chunk_append]

theorem reply_parse_iff {reply : Reply} :
    Reply.parse base pasted = .ok reply ↔
      ∃ body out, Lib.trimSpace pasted = replyPrefix ++ body ∧
        base.decode body = .ok (framed replyMagic out) ∧
          minReplyBytes ≤ (framed replyMagic out).length ∧ reply = ⟨framed replyMagic out⟩ := by
  unfold Reply.parse
  constructor
  · intro h
    split at h
    · cases h
    · rename_i body hbody
      split at h
      · cases h
      · rename_i bytes hdecode
        split at h
        · cases h
        · rename_i hlen
          split at h
          · cases h
          · rename_i hmagic
            split at h
            · cases h
            · rename_i version rest hdrop
              split at h
              · cases h
              · rename_i hversion
                cases h
                have hbytes := framed_of_checks (not_not.mp hmagic) hdrop (not_not.mp hversion)
                exact ⟨body, rest, Lib.strip_front_some hbody,
                  hbytes ▸ crockford_decode_ok.mp hdecode, hbytes ▸ Nat.not_lt.mp hlen,
                  congrArg Reply.mk hbytes⟩
  · rintro ⟨body, out, hbody, hdecode, hlen, rfl⟩
    rw [hbody, Lib.strip_front_append]
    simp only [crockford_decode_ok.mpr hdecode]
    rw [if_neg (Nat.not_lt.mpr hlen), take_framed, if_neg (not_not_intro rfl), drop_framed]
    simp only
    rw [if_neg (not_not_intro rfl)]

theorem sealed_part_framed (out : List UInt8) :
    (Reply.mk (framed replyMagic out)).sealedPart = out := rfl

theorem decode_opened_iff {plaintext : List UInt8} {token : JoinToken} :
    decodeOpened plaintext = .ok (.key token) ↔
      ∃ version, plaintext = version :: payloadTypeKey :: token.toV3Body ∧ token.Fits ∧
        token.pasted = token := by
  unfold decodeOpened
  constructor
  · intro h
    split at h
    · rename_i version payloadType rest
      split at h
      · rename_i htype
        split at h
        · rename_i found hfound
          cases h
          obtain ⟨hrest, hfits, hpasted⟩ := JoinToken.from_v3_body_ok hfound
          exact ⟨version, by rw [htype, hrest], hfits, hpasted⟩
        · cases h
      · cases h
    · cases h
  · rintro ⟨version, rfl, hfits, hpasted⟩
    simp only [if_true, JoinToken.from_v3_body_to token hfits, hpasted]

/-- A reply is opened by the first live row whose key opens it. -/
theorem open_reply_iff {token : JoinToken} {id : Nat} :
    openReply base noise rows pasted nowMs = .ok (.key token, id) ↔
      ∃ reply row plaintext, Reply.parse base pasted = .ok reply ∧
        noise.openFirst PendingAsk.privateKey reply.sealedPart (liveRows rows nowMs) =
          some (row, plaintext) ∧
        decodeOpened plaintext = .ok (.key token) ∧ row.id = id := by
  unfold openReply
  constructor
  · intro h
    obtain ⟨reply, hreply, h⟩ := Lib.bind_ok.mp h
    split at h
    · cases h
    · rename_i row plaintext hopen
      obtain ⟨opened, hdecode, h⟩ := Lib.bind_ok.mp h
      cases h
      exact ⟨reply, row, plaintext, hreply, hopen, hdecode, rfl⟩
  · rintro ⟨reply, row, plaintext, hreply, hopen, hdecode, rfl⟩
    simp only [hreply, bind, Except.bind, hopen, hdecode]
    rfl

/-- The addresses of a key are specified and have a port. -/
def Dials (token : JoinToken) : Prop :=
  ∀ addr ∈ token.sockets, addr.ip.isUnspecified = false ∧ addr.port ≠ 0

/-- What a paste is accepted as can be dialled, and the paste is what would be written for it. -/
structure Canonical (base : Lib.Encoding) (noise : Noise) (rows : List PendingAsk) (nowMs : Int)
    (pasted : List Char) : Prop where
  key : ∀ token, JoinToken.parse base pasted = .ok token → Dials token
  ask : ∀ ask, Ask.parse base pasted = .ok ask →
    ∃ body, Lib.trimSpace pasted = askPrefix ++ body ∧
      askPrefix ++ body.map Char.toUpper = ask.toStringWire base
  reply : ∀ token id, openReply base noise rows pasted nowMs = .ok (.key token, id) → Dials token
  opened : ∀ token id, openReply base noise rows pasted nowMs = .ok (.key token, id) →
    ∃ reply row, Reply.parse base pasted = .ok reply ∧ row.id = id ∧
      noise.openFirst PendingAsk.privateKey reply.sealedPart (liveRows rows nowMs) =
        some (row, sealPlaintext token)

/-- A v3 key spells only addresses that can be dialled, nothing stands behind the key of an ask, and
the plaintext of a key that was sealed to an ask has the version of this build and only such
addresses. -/
structure Clean (base : Lib.Encoding) (noise : Noise) (rows : List PendingAsk) (nowMs : Int)
    (pasted : List Char) : Prop where
  key : ∀ body token, Lib.trimSpace pasted = tokenPrefixV3 ++ body →
    base.decode body = .ok (JoinToken.v3Bytes token) → token.Fits → Dials token
  ask : ∀ body (key : Octets 32) more, Lib.trimSpace pasted = askPrefix ++ body →
    base.decode body = .ok (framed askMagic (key.1 ++ more)) → more = []
  reply : ∀ body out row version token, Lib.trimSpace pasted = replyPrefix ++ body →
    base.decode body = .ok (framed replyMagic out) →
    minReplyBytes ≤ (framed replyMagic out).length →
    noise.SealedFirst PendingAsk.privateKey out (liveRows rows nowMs) row
      (version :: payloadTypeKey :: JoinToken.toV3Body token) →
    token.Fits → version = payloadVersion ∧ Dials token

theorem dials_pasted {token : JoinToken} : Dials token.pasted ↔ Dials token := by
  unfold Dials
  rw [JoinToken.sockets_pasted]

/-- A key written in fields has only addresses that can be dialled; one written as a run has those
that it spells. -/
theorem join_token_parse_ok {token : JoinToken} (h : JoinToken.parse base pasted = .ok token) :
    Dials token ∨ ∃ body, Lib.trimSpace pasted = tokenPrefixV3 ++ body ∧
      base.decode body = .ok token.v3Bytes ∧ token.Fits := by
  unfold JoinToken.parse at h
  simp only at h
  split at h
  · rename_i body hbody
    obtain ⟨hdecode, hfits, -⟩ := JoinToken.parse_v3_ok h
    exact .inr ⟨body, Lib.strip_front_some hbody, hdecode, hfits⟩
  · split at h
    · exact .inl (JoinToken.parse_fields_ok h)
    · split at h
      · exact .inl (JoinToken.parse_fields_ok h)
      · cases h

theorem key_iff :
    (∀ token, JoinToken.parse base pasted = .ok token → Dials token) ↔
      ∀ body token, Lib.trimSpace pasted = tokenPrefixV3 ++ body →
        base.decode body = .ok (JoinToken.v3Bytes token) → token.Fits → Dials token := by
  constructor
  · intro h body token hbody hdecode hfits
    have hparse : JoinToken.parse base pasted = .ok token.pasted := by
      unfold JoinToken.parse
      simp only [hbody, Lib.strip_front_append]
      exact JoinToken.parse_v3_bytes hfits hdecode
    exact dials_pasted.mp (h _ hparse)
  · intro h token hparse
    rcases join_token_parse_ok hparse with hdials | ⟨body, hbody, hdecode, hfits⟩
    · exact hdials
    · exact h body token hbody hdecode hfits

theorem ask_iff (hbase : CodecLawful base) :
    (∀ ask, Ask.parse base pasted = .ok ask → ∃ body, Lib.trimSpace pasted = askPrefix ++ body ∧
      askPrefix ++ body.map Char.toUpper = ask.toStringWire base) ↔
      ∀ body (key : Octets 32) more, Lib.trimSpace pasted = askPrefix ++ body →
        base.decode body = .ok (framed askMagic (key.1 ++ more)) → more = [] := by
  constructor
  · intro h body key more hbody hdecode
    obtain ⟨other, hother, hupper⟩ := h ⟨key⟩ (ask_parse_iff.mpr ⟨body, more, hbody, hdecode⟩)
    rw [hbody] at hother
    rw [← List.append_cancel_left hother, upper_of_decode hbase hdecode] at hupper
    have hwire := encode_inj hbase (List.append_cancel_left hupper)
    have hcontent := framed_inj hwire
    exact List.append_cancel_left (hcontent.trans (List.append_nil _).symm)
  · intro h ask hparse
    obtain ⟨body, more, hbody, hdecode⟩ := ask_parse_iff.mp hparse
    have hnil := h body ask.key more hbody hdecode
    rw [hnil, List.append_nil] at hdecode
    exact ⟨body, hbody, congrArg (askPrefix ++ ·) (upper_of_decode hbase hdecode)⟩

theorem reply_iff (hnoise : noise.Ideal) :
    ((∀ token id, openReply base noise rows pasted nowMs = .ok (.key token, id) → Dials token) ∧
      ∀ token id, openReply base noise rows pasted nowMs = .ok (.key token, id) →
        ∃ reply row, Reply.parse base pasted = .ok reply ∧ row.id = id ∧
          noise.openFirst PendingAsk.privateKey reply.sealedPart (liveRows rows nowMs) =
            some (row, sealPlaintext token)) ↔
      ∀ body out row version token, Lib.trimSpace pasted = replyPrefix ++ body →
        base.decode body = .ok (framed replyMagic out) →
        minReplyBytes ≤ (framed replyMagic out).length →
        noise.SealedFirst PendingAsk.privateKey out (liveRows rows nowMs) row
          (version :: payloadTypeKey :: JoinToken.toV3Body token) →
        token.Fits → version = payloadVersion ∧ Dials token := by
  constructor
  · rintro ⟨hdials, hopened⟩ body out row version token hbody hdecode hlen hsealed hfits
    have hreply : Reply.parse base pasted = .ok ⟨framed replyMagic out⟩ :=
      reply_parse_iff.mpr ⟨body, out, hbody, hdecode, hlen, rfl⟩
    have hfirst := hnoise.open_first.mpr hsealed
    have hopen : openReply base noise rows pasted nowMs = .ok (.key token.pasted, row.id) := by
      refine open_reply_iff.mpr ⟨_, row, _, hreply, hfirst, ?_, rfl⟩
      exact decode_opened_iff.mpr ⟨version, by rw [JoinToken.to_v3_body_pasted], hfits.pasted,
        token.pasted_pasted⟩
    obtain ⟨reply, other, hparse, -, hfound⟩ := hopened _ _ hopen
    rw [hreply] at hparse
    cases hparse
    rw [sealed_part_framed, hfirst] at hfound
    have hplaintext := (Prod.ext_iff.mp (Option.some.inj hfound)).2
    exact ⟨(List.cons.inj hplaintext).1, dials_pasted.mp (hdials _ _ hopen)⟩
  · intro h
    have hsealed : ∀ token id, openReply base noise rows pasted nowMs = .ok (.key token, id) →
        Dials token ∧ ∃ reply row, Reply.parse base pasted = .ok reply ∧ row.id = id ∧
          noise.openFirst PendingAsk.privateKey reply.sealedPart (liveRows rows nowMs) =
            some (row, sealPlaintext token) := by
      intro token id hopen
      obtain ⟨reply, row, plaintext, hparse, hfirst, hdecode, hid⟩ := open_reply_iff.mp hopen
      obtain ⟨body, out, hbody, hbytes, hlen, rfl⟩ := reply_parse_iff.mp hparse
      obtain ⟨version, rfl, hfits, -⟩ := decode_opened_iff.mp hdecode
      obtain ⟨hversion, hdials⟩ := h body out row version token hbody hbytes hlen
        (hnoise.open_first.mp hfirst) hfits
      rw [hversion] at hfirst
      exact ⟨hdials, _, row, hparse, hid, hfirst⟩
    exact ⟨fun token id hopen => (hsealed token id hopen).1,
      fun token id hopen => (hsealed token id hopen).2⟩

/-- A reply that is opened from a canonical paste is one that `seal_key` gives for the key in it, to
the row that it opened for. -/
theorem Canonical.seals_key (hnoise : noise.Ideal) (h : Canonical base noise rows nowMs pasted)
    {token : JoinToken} {id : Nat}
    (hopen : openReply base noise rows pasted nowMs = .ok (.key token, id)) :
    ∃ (reply : Reply) (row : PendingAsk), Reply.parse base pasted = .ok reply ∧ row.id = id ∧
      SealsKey noise ⟨noise.publicOf row.privateKey⟩ token reply := by
  obtain ⟨reply, row, hparse, hid, hfirst⟩ := h.opened token id hopen
  obtain ⟨body, out, -, -, -, rfl⟩ := reply_parse_iff.mp hparse
  exact ⟨_, row, hparse, hid, out, (hnoise.open_first.mp hfirst).sealed, rfl⟩

/-- Every paste that is accepted is canonical and can be dialled exactly when it is clean. -/
theorem paste_canonical_iff (hbase : CodecLawful base) (hnoise : noise.Ideal)
    (rows : List PendingAsk) (nowMs : Int) (pasted : List Char) :
    Canonical base noise rows nowMs pasted ↔ Clean base noise rows nowMs pasted := by
  constructor
  · intro h
    exact ⟨key_iff.mp h.key, (ask_iff hbase).mp h.ask, (reply_iff hnoise).mp ⟨h.reply, h.opened⟩⟩
  · intro h
    obtain ⟨hreply, hopened⟩ := (reply_iff hnoise).mpr h.reply
    exact ⟨key_iff.mpr h.key, (ask_iff hbase).mpr h.ask, hreply, hopened⟩

end

/-- A seal whose output is the key, room for a tag and the message. -/
def exampleNoise : Noise where
  publicOf := id
  Sealed := fun key msg out => out = (key.1 ++ List.replicate 16 0) ++ msg
  openSealed := fun key out => (key.1 ++ List.replicate 16 0).isPrefixOf? out

theorem example_noise_ideal : exampleNoise.Ideal where
  open_iff := by
    intro key out msg
    constructor
    · exact Lib.strip_front_some
    · rintro rfl
      exact Lib.strip_front_append _ _

/-- A key with the address that its listener is bound to. -/
def unspecifiedKey : JoinToken where
  addrs := [⟨.v4 ⟨0, 0, 0, 0⟩ 7755, .fromKey⟩]
  registrar := JoinToken.exampleKey.registrar
  secret := JoinToken.exampleKey.secret

def exampleRow : PendingAsk where
  id := 1
  publicKey := ⟨List.replicate 32 5, rfl⟩
  privateKey := ⟨List.replicate 32 5, rfl⟩
  untilMs := 600000

theorem example_paste_canonical_iff :
    CodecLawful crockford.encoding ∧ exampleNoise.Ideal ∧
      (Canonical crockford.encoding exampleNoise [exampleRow] 0
          (JoinToken.exampleKey.toTokenV3 crockford.encoding) ↔
        Clean crockford.encoding exampleNoise [exampleRow] 0
          (JoinToken.exampleKey.toTokenV3 crockford.encoding)) :=
  ⟨crockford_lawful, example_noise_ideal,
    paste_canonical_iff crockford_lawful example_noise_ideal _ _ _⟩

/-- A reply to the row, its plaintext of version 2. -/
def laterReply : List UInt8 :=
  framed replyMagic ((exampleRow.privateKey.1 ++ List.replicate 16 0) ++
    2 :: payloadTypeKey :: JoinToken.exampleKey.toV3Body)

theorem trim_wire {front : List Char} (hfront : front.all (Lib.isWhiteSpace · = false) = true)
    (bytes : List UInt8) :
    Lib.trimSpace (front ++ crockford.encoding.encode bytes) =
      front ++ crockford.encoding.encode bytes := by
  refine Lib.trim_space_none fun c hc => ?_
  rcases List.mem_append.mp hc with hc | hc
  · exact Lib.forall_mem_of_all hfront c hc
  · exact encode_no_space crockford_lawful bytes c hc

/-- A v3 key with an unspecified address, an ask with a byte too many and a reply whose plaintext
has another version are accepted. -/
theorem pastes_not_canonical :
    ¬Canonical crockford.encoding exampleNoise [exampleRow] 0
        (unspecifiedKey.toTokenV3 crockford.encoding) ∧
    ¬Canonical crockford.encoding exampleNoise [exampleRow] 0
        (askPrefix ++ crockford.encoding.encode
          (framed askMagic (exampleRow.publicKey.1 ++ [0]))) ∧
    ¬Canonical crockford.encoding exampleNoise [exampleRow] 0
        (Reply.toStringWire crockford.encoding ⟨laterReply⟩) := by
  refine ⟨fun h => ?_, fun h => ?_, fun h => ?_⟩
  · have hdials := key_iff.mp h.key _ unspecifiedKey (trim_wire (by decide) _)
      (crockford_lawful.decode_encode _) ⟨by decide, by decide, by decide⟩
    exact absurd (hdials (.v4 ⟨0, 0, 0, 0⟩ 7755) (by decide)).1 (by decide)
  · have hnil := (ask_iff crockford_lawful).mp h.ask _ exampleRow.publicKey [0]
      (trim_wire (by decide) _) (crockford_lawful.decode_encode _)
    cases hnil
  · have hversion := (reply_iff example_noise_ideal).mp ⟨h.reply, h.opened⟩ _
      ((exampleRow.privateKey.1 ++ List.replicate 16 0) ++
        2 :: payloadTypeKey :: JoinToken.exampleKey.toV3Body)
      exampleRow 2 JoinToken.exampleKey (trim_wire (by decide) _)
      (crockford_lawful.decode_encode _) (by decide +kernel) (.here rfl)
      JoinToken.example_key_dialable.toFits
    exact absurd hversion.1 (by decide)

end TeamClaude.Invite
