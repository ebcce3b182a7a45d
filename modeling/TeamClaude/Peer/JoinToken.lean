import TeamClaude.Peer.Key32

/-!
# Join keys

The key that is pasted from one machine to another: addresses to dial, the registrar's public key
and a secret. It is written as plain fields or as one opaque run, and both are read back.
-/

namespace TeamClaude

open Lib.Net (SocketAddr)

inductive DialAddressKind
  | chosen
  | tailscale
  | internet
  | lan
  | fromKey
  deriving DecidableEq

structure DialAddress where
  addr : SocketAddr
  kind : DialAddressKind
  deriving DecidableEq

structure JoinToken where
  addrs : List DialAddress
  registrar : PeerKey
  secret : Octets 32
  deriving DecidableEq

def tokenPrefix : List Char := "tcr-join:v1:".toList

def tokenPrefixV2 : List Char := "tcr-join:v2:".toList

def tokenPrefixV3 : List Char := "tcr-join:v3:".toList

/-- `TOKEN_V3_MAGIC`, `TCRK`. -/
def tokenV3Magic : List UInt8 := [0x54, 0x43, 0x52, 0x4B]

def tokenV3Version : UInt8 := 1

inductive KeyVersion
  | v1
  | v2
  deriving DecidableEq

inductive JoinRefusal
  | addresses (refusal : DialAddrs.DecodeRefusal)
  | wrongLength
  | noAddress
  | notAKey
  | fewFields
  | notAnAddress (field : List Char)
  | unspecified (addr : SocketAddr)
  | portZero (addr : SocketAddr)
  | registrar (refusal : PeerIdError)
  | secret (refusal : PeerIdError)
  | notBase32 (refusal : PeerIdError)
  | short
  | noMagic
  | unknownVersion (version : UInt8)
  deriving DecidableEq

def DialAddress.ofKey (addr : SocketAddr) : DialAddress :=
  ⟨addr, .fromKey⟩

def parseDialAddr (field : List Char) : Except JoinRefusal SocketAddr :=
  match Lib.Net.parseSocketAddr field with
  | none => .error (.notAnAddress field)
  | some addr =>
    if addr.ip.isUnspecified then .error (.unspecified addr)
    else if addr.port = 0 then .error (.portZero addr)
    else .ok addr

/-- The address field of a key: one address, or a list with commas. -/
def parseAddrs (version : KeyVersion) (field : List Char) :
    Except JoinRefusal (List SocketAddr) :=
  match version with
  | .v1 => do
    let addr ← parseDialAddr field
    return [addr]
  | .v2 => (field.splitOn ',').mapM parseDialAddr

namespace JoinToken

def new (addrs : List SocketAddr) (registrar : PeerKey) (secret : Octets 32) : JoinToken :=
  ⟨addrs.map DialAddress.ofKey, registrar, secret⟩

def sockets (t : JoinToken) : List SocketAddr :=
  t.addrs.map DialAddress.addr

/-- `==`, which does not look at the kinds of the addresses. -/
def same (ours theirs : JoinToken) : Bool :=
  ours.registrar == theirs.registrar && ours.secret == theirs.secret &&
    ours.addrs.length == theirs.addrs.length &&
      (ours.addrs.zip theirs.addrs).all fun both => both.1.addr == both.2.addr

def toV3Body (t : JoinToken) : List UInt8 :=
  DialAddrs.encode t.sockets ++ (t.registrar.key.1 ++ t.secret.1)

/-- What a v3 key spells: magic, version and the body. -/
def v3Bytes (t : JoinToken) : List UInt8 :=
  tokenV3Magic ++ tokenV3Version :: t.toV3Body

def fromV3Body (bytes : List UInt8) : Except JoinRefusal JoinToken :=
  match DialAddrs.decodePrefix bytes with
  | .error refusal => .error (.addresses refusal)
  | .ok (addrs, rest) =>
    if h : rest.length = 64 then
      if addrs = [] then .error .noAddress
      else
        .ok (new addrs ⟨⟨rest.take 32, by rw [List.length_take, h]; rfl⟩⟩
          ⟨rest.drop 32, by rw [List.length_drop, h]⟩)
    else .error .wrongLength

section
variable (base : Lib.Encoding)

def toToken (t : JoinToken) : List Char :=
  tokenPrefixV2 ++ ([','].intercalate (t.sockets.map SocketAddr.display) ++
    ':' :: (t.registrar.toWire base ++ ':' :: encodeKey32 base t.secret))

def toTokenV3 (t : JoinToken) : List Char :=
  tokenPrefixV3 ++ base.encode t.v3Bytes

def parseV3 (body : List Char) : Except JoinRefusal JoinToken :=
  match crockfordDecode base body with
  | .error refusal => .error (.notBase32 refusal)
  | .ok bytes =>
    if bytes.length < tokenV3Magic.length + 1 + 1 + 32 + 32 then .error .short
    else if bytes.take tokenV3Magic.length ≠ tokenV3Magic then .error .noMagic
    else
      match bytes.drop tokenV3Magic.length with
      | [] => .error .short
      | version :: rest =>
        if version ≠ tokenV3Version then .error (.unknownVersion version) else fromV3Body rest

/-- The three fields of a v2 or v1 key, split from the right. -/
def parseFields (version : KeyVersion) (body : List Char) : Except JoinRefusal JoinToken :=
  match Lib.rsplitOnce ':' body with
  | none => .error .fewFields
  | some (front, secret) =>
    match Lib.rsplitOnce ':' front with
    | none => .error .fewFields
    | some (addrs, registrar) => do
      let addrs ← parseAddrs version addrs
      if addrs = [] then .error .noAddress
      else
        let registrar ← (PeerKey.parse base registrar).mapError .registrar
        let secret ← (decodeKey32 base secret).mapError .secret
        return new addrs registrar secret

def parse (token : List Char) : Except JoinRefusal JoinToken :=
  let token := Lib.trimSpace token
  match tokenPrefixV3.isPrefixOf? token with
  | some body => parseV3 base body
  | none =>
    match tokenPrefixV2.isPrefixOf? token with
    | some body => parseFields base .v2 body
    | none =>
      match tokenPrefix.isPrefixOf? token with
      | some body => parseFields base .v1 body
      | none => .error .notAKey

end

/-- A key as it is read back: what it is dialled at, without what this machine knew of that. -/
def pasted (t : JoinToken) : JoinToken :=
  new t.sockets t.registrar t.secret

theorem sockets_new (addrs : List SocketAddr) (registrar : PeerKey) (secret : Octets 32) :
    (new addrs registrar secret).sockets = addrs := by
  unfold sockets new
  rw [List.map_map]
  exact List.map_id _

theorem same_pasted (t : JoinToken) : t.pasted.same t = true := by
  have hzip : ∀ addrs : List DialAddress,
      (((addrs.map DialAddress.addr).map DialAddress.ofKey).zip addrs).all
        (fun both => both.1.addr == both.2.addr) = true := by
    intro addrs
    induction addrs with
    | nil => rfl
    | cons addr addrs ih =>
      simp only [List.map_cons, List.zip_cons_cons, List.all_cons, ih, Bool.and_true]
      exact beq_self_eq_true addr.addr
  unfold same pasted new sockets
  simp only [beq_self_eq_true, List.length_map, hzip, Bool.and_true]

/-- The addresses of a key are one to four, of no scope. -/
structure Fits (t : JoinToken) : Prop where
  some_addr : t.sockets ≠ []
  few : t.sockets.length ≤ maxRecordEndpoints
  plain : ∀ addr ∈ t.sockets, addr.Plain

theorem sockets_pasted (t : JoinToken) : t.pasted.sockets = t.sockets :=
  sockets_new _ _ _

theorem Fits.pasted {t : JoinToken} (h : t.Fits) : t.pasted.Fits where
  some_addr := by
    rw [sockets_pasted]
    exact h.some_addr
  few := by
    rw [sockets_pasted]
    exact h.few
  plain := by
    rw [sockets_pasted]
    exact h.plain

theorem pasted_pasted (t : JoinToken) : t.pasted.pasted = t.pasted := by
  rw [JoinToken.pasted, sockets_pasted]
  rfl

theorem to_v3_body_pasted (t : JoinToken) : t.pasted.toV3Body = t.toV3Body := by
  rw [toV3Body, sockets_pasted]
  rfl

theorem from_v3_body_to (t : JoinToken) (h : t.Fits) : fromV3Body t.toV3Body = .ok t.pasted := by
  have hdecode := DialAddrs.decode_prefix_encode h.few h.plain (t.registrar.key.1 ++ t.secret.1)
  have hlen : (t.registrar.key.1 ++ t.secret.1).length = 64 := by
    rw [List.length_append, t.registrar.key.2, t.secret.2]
  have htake : (t.registrar.key.1 ++ t.secret.1).take 32 = t.registrar.key.1 :=
    List.take_left' t.registrar.key.2
  have hdrop : (t.registrar.key.1 ++ t.secret.1).drop 32 = t.secret.1 :=
    List.drop_left' t.registrar.key.2
  unfold fromV3Body toV3Body
  rw [hdecode]
  simp only
  rw [dif_pos hlen, if_neg h.some_addr]
  simp only [htake, hdrop]
  rfl

/-- What is read as a body is the body of the key that it gives. -/
theorem from_v3_body_ok {bytes : List UInt8} {t : JoinToken} (h : fromV3Body bytes = .ok t) :
    bytes = t.toV3Body ∧ t.Fits ∧ t.pasted = t := by
  unfold fromV3Body at h
  split at h
  · cases h
  · rename_i addrs rest hdecode
    split at h
    · rename_i hlen
      split at h
      · cases h
      · rename_i hne
        cases h
        obtain ⟨hbytes, hfew, hplain⟩ := DialAddrs.decode_prefix_ok hdecode
        refine ⟨?_, ⟨?_, ?_, ?_⟩, ?_⟩
        · rw [toV3Body, sockets_new, hbytes]
          exact congrArg (DialAddrs.encode addrs ++ ·) (List.take_append_drop 32 rest).symm
        · rw [sockets_new]
          exact hne
        · rw [sockets_new]
          exact hfew
        · rw [sockets_new]
          exact hplain
        · rw [pasted, sockets_new]
          rfl
    · cases h

theorem to_v3_body_front {t u : JoinToken} (ht : t.Fits) (hu : u.Fits)
    (h : t.toV3Body <+: u.toV3Body) : t.toV3Body = u.toV3Body := by
  obtain ⟨more, hmore⟩ := h
  have htail : ∀ v : JoinToken, (v.registrar.key.1 ++ v.secret.1).length = 64 := by
    intro v
    rw [List.length_append, v.registrar.key.2, v.secret.2]
  have hwhole := DialAddrs.decode_prefix_encode hu.few hu.plain (u.registrar.key.1 ++ u.secret.1)
  have hpart := DialAddrs.decode_prefix_encode ht.few ht.plain
    ((t.registrar.key.1 ++ t.secret.1) ++ more)
  have hsplit : u.toV3Body =
      DialAddrs.encode t.sockets ++ ((t.registrar.key.1 ++ t.secret.1) ++ more) := by
    rw [← hmore, toV3Body, List.append_assoc]
  rw [← hsplit] at hpart
  change DialAddrs.decodePrefix u.toV3Body = _ at hwhole
  rw [hwhole] at hpart
  have hrest := congrArg List.length (Prod.ext_iff.mp (Except.ok.inj hpart)).2
  simp only [@List.length_append _ _ more, htail] at hrest
  have hnil : more = [] := List.eq_nil_of_length_eq_zero (by omega)
  rw [← hmore, hnil, List.append_nil]

section
variable {base : Lib.Encoding} {t : JoinToken}

theorem v3_bytes_length (t : JoinToken) : 70 ≤ t.v3Bytes.length := by
  simp only [v3Bytes, toV3Body, DialAddrs.encode, tokenV3Magic, List.length_append,
    List.length_cons, List.length_nil, t.registrar.key.2, t.secret.2]
  omega

theorem v3_bytes_front {t u : JoinToken} (ht : t.Fits) (hu : u.Fits)
    (h : t.v3Bytes <+: u.v3Bytes) : t.v3Bytes = u.v3Bytes := by
  unfold v3Bytes at h ⊢
  rw [List.prefix_append_right_inj, List.cons_prefix_cons] at h
  rw [to_v3_body_front ht hu h.2]

/-- A v3 body that reads as the bytes of a key gives that key. -/
theorem parse_v3_bytes (h : t.Fits) {body : List Char} (hbody : base.decode body = .ok t.v3Bytes) :
    parseV3 base body = .ok t.pasted := by
  have hlen := v3_bytes_length t
  unfold parseV3
  rw [crockford_decode_ok.mpr hbody]
  simp only
  rw [if_neg (by simp only [tokenV3Magic, List.length_cons, List.length_nil]; omega)]
  rw [v3Bytes, List.take_left, List.drop_left, if_neg (not_not_intro rfl)]
  simp only
  rw [if_neg (not_not_intro rfl), from_v3_body_to t h]

theorem parse_v3_ok {body : List Char} (h : parseV3 base body = .ok t) :
    base.decode body = .ok t.v3Bytes ∧ t.Fits ∧ t.pasted = t := by
  unfold parseV3 at h
  split at h
  · cases h
  · rename_i bytes hdecode
    split at h
    · cases h
    · split at h
      · cases h
      · rename_i hmagic
        split at h
        · cases h
        · rename_i version rest hdrop
          split at h
          · cases h
          · rename_i hversion
            obtain ⟨hrest, hfits, hpasted⟩ := from_v3_body_ok h
            have hbytes : bytes = t.v3Bytes := by
              calc bytes = bytes.take tokenV3Magic.length ++ bytes.drop tokenV3Magic.length :=
                    (List.take_append_drop _ _).symm
                _ = tokenV3Magic ++ version :: rest := by rw [not_not.mp hmagic, hdrop]
                _ = t.v3Bytes := by rw [not_not.mp hversion, hrest, v3Bytes]
            exact ⟨hbytes ▸ crockford_decode_ok.mp hdecode, hfits, hpasted⟩

/-- The addresses of a key are one to four, of no scope, and each can be dialled. -/
structure Dialable (t : JoinToken) : Prop extends t.Fits where
  dialable : ∀ addr ∈ t.sockets, addr.ip.isUnspecified = false ∧ addr.port ≠ 0

theorem parse_dial_addr_display {addr : SocketAddr} (hplain : addr.Plain)
    (h : addr.ip.isUnspecified = false ∧ addr.port ≠ 0) :
    parseDialAddr addr.display = .ok addr := by
  unfold parseDialAddr
  rw [Lib.Net.parse_display hplain]
  simp only
  rw [if_neg (by rw [h.1]; exact Bool.false_ne_true), if_neg h.2]

theorem parse_dial_addr_ok {field : List Char} {addr : SocketAddr}
    (h : parseDialAddr field = .ok addr) : addr.ip.isUnspecified = false ∧ addr.port ≠ 0 := by
  unfold parseDialAddr at h
  split at h
  · cases h
  · split at h
    · cases h
    · split at h
      · cases h
      · rename_i hip hport
        cases h
        exact ⟨Bool.eq_false_iff.mpr hip, hport⟩

theorem map_m_parse_dial_addr {addrs : List SocketAddr} (hplain : ∀ addr ∈ addrs, addr.Plain)
    (h : ∀ addr ∈ addrs, addr.ip.isUnspecified = false ∧ addr.port ≠ 0) :
    (addrs.map SocketAddr.display).mapM parseDialAddr = .ok addrs := by
  induction addrs with
  | nil => rfl
  | cons addr addrs ih =>
    have hfirst := parse_dial_addr_display (hplain addr List.mem_cons_self)
      (h addr List.mem_cons_self)
    have hrest := ih (fun a ha => hplain a (List.mem_cons_of_mem addr ha))
      (fun a ha => h a (List.mem_cons_of_mem addr ha))
    rw [List.map_cons, List.mapM_cons, hfirst, hrest]
    rfl

theorem map_m_parse_dial_addr_ok {fields : List (List Char)} {addrs : List SocketAddr}
    (h : fields.mapM parseDialAddr = .ok addrs) :
    ∀ addr ∈ addrs, addr.ip.isUnspecified = false ∧ addr.port ≠ 0 := by
  intro addr haddr
  obtain ⟨field, -, hfield⟩ := Lib.map_m_ok h addr haddr
  exact parse_dial_addr_ok hfield

/-- The addresses of a key that is written in fields can be dialled. -/
theorem parse_fields_ok {version : KeyVersion} {body : List Char}
    (h : parseFields base version body = .ok t) :
    ∀ addr ∈ t.sockets, addr.ip.isUnspecified = false ∧ addr.port ≠ 0 := by
  unfold parseFields at h
  split at h
  · cases h
  · split at h
    · cases h
    · rename_i field registrar _
      obtain ⟨addrs, haddrs, h⟩ := Lib.bind_ok.mp h
      have hdial : ∀ addr ∈ addrs, addr.ip.isUnspecified = false ∧ addr.port ≠ 0 := by
        cases version with
        | v1 =>
          obtain ⟨addr, haddr, hone⟩ := Lib.bind_ok.mp haddrs
          cases hone
          intro other hother
          rw [List.mem_singleton.mp hother]
          exact parse_dial_addr_ok haddr
        | v2 => exact map_m_parse_dial_addr_ok haddrs
      split at h
      · cases h
      · obtain ⟨registrar, -, h⟩ := Lib.bind_ok.mp h
        obtain ⟨secret, -, h⟩ := Lib.bind_ok.mp h
        cases h
        rw [sockets_new]
        exact hdial

theorem split_displays {addrs : List SocketAddr} (h : addrs ≠ []) :
    ([','].intercalate (addrs.map SocketAddr.display)).splitOn ',' =
      addrs.map SocketAddr.display := by
  refine List.splitOn_intercalate ',' ?_ (fun hnil => h (List.map_eq_nil_iff.mp hnil))
  intro field hfield
  obtain ⟨addr, -, rfl⟩ := List.mem_map.mp hfield
  exact Lib.Net.comma_not_mem_display addr

/-- The fields of a key as `to_token` writes them are read back. -/
theorem parse_fields_to_token (hbase : CodecLawful base) (h : t.Dialable) :
    parseFields base .v2 ([','].intercalate (t.sockets.map SocketAddr.display) ++
      ':' :: (t.registrar.toWire base ++ ':' :: encodeKey32 base t.secret)) = .ok t.pasted := by
  obtain ⟨addrs, haddrs⟩ : ∃ addrs, addrs =
    [','].intercalate (t.sockets.map SocketAddr.display) := ⟨_, rfl⟩
  have hsecret : Lib.rsplitOnce ':'
      (addrs ++ ':' :: (t.registrar.toWire base ++ ':' :: encodeKey32 base t.secret)) =
        some (addrs ++ ':' :: t.registrar.toWire base, encodeKey32 base t.secret) := by
    have hsplit := Lib.rsplit_once_append (colon_not_mem_encode hbase t.secret.1)
      (addrs ++ ':' :: t.registrar.toWire base)
    rwa [List.append_assoc, List.cons_append] at hsplit
  have hregistrar : Lib.rsplitOnce ':' (addrs ++ ':' :: t.registrar.toWire base) =
      some (addrs, t.registrar.toWire base) :=
    Lib.rsplit_once_append (colon_not_mem_encode hbase t.registrar.key.1) addrs
  unfold parseFields
  rw [← haddrs, hsecret]
  simp only
  rw [hregistrar, haddrs]
  have hparse : parseAddrs .v2 ([','].intercalate (t.sockets.map SocketAddr.display)) =
      .ok t.sockets := by
    rw [parseAddrs, split_displays h.some_addr]
    exact map_m_parse_dial_addr h.plain h.dialable
  simp only [hparse, bind, Except.bind]
  rw [if_neg h.some_addr, peer_key_parse_to_wire hbase, decode_key32_encode hbase]
  rfl

def Around (text pasted : List Char) : Prop :=
  ∃ front back, (∀ c ∈ front, Lib.isWhiteSpace c = true) ∧
    (∀ c ∈ back, Lib.isWhiteSpace c = true) ∧ pasted = front ++ (text ++ back)

theorem around_self (text : List Char) : Around text text :=
  ⟨[], [], fun _ h => absurd h List.not_mem_nil, fun _ h => absurd h List.not_mem_nil,
    by rw [List.append_nil, List.nil_append]⟩

theorem Around.trim {text pasted : List Char} (h : Around text pasted)
    (hfirst : ∀ c ∈ text.head?, Lib.isWhiteSpace c = false)
    (hlast : ∀ c ∈ text.getLast?, Lib.isWhiteSpace c = false) : Lib.trimSpace pasted = text := by
  obtain ⟨front, back, hfront, hback, rfl⟩ := h
  exact Lib.trim_space_around hfront hback hfirst hlast

theorem parse_to_token (hbase : CodecLawful base) (h : t.Dialable) {pasted : List Char}
    (hpasted : Around (t.toToken base) pasted) : parse base pasted = .ok t.pasted := by
  have hfirst : ∀ c ∈ (t.toToken base).head?, Lib.isWhiteSpace c = false := by
    intro c hc
    cases hc
    decide
  have hsecret : t.secret.1 ≠ [] := by
    intro hnil
    have hlen := t.secret.2
    rw [hnil] at hlen
    cases hlen
  have hne : encodeKey32 base t.secret ≠ [] := encode_ne_nil hbase hsecret
  have hsplit : t.toToken base =
      (tokenPrefixV2 ++ ([','].intercalate (t.sockets.map SocketAddr.display) ++
        ':' :: (t.registrar.toWire base ++ [':']))) ++ encodeKey32 base t.secret := by
    simp only [toToken, List.append_assoc, List.cons_append, List.nil_append]
  have hlast : ∀ c ∈ (t.toToken base).getLast?, Lib.isWhiteSpace c = false := by
    intro c hc
    rw [hsplit, List.getLast?_append_of_ne_nil _ hne] at hc
    exact encode_no_space hbase t.secret.1 c (List.mem_of_mem_getLast? hc)
  have hv3 : tokenPrefixV3.isPrefixOf? (t.toToken base) = none := rfl
  unfold parse
  rw [hpasted.trim hfirst hlast]
  simp only [hv3]
  rw [toToken, Lib.strip_front_append]
  exact parse_fields_to_token hbase h

/-- A v3 key is read back however its body's letters are cased. -/
theorem parse_to_token_v3 (hbase : CodecLawful base) (h : t.Fits) {body pasted : List Char}
    (hbody : body.map Char.toUpper = base.encode t.v3Bytes)
    (hpasted : Around (tokenPrefixV3 ++ body) pasted) : parse base pasted = .ok t.pasted := by
  have hsymbols : ∀ c ∈ body, c.toUpper ∈ crockfordAlphabet := by
    intro c hc
    refine hbase.encode_symbols t.v3Bytes c.toUpper ?_
    rw [← hbody]
    exact List.mem_map_of_mem hc
  have hspace : ∀ c ∈ tokenPrefixV3 ++ body, Lib.isWhiteSpace c = false := by
    have hfront : ∀ c ∈ tokenPrefixV3, Lib.isWhiteSpace c = false :=
      Lib.forall_mem_of_all (by decide)
    intro c hc
    rcases List.mem_append.mp hc with hc | hc
    · exact hfront c hc
    · exact no_space_of_upper (hsymbols c hc)
  have hfold : body.map crockfordFold = base.encode t.v3Bytes := by
    rw [← hbody]
    exact List.map_congr_left fun c hc => fold_of_upper (hsymbols c hc)
  have hdecode : base.decode body = .ok t.v3Bytes := by
    refine hbase.decode_fold body _ ?_
    rw [hfold]
    exact hbase.decode_encode _
  unfold parse
  rw [hpasted.trim (fun c hc => hspace c (List.mem_of_mem_head? hc))
    (fun c hc => hspace c (List.mem_of_mem_getLast? hc))]
  simp only [Lib.strip_front_append]
  exact parse_v3_bytes h hdecode

/-- What a v3 key is cut to is no key. -/
theorem parse_truncated (hbase : CodecLawful base) (h : t.Fits) {cut : List Char}
    (hcut : cut <+: t.toTokenV3 base) (hne : cut ≠ t.toTokenV3 base) (got : JoinToken) :
    parse base cut ≠ .ok got := by
  intro hparse
  obtain ⟨more, hmore⟩ := hcut
  have hspace : ∀ c ∈ cut, Lib.isWhiteSpace c = false := by
    have hfront : ∀ c ∈ tokenPrefixV3, Lib.isWhiteSpace c = false :=
      Lib.forall_mem_of_all (by decide)
    intro c hc
    have hmem : c ∈ t.toTokenV3 base := hmore ▸ List.mem_append_left more hc
    rcases List.mem_append.mp hmem with hc | hc
    · exact hfront c hc
    · exact encode_no_space hbase _ c hc
  unfold parse at hparse
  rw [Lib.trim_space_none hspace] at hparse
  simp only at hparse
  split at hparse
  · rename_i body hbody
    have hcutBody : cut = tokenPrefixV3 ++ body := Lib.strip_front_some hbody
    have hsplit : body ++ more = base.encode t.v3Bytes := by
      rw [hcutBody, toTokenV3, List.append_assoc] at hmore
      exact List.append_cancel_left hmore
    obtain ⟨hdecode, hfits, -⟩ := parse_v3_ok hparse
    have hfold := fold_encode hbase t.v3Bytes
    rw [← hsplit, List.map_append] at hfold
    have hbodyFold := (List.append_inj hfold (List.length_map _)).1
    have hencode : base.encode got.v3Bytes = body :=
      (hbase.encode_decode body _ hdecode).trans hbodyFold
    have hfront : base.encode got.v3Bytes <+: base.encode t.v3Bytes := by
      rw [hencode]
      exact ⟨more, hsplit⟩
    have hbytes := v3_bytes_front hfits h (hbase.encode_front _ _ hfront)
    rw [hbytes] at hencode
    exact hne (by rw [hcutBody, ← hencode, toTokenV3])
  · rename_i hv3
    have hother : ∀ front : List Char, front.length = 12 → front ≠ tokenPrefixV3 →
        front.isPrefixOf? cut = none := by
      intro front hlen hfront
      cases hstrip : front.isPrefixOf? cut with
      | none => rfl
      | some body =>
        rw [Lib.strip_front_some hstrip, toTokenV3, List.append_assoc] at hmore
        exact absurd (List.append_inj hmore hlen).1 hfront
    rw [hother tokenPrefixV2 (by decide) (by decide), hother tokenPrefix (by decide) (by decide)]
      at hparse
    cases hparse

end

def Reads (answer : Except JoinRefusal JoinToken) (t : JoinToken) : Prop :=
  ∃ got, answer = .ok got ∧ got.same t = true

/-- A key that can be dialled is read back in each of its spellings, with white space around it and
with the letters of a v3 body in either case, and no part of a v3 key that is cut off behind is
read as a key. -/
theorem join_token_round_trips {base : Lib.Encoding} (hbase : CodecLawful base) {t : JoinToken}
    (h : t.Dialable) :
    (∀ pasted, Around (t.toToken base) pasted → Reads (parse base pasted) t) ∧
    (∀ body pasted, body.map Char.toUpper = (base.encode t.v3Bytes).map Char.toUpper →
      Around (tokenPrefixV3 ++ body) pasted → Reads (parse base pasted) t) ∧
    Reads (fromV3Body t.toV3Body) t ∧
    ∀ cut, cut <+: t.toTokenV3 base → cut ≠ t.toTokenV3 base → ∀ got, parse base cut ≠ .ok got := by
  refine ⟨?_, ?_, ?_, ?_⟩
  · intro pasted hpasted
    exact ⟨t.pasted, parse_to_token hbase h hpasted, same_pasted t⟩
  · intro body pasted hbody hpasted
    have hupper := hbody.trans (upper_encode hbase t.v3Bytes)
    exact ⟨t.pasted, parse_to_token_v3 hbase h.toFits hupper hpasted, same_pasted t⟩
  · exact ⟨t.pasted, from_v3_body_to t h.toFits, same_pasted t⟩
  · intro cut hcut hne got
    exact parse_truncated hbase h.toFits hcut hne got

def exampleKey : JoinToken where
  addrs := [⟨.v4 ⟨192, 0, 2, 10⟩ 7755, .chosen⟩,
    ⟨.v6 ⟨[0x2001, 0xDB8, 0, 0, 0, 0, 0, 1], rfl⟩ 7755 0 0, .internet⟩]
  registrar := ⟨⟨List.replicate 32 7, rfl⟩⟩
  secret := ⟨List.replicate 32 9, rfl⟩

theorem example_key_dialable : exampleKey.Dialable where
  some_addr := by decide
  few := by decide
  plain := by decide
  dialable := by decide

theorem example_key_round_trips :
    CodecLawful crockford.encoding ∧ exampleKey.Dialable ∧
      Reads (parse crockford.encoding (exampleKey.toToken crockford.encoding)) exampleKey :=
  ⟨crockford_lawful, example_key_dialable,
    (join_token_round_trips crockford_lawful example_key_dialable).1 _ (around_self _)⟩

/-- The case of the letters in front of the body is not ignored. -/
theorem upper_case_key_refused :
    ¬∀ (base : Lib.Encoding) (t : JoinToken) (pasted : List Char), CodecLawful base → t.Dialable →
      pasted.map Char.toUpper = (t.toTokenV3 base).map Char.toUpper →
        Reads (parse base pasted) t := by
  intro h
  obtain ⟨body, hbody⟩ : ∃ body, body = crockford.encoding.encode exampleKey.v3Bytes := ⟨_, rfl⟩
  have hsame : ("TCR-JOIN:V3:".toList ++ body).map Char.toUpper =
      (exampleKey.toTokenV3 crockford.encoding).map Char.toUpper := by
    have hfront : "TCR-JOIN:V3:".toList.map Char.toUpper = tokenPrefixV3.map Char.toUpper := by
      decide
    rw [toTokenV3, ← hbody, List.map_append, List.map_append, hfront]
  have hspace : ∀ c ∈ "TCR-JOIN:V3:".toList ++ body, Lib.isWhiteSpace c = false := by
    have hfront : ∀ c ∈ "TCR-JOIN:V3:".toList, Lib.isWhiteSpace c = false :=
      Lib.forall_mem_of_all (by decide)
    intro c hc
    rcases List.mem_append.mp hc with hc | hc
    · exact hfront c hc
    · rw [hbody] at hc
      exact encode_no_space crockford_lawful _ c hc
  have hv3 : tokenPrefixV3.isPrefixOf? ("TCR-JOIN:V3:".toList ++ body) = none := rfl
  have hv2 : tokenPrefixV2.isPrefixOf? ("TCR-JOIN:V3:".toList ++ body) = none := rfl
  have hv1 : tokenPrefix.isPrefixOf? ("TCR-JOIN:V3:".toList ++ body) = none := rfl
  obtain ⟨got, hgot, -⟩ := h _ exampleKey _ crockford_lawful example_key_dialable hsame
  unfold parse at hgot
  simp only [Lib.trim_space_none hspace, hv3, hv2, hv1] at hgot
  cases hgot

end JoinToken

end TeamClaude
