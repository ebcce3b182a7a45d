import TeamClaude.Lib.JsonText.Strings
import TeamClaude.Lib.Tlv

/-!
# The server name of a ClientHello

What a gateway reads of the first record it carries: the host that the handshake names. It walks the
record and its extension vector by offsets, terminates nothing, and answers with the first host name
it meets.
-/

namespace TeamClaude

/-- A text, as its UTF-8 bytes. -/
abbrev Str := { bytes : List UInt8 // Lib.JsonText.isUtf8 bytes = true }

/-- `u8::to_ascii_lowercase` -/
def asciiLower (b : UInt8) : UInt8 :=
  if 0x41 ≤ b ∧ b ≤ 0x5A then b + 0x20 else b

/-- `str::eq_ignore_ascii_case` -/
def eqIgnoreAsciiCase (a b : List UInt8) : Bool :=
  a.map asciiLower == b.map asciiLower

inductive HelloError
  | truncated (what : String)
  | recordType (kind : UInt8)
  | incomplete
  | notClientHello
  | notUtf8
  deriving DecidableEq

/-- A refusal, or a way for the parser to fail that is not an answer. -/
inductive HelloFault
  | refused (err : HelloError)
  | outOfBounds
  | outOfRounds
  deriving DecidableEq

namespace Hello

/-- `bytes.get(pos..pos + len)` -/
def range (bytes : List UInt8) (pos len : Nat) : Option (List UInt8) :=
  if pos + len ≤ bytes.length then some ((bytes.drop pos).take len) else none

def take (bytes : List UInt8) (pos len : Nat) (what : String) : Except HelloFault (List UInt8) :=
  match range bytes pos len with
  | some field => .ok field
  | none => .error (.refused (.truncated what))

/-- `bytes[i]`, which does not return past the end. -/
def octet (bytes : List UInt8) (i : Nat) : Except HelloFault UInt8 :=
  match bytes[i]? with
  | some b => .ok b
  | none => .error .outOfBounds

/-- `u16::from_be_bytes([bytes[i], bytes[i + 1]])` -/
def pair (bytes : List UInt8) (i : Nat) : Except HelloFault Nat := do
  let hi ← octet bytes i
  let lo ← octet bytes (i + 1)
  return Lib.be16 hi lo

def be16 (bytes : List UInt8) (pos : Nat) (what : String) : Except HelloFault Nat := do
  let field ← take bytes pos 2 what
  pair field 0

def record (bytes : List UInt8) : Except HelloFault (List UInt8) := do
  let header ← take bytes 0 5 "the record header"
  let kind ← octet header 0
  if kind ≠ 0x16 then .error (.refused (.recordType kind))
  else
    let recordLen ← pair header 3
    match range bytes 5 recordLen with
    | some body => .ok body
    | none => .error (.refused .incomplete)

/-- The extension vector of a ClientHello, `none` when it ends before one. -/
def extensionVector (body : List UInt8) : Except HelloFault (Option (List UInt8)) := do
  if body.head? ≠ some 0x01 then .error (.refused .notClientHello)
  else
    -- a handshake header, the legacy version and the random
    let pos := 4 + 2 + 32
    let sessionIdLen ← take body pos 1 "the session id length"
    let pos := pos + (1 + (sessionIdLen.headD 0).toNat)
    let cipherSuitesLen ← be16 body pos "the cipher suite length"
    let pos := pos + (2 + cipherSuitesLen)
    let compressionLen ← take body pos 1 "the compression method length"
    let pos := pos + (1 + (compressionLen.headD 0).toNat)
    if body.length ≤ pos then .ok none
    else
      let extensionsLen ← be16 body pos "the extension vector length"
      let extensions ← take body (pos + 2) extensionsLen "the extension vector"
      return some extensions

/-- `std::str::from_utf8` -/
def fromUtf8 (name : List UInt8) : Except HelloFault Str :=
  if h : Lib.JsonText.isUtf8 name = true then .ok ⟨name, h⟩ else .error (.refused .notUtf8)

/-- The walk over the entries of a server name list, from `entry` on. -/
def walkNames (list : List UInt8) : Nat → Nat → Except HelloFault (Option Str)
  | 0, _ => .error .outOfRounds
  | rounds + 1, entry =>
    if entry + 3 ≤ list.length then do
      let nameType ← octet list entry
      let nameLen ← pair list (entry + 1)
      let name ← take list (entry + 3) nameLen "a server name"
      -- 0 is host_name
      if nameType ≠ 0 then walkNames list rounds (entry + (3 + nameLen))
      else
        let host ← fromUtf8 name
        return some host
    else .ok none

def serverName (value : List UInt8) : Except HelloFault (Option Str) := do
  let listLen ← be16 value 0 "the server name list length"
  let list ← take value 2 listLen "the server name list"
  walkNames list (list.length + 1) 0

/-- The walk over an extension vector, from `cursor` on. -/
def walkExtensions (extensions : List UInt8) : Nat → Nat → Except HelloFault (Option Str)
  | 0, _ => .error .outOfRounds
  | rounds + 1, cursor =>
    if cursor + 4 ≤ extensions.length then do
      let kind ← pair extensions cursor
      let len ← pair extensions (cursor + 2)
      let value ← take extensions (cursor + 4) len "an extension body"
      -- 0 is server_name
      if kind ≠ 0 then walkExtensions extensions rounds (cursor + (4 + len))
      else serverName value
    else .ok none

end Hello

def clientHelloSni (bytes : List UInt8) : Except HelloFault (Option Str) := do
  let body ← Hello.record bytes
  match ← Hello.extensionVector body with
  | none => .ok none
  | some extensions => Hello.walkExtensions extensions (extensions.length + 1) 0

inductive SniError
  | unread (fault : HelloFault)
  | noServerName (targetHost : Str)
  | mismatch (sni targetHost : Str)
  deriving DecidableEq

def assertSniMatchesTarget (firstBytes : List UInt8) (targetHost : Str) : Except SniError Unit :=
  match clientHelloSni firstBytes with
  | .error fault => .error (.unread fault)
  | .ok none => .error (.noServerName targetHost)
  | .ok (some sni) =>
    if eqIgnoreAsciiCase sni.1 targetHost.1 then .ok () else .error (.mismatch sni targetHost)

namespace Hello

def hostNames (list : List UInt8) : List (List UInt8) :=
  ((Lib.Tlv.items 1 list).filter fun entry => entry.1 == [0]).map Prod.snd

/-- The host names in the value of a server_name extension. -/
def namesIn (value : List UInt8) : List (List UInt8) :=
  match Lib.Tlv.item 0 value with
  | none => []
  | some (list, _) => hostNames list.2

/-- The host names of an extension vector, one list a server_name extension. -/
def serverNames (extensions : List UInt8) : List (List (List UInt8)) :=
  ((Lib.Tlv.items 2 extensions).filter fun extension => extension.1 == [0, 0]).map
    fun extension => namesIn extension.2

section
variable {bytes : List UInt8} {pos i : Nat} {what : String}

theorem octet_of_lt (h : i < bytes.length) : octet bytes i = .ok ((bytes.drop i).headD 0) := by
  unfold octet
  rw [List.drop_eq_getElem_cons h, List.getElem?_eq_getElem h]
  rfl

theorem pair_of_lt (h : i + 1 < bytes.length) :
    pair bytes i =
      .ok (Lib.be16 ((bytes.drop i).headD 0) ((bytes.drop (i + 1)).headD 0)) := by
  unfold pair
  rw [octet_of_lt (Nat.lt_of_succ_lt h), octet_of_lt h]
  rfl

/-- The length behind a tag is the length that an item at the same place has. -/
theorem pair_body_length (width : Nat) (h : pos + (width + 2) ≤ bytes.length) :
    pair bytes (pos + width) = .ok (Lib.Tlv.bodyLength width (bytes.drop pos)) := by
  rw [pair_of_lt (by omega), Lib.Tlv.bodyLength, List.drop_drop, List.drop_drop]
  rfl

/-- A field is read behind a tag and a length when a whole item stands there. -/
theorem take_item (bytes : List UInt8) (pos width : Nat) (what : String)
    (h : pos + (width + 2) ≤ bytes.length) :
    (Lib.Tlv.item width (bytes.drop pos) = none ∧
      take bytes (pos + (width + 2)) (Lib.Tlv.bodyLength width (bytes.drop pos)) what =
        .error (.refused (.truncated what))) ∨
    ∃ value, value.length = Lib.Tlv.bodyLength width (bytes.drop pos) ∧
      Lib.Tlv.item width (bytes.drop pos) =
        some (((bytes.drop pos).take width, value),
          bytes.drop (pos + (width + 2 + value.length))) ∧
      take bytes (pos + (width + 2)) (Lib.Tlv.bodyLength width (bytes.drop pos)) what =
        .ok value := by
  have hlen : (bytes.drop pos).length = bytes.length - pos := List.length_drop
  by_cases hfit : width + 2 + Lib.Tlv.bodyLength width (bytes.drop pos) ≤ bytes.length - pos
  · right
    have hvalue : ((bytes.drop (pos + (width + 2))).take
        (Lib.Tlv.bodyLength width (bytes.drop pos))).length =
          Lib.Tlv.bodyLength width (bytes.drop pos) := by
      rw [List.length_take, List.length_drop]
      omega
    refine ⟨_, hvalue, ?_, ?_⟩
    · unfold Lib.Tlv.item
      simp only [hlen]
      rw [if_pos hfit, hvalue, List.drop_drop, List.drop_drop]
    · unfold take range
      rw [if_pos (by omega)]
  · left
    constructor
    · unfold Lib.Tlv.item
      simp only [hlen]
      exact if_neg hfit
    · unfold take range
      rw [if_neg (by omega)]

theorem take_of_le {len : Nat} (h : pos + len ≤ bytes.length) :
    take bytes pos len what = .ok ((bytes.drop pos).take len) := by
  unfold take range
  rw [if_pos h]

theorem take_of_lt {len : Nat} (h : bytes.length < pos + len) :
    take bytes pos len what = .error (.refused (.truncated what)) := by
  unfold take range
  rw [if_neg (by omega)]

theorem be16_of_le (h : pos + 2 ≤ bytes.length) :
    be16 bytes pos what = .ok (Lib.Tlv.bodyLength 0 (bytes.drop pos)) := by
  have hfield : ((bytes.drop pos).take 2).length = 2 := by
    rw [List.length_take, List.length_drop]
    omega
  unfold be16
  rw [take_of_le h]
  simp only [bind, Except.bind]
  rw [pair_of_lt (by omega), Lib.Tlv.bodyLength]
  obtain ⟨hi, lo, rest, hsplit⟩ : ∃ hi lo rest, bytes.drop pos = hi :: lo :: rest := by
    rcases hdrop : bytes.drop pos with _ | ⟨hi, _ | ⟨lo, rest⟩⟩
    · rw [hdrop] at hfield
      cases hfield
    · rw [hdrop] at hfield
      cases hfield
    · exact ⟨hi, lo, rest, rfl⟩
  rw [hsplit]
  rfl

theorem be16_of_lt (h : bytes.length < pos + 2) :
    be16 bytes pos what = .error (.refused (.truncated what)) := by
  unfold be16
  rw [take_of_lt h]
  rfl

/-- Too little for a tag and a length is no item. -/
theorem item_short {width : Nat} (h : bytes.length < pos + (width + 2)) :
    Lib.Tlv.item width (bytes.drop pos) = none := by
  unfold Lib.Tlv.item
  simp only [List.length_drop]
  exact if_neg (by omega)

end

/-- What a walk answers when the host names ahead of it are these: the first of them, or, without
one, nothing or a refusal. -/
def Answers : List (List UInt8) → Except HelloFault (Option Str) → Prop
  | [], answer => answer = .ok none ∨ ∃ err, answer = .error (.refused err)
  | first :: _, answer => answer = (fromUtf8 first).map some

theorem walk_names_answers (list : List UInt8) {rounds entry : Nat} (hle : entry ≤ list.length)
    (h : list.length < entry + rounds) :
    Answers (hostNames (list.drop entry)) (walkNames list rounds entry) := by
  induction rounds generalizing entry with
  | zero => omega
  | succ rounds ih =>
    unfold walkNames
    by_cases hentry : entry + 3 ≤ list.length
    · rw [if_pos hentry, octet_of_lt (by omega), pair_body_length 1 hentry]
      rcases take_item list entry 1 "a server name" hentry with
        ⟨hitem, htake⟩ | ⟨name, hname, hitem, htake⟩
      · simp only [hostNames, Lib.Tlv.items_none hitem, bind, Except.bind, htake]
        exact .inr ⟨_, rfl⟩
      · have hfit := (Lib.Tlv.item_rest hitem).1
        rw [List.length_drop, List.length_drop] at hfit
        simp only at hfit
        have htag : (list.drop entry).take 1 = [(list.drop entry).headD 0] := by
          rw [List.drop_eq_getElem_cons (by omega)]
          rfl
        simp only [hostNames, Lib.Tlv.items_some hitem, bind, Except.bind, htake]
        rw [List.filter_cons, htag]
        by_cases hzero : (list.drop entry).headD 0 = 0
        · rw [if_neg (not_not_intro hzero), if_pos (by rw [hzero]; rfl)]
          simp only [List.map_cons, Answers]
          cases fromUtf8 name <;> rfl
        · rw [if_pos hzero, if_neg (by simpa using hzero), ← hname]
          exact ih (by omega) (by omega)
    · rw [if_neg hentry]
      have hitem : Lib.Tlv.item 1 (list.drop entry) = none := item_short (by omega)
      simp only [hostNames, Lib.Tlv.items_none hitem]
      exact .inl rfl

/-- What the walk over the extensions answers: as the first server_name extension does. -/
def AnswersFirst : List (List (List UInt8)) → Except HelloFault (Option Str) → Prop
  | [], answer => Answers [] answer
  | names :: _, answer => Answers names answer

theorem server_name_answers (value : List UInt8) : Answers (namesIn value) (serverName value) := by
  unfold serverName
  by_cases hlen : 0 + 2 ≤ value.length
  · rw [be16_of_le hlen]
    rcases take_item value 0 0 "the server name list" hlen with
      ⟨hitem, htake⟩ | ⟨list, -, hitem, htake⟩
    · simp only [namesIn, bind, Except.bind]
      rw [List.drop_zero] at hitem htake ⊢
      rw [hitem, htake]
      exact .inr ⟨_, rfl⟩
    · simp only [namesIn, bind, Except.bind]
      rw [List.drop_zero] at hitem htake ⊢
      rw [hitem, htake]
      have hwalk : Answers (hostNames (list.drop 0)) (walkNames list (list.length + 1) 0) :=
        walk_names_answers list (Nat.zero_le _) (by omega)
      rwa [List.drop_zero] at hwalk
  · rw [be16_of_lt (by omega)]
    have hitem : Lib.Tlv.item 0 (value.drop 0) = none := item_short (by omega)
    rw [List.drop_zero] at hitem
    simp only [namesIn, hitem]
    exact .inr ⟨_, rfl⟩

theorem walk_extensions_answers (extensions : List UInt8) {rounds cursor : Nat}
    (hle : cursor ≤ extensions.length) (h : extensions.length < cursor + rounds) :
    AnswersFirst (serverNames (extensions.drop cursor))
      (walkExtensions extensions rounds cursor) := by
  induction rounds generalizing cursor with
  | zero => omega
  | succ rounds ih =>
    unfold walkExtensions
    by_cases hcursor : cursor + 4 ≤ extensions.length
    · rw [if_pos hcursor, pair_of_lt (by omega), pair_body_length 2 hcursor]
      rcases take_item extensions cursor 2 "an extension body" hcursor with
        ⟨hitem, htake⟩ | ⟨value, hvalue, hitem, htake⟩
      · simp only [serverNames, Lib.Tlv.items_none hitem, bind, Except.bind, htake]
        exact .inr ⟨_, rfl⟩
      · have hfit := (Lib.Tlv.item_rest hitem).1
        rw [List.length_drop, List.length_drop] at hfit
        simp only at hfit
        have htag : (extensions.drop cursor).take 2 =
            [(extensions.drop cursor).headD 0, (extensions.drop (cursor + 1)).headD 0] := by
          rw [List.drop_eq_getElem_cons (by omega),
            List.drop_eq_getElem_cons (show cursor + 1 < extensions.length by omega)]
          rfl
        simp only [serverNames, Lib.Tlv.items_some hitem, bind, Except.bind, htake]
        rw [List.filter_cons, htag]
        by_cases hzero : Lib.be16 ((extensions.drop cursor).headD 0)
            ((extensions.drop (cursor + 1)).headD 0) = 0
        · have hkind := Lib.be16_eq_zero.mp hzero
          rw [if_neg (not_not_intro hzero), if_pos (by rw [hkind.1, hkind.2]; rfl)]
          exact server_name_answers value
        · have hkind : ¬([(extensions.drop cursor).headD 0,
              (extensions.drop (cursor + 1)).headD 0] == [0, 0]) = true := by
            intro heq
            simp only [beq_iff_eq, List.cons.injEq, and_true] at heq
            exact hzero (Lib.be16_eq_zero.mpr heq)
          rw [if_pos hzero, if_neg hkind, ← hvalue]
          exact ih (by omega) (by omega)
    · rw [if_neg hcursor]
      have hitem : Lib.Tlv.item 2 (extensions.drop cursor) = none := item_short (by omega)
      simp only [serverNames, Lib.Tlv.items_none hitem]
      exact .inl rfl

/-- An answer or a refusal: nothing is read past the end and no walk runs on. -/
def Settled {α : Type} (r : Except HelloFault α) : Prop :=
  ∀ fault, r = .error fault → ∃ err, fault = .refused err

section
variable {α β : Type} {bytes : List UInt8}

theorem settled_ok (a : α) : Settled (.ok a) := by
  intro fault h
  cases h

theorem settled_refused (err : HelloError) :
    Settled (.error (.refused err) : Except HelloFault α) := by
  intro fault h
  cases h
  exact ⟨err, rfl⟩

theorem Settled.bind {x : Except HelloFault α} {f : α → Except HelloFault β} (hx : Settled x)
    (hf : ∀ a, x = .ok a → Settled (f a)) : Settled (x >>= f) := by
  cases x with
  | error fault =>
    obtain ⟨err, rfl⟩ := hx fault rfl
    exact settled_refused err
  | ok a => exact hf a rfl

theorem settled_take (bytes : List UInt8) (pos len : Nat) (what : String) :
    Settled (take bytes pos len what) := by
  rcases Nat.lt_or_ge bytes.length (pos + len) with h | h
  · rw [take_of_lt h]
    exact settled_refused _
  · rw [take_of_le h]
    exact settled_ok _

theorem settled_be16 (bytes : List UInt8) (pos : Nat) (what : String) :
    Settled (be16 bytes pos what) := by
  rcases Nat.lt_or_ge bytes.length (pos + 2) with h | h
  · rw [be16_of_lt h]
    exact settled_refused _
  · rw [be16_of_le h]
    exact settled_ok _

theorem settled_record (bytes : List UInt8) : Settled (record bytes) := by
  refine (settled_take bytes 0 5 _).bind fun header hheader => ?_
  have hlen : header.length = 5 := by
    rcases Nat.lt_or_ge bytes.length (0 + 5) with h | h
    · rw [take_of_lt h] at hheader
      cases hheader
    · rw [take_of_le h] at hheader
      cases hheader
      rw [List.length_take, List.length_drop]
      omega
  rw [octet_of_lt (by omega)]
  refine (settled_ok _).bind fun kind _ => ?_
  split
  · exact settled_refused _
  · rw [pair_of_lt (by omega)]
    refine (settled_ok _).bind fun recordLen _ => ?_
    split
    · exact settled_ok _
    · exact settled_refused _

theorem settled_extension_vector (body : List UInt8) : Settled (extensionVector body) := by
  unfold extensionVector
  split
  · exact settled_refused _
  · refine (settled_take _ _ _ _).bind fun sessionIdLen _ => ?_
    refine (settled_be16 _ _ _).bind fun cipherSuitesLen _ => ?_
    refine (settled_take _ _ _ _).bind fun compressionLen _ => ?_
    dsimp only
    split
    · exact settled_ok _
    · refine (settled_be16 _ _ _).bind fun extensionsLen _ => ?_
      exact (settled_take _ _ _ _).bind fun extensions _ => settled_ok _

theorem settled_from_utf8 (name : List UInt8) : Settled (fromUtf8 name) := by
  unfold fromUtf8
  split
  · exact settled_ok _
  · exact settled_refused _

theorem Answers.settled (names : List (List UInt8)) {answer : Except HelloFault (Option Str)}
    (h : Answers names answer) : Settled answer := by
  cases names with
  | nil =>
    rcases h with rfl | ⟨err, rfl⟩
    · exact settled_ok _
    · exact settled_refused _
  | cons first more =>
    rw [Answers] at h
    have hutf8 := settled_from_utf8 first
    rw [h]
    cases hfirst : fromUtf8 first with
    | error fault =>
      obtain ⟨err, rfl⟩ := hutf8 fault hfirst
      exact settled_refused err
    | ok host => exact settled_ok _

theorem AnswersFirst.settled {lists : List (List (List UInt8))}
    {answer : Except HelloFault (Option Str)} (h : AnswersFirst lists answer) :
    Settled answer := by
  cases lists with
  | nil => exact Answers.settled [] h
  | cons names lists => exact Answers.settled names h

end

/-- The host names in the ClientHello at the front of these bytes, one list a server_name
extension. -/
def helloNames (bytes : List UInt8) : List (List (List UInt8)) :=
  match record bytes >>= extensionVector with
  | .ok (some extensions) => serverNames extensions
  | _ => []

/-- The name that is read is the first of the first server_name extension. -/
theorem client_hello_sni_answers (bytes : List UInt8) :
    AnswersFirst (helloNames bytes) (clientHelloSni bytes) := by
  have hbody := (settled_record bytes).bind fun body _ => settled_extension_vector body
  have hsni : clientHelloSni bytes = (do
      match ← record bytes >>= extensionVector with
      | none => .ok none
      | some extensions => walkExtensions extensions (extensions.length + 1) 0) := by
    unfold clientHelloSni
    cases record bytes <;> rfl
  rw [hsni]
  unfold helloNames
  cases hvector : record bytes >>= extensionVector with
  | error fault =>
    obtain ⟨err, rfl⟩ := hbody fault hvector
    exact .inr ⟨err, rfl⟩
  | ok vector =>
    cases vector with
    | none => exact .inl rfl
    | some extensions =>
      have hwalk : AnswersFirst (serverNames (extensions.drop 0))
          (walkExtensions extensions (extensions.length + 1) 0) :=
        walk_extensions_answers extensions (Nat.zero_le _) (by omega)
      rwa [List.drop_zero] at hwalk

theorem settled_client_hello_sni (bytes : List UInt8) : Settled (clientHelloSni bytes) :=
  (client_hello_sni_answers bytes).settled

theorem client_hello_sni_some {bytes : List UInt8} {host : Str} :
    clientHelloSni bytes = .ok (some host) ↔
      ∃ more rest, helloNames bytes = (host.1 :: more) :: rest := by
  have hanswers := client_hello_sni_answers bytes
  constructor
  · intro h
    rw [h] at hanswers
    match hnames : helloNames bytes with
    | [] =>
      rw [hnames] at hanswers
      rcases hanswers with hnone | ⟨err, herr⟩
      · cases hnone
      · cases herr
    | [] :: rest =>
      rw [hnames] at hanswers
      rcases hanswers with hnone | ⟨err, herr⟩
      · cases hnone
      · cases herr
    | (first :: more) :: rest =>
      rw [hnames] at hanswers
      change _ = (fromUtf8 first).map some at hanswers
      unfold fromUtf8 at hanswers
      split at hanswers
      · cases hanswers
        exact ⟨more, rest, rfl⟩
      · cases hanswers
  · rintro ⟨more, rest, hnames⟩
    rw [hnames] at hanswers
    change _ = (fromUtf8 host.1).map some at hanswers
    rw [hanswers, fromUtf8, dif_pos host.2]
    rfl

end Hello

/-- What a ClientHello with one host name carries: the extensions around its server_name, and the
entries of other types around the host. -/
structure HelloFields where
  recordVersion : List UInt8
  version : List UInt8
  random : List UInt8
  sessionId : List UInt8
  cipherSuites : List UInt8
  compression : List UInt8
  extensionsBefore : List Lib.Tlv.Item
  namesBefore : List Lib.Tlv.Item
  host : Str
  namesAfter : List Lib.Tlv.Item
  extensionsAfter : List Lib.Tlv.Item

namespace HelloFields

def names (hello : HelloFields) : List Lib.Tlv.Item :=
  hello.namesBefore ++ ([0], hello.host.1) :: hello.namesAfter

/-- A vector behind its sixteen-bit length. -/
def vector (content : List UInt8) : List UInt8 :=
  Lib.Tlv.encode ([], content)

def extensions (hello : HelloFields) : List Lib.Tlv.Item :=
  hello.extensionsBefore ++
    ([0, 0], vector (Lib.Tlv.encodeAll hello.names)) :: hello.extensionsAfter

def content (hello : HelloFields) : List UInt8 :=
  hello.version ++ (hello.random ++
    (hello.sessionId.length.toUInt8 :: (hello.sessionId ++
      (vector hello.cipherSuites ++
        (hello.compression.length.toUInt8 :: (hello.compression ++
          vector (Lib.Tlv.encodeAll hello.extensions)))))))

/-- The handshake message: its type, a length of 24 bits and the content. -/
def message (hello : HelloFields) : List UInt8 :=
  0x01 :: (hello.content.length / 65536).toUInt8 ::
    (Lib.be16Bytes hello.content.length ++ hello.content)

def record (hello : HelloFields) : List UInt8 :=
  0x16 :: (hello.recordVersion ++ vector hello.message)

end HelloFields

/-- A well-formed ClientHello with one host name, in one record. -/
structure ClientHello extends HelloFields where
  recordVersion_length : recordVersion.length = 2
  version_length : version.length = 2
  random_length : random.length = 32
  sessionId_length : sessionId.length < 256
  compression_length : compression.length < 256
  extensions_tag : ∀ e ∈ extensionsBefore ++ extensionsAfter, e.1.length = 2 ∧ e.1 ≠ [0, 0]
  names_tag : ∀ n ∈ namesBefore ++ namesAfter, n.1.length = 1 ∧ n.1 ≠ [0]
  message_length : toHelloFields.message.length < 65536

namespace Hello

section
variable (front : List UInt8) {bytes field back : List UInt8} {what : String}

theorem take_split {pos : Nat} (h : bytes = front ++ (field ++ back)) (hpos : pos = front.length) :
    take bytes pos field.length what = .ok field := by
  subst h hpos
  rw [take_of_le (by simp), List.drop_left, List.take_left]

theorem be16_vector {pos : Nat} (h : bytes = front ++ (HelloFields.vector field ++ back))
    (hpos : pos = front.length) (hfield : field.length < 65536) :
    be16 bytes pos what = .ok field.length := by
  subst h hpos
  have hlen : (HelloFields.vector field).length = 0 + 2 + field.length := Lib.Tlv.encode_length _
  rw [be16_of_le (by simp only [List.length_append]; omega), List.drop_left]
  exact congrArg Except.ok (Lib.be16_of_bytes hfield)

end

variable (hello : ClientHello)

theorem record_hello (rest : List UInt8) :
    record (hello.record ++ rest) = .ok hello.message := by
  obtain ⟨major, minor, hversion⟩ := List.length_eq_two.mp hello.recordVersion_length
  obtain ⟨header, hheader⟩ : ∃ header, header =
      0x16 :: major :: minor :: Lib.be16Bytes hello.message.length := ⟨_, rfl⟩
  have hlength : header.length = 5 := by rw [hheader]; rfl
  have hbytes : hello.record ++ rest = header ++ (hello.message ++ rest) := by
    simp only [hheader, HelloFields.record, HelloFields.vector, Lib.Tlv.encode, hversion,
      List.nil_append, List.cons_append, List.append_assoc]
  have htake : take (hello.record ++ rest) 0 5 "the record header" = .ok header := by
    rw [← hlength]
    exact take_split [] hbytes rfl
  have hrange : range (hello.record ++ rest) 5 hello.message.length = some hello.message := by
    unfold range
    rw [hbytes, ← hlength, if_pos (by simp), List.drop_left, List.take_left]
  have hlen : pair header 3 = .ok hello.message.length := by
    rw [hheader]
    exact congrArg Except.ok (Lib.be16_of_bytes hello.message_length)
  have hkind : octet header 0 = .ok 0x16 := by
    rw [hheader]
    rfl
  unfold record
  simp only [htake, hkind, hlen, hrange, bind, Except.bind]
  rfl

theorem vector_length (field : List UInt8) :
    (HelloFields.vector field).length = 2 + field.length := by
  rw [HelloFields.vector, Lib.Tlv.encode_length]
  exact congrArg (· + field.length) (Nat.zero_add 2)

theorem content_length : hello.content.length = 36 + hello.sessionId.length +
    (2 + hello.cipherSuites.length) + hello.compression.length +
      (2 + (Lib.Tlv.encodeAll hello.extensions).length) := by
  simp only [HelloFields.content, List.length_append, List.length_cons, vector_length,
    hello.version_length, hello.random_length]
  omega

theorem message_length_content : hello.message.length = 4 + hello.content.length := by
  simp only [HelloFields.message, List.length_cons, List.length_append, Lib.be16_bytes_length]
  omega

/-- A length below 256 is the octet it is sent as. -/
theorem octet_length {n : Nat} (h : n < 256) : ([n.toUInt8].headD 0).toNat = n := by
  change n.toUInt8.toNat = n
  rw [Nat.toUInt8_eq, UInt8.toNat_ofNat', Nat.mod_eq_of_lt h]

theorem extension_vector_hello :
    extensionVector hello.message = .ok (some (Lib.Tlv.encodeAll hello.extensions)) := by
  have hfit := hello.message_length
  rw [message_length_content, content_length] at hfit
  obtain ⟨front, hfront⟩ : ∃ front, front = 0x01 :: (hello.content.length / 65536).toUInt8 ::
    (Lib.be16Bytes hello.content.length ++ (hello.version ++ hello.random)) := ⟨_, rfl⟩
  obtain ⟨ciphers, hciphers⟩ : ∃ ciphers, ciphers =
    front ++ [hello.sessionId.length.toUInt8] ++ hello.sessionId := ⟨_, rfl⟩
  obtain ⟨methods, hmethods⟩ : ∃ methods, methods =
    ciphers ++ HelloFields.vector hello.cipherSuites := ⟨_, rfl⟩
  obtain ⟨behind, hbehind⟩ : ∃ behind, behind =
    methods ++ [hello.compression.length.toUInt8] ++ hello.compression := ⟨_, rfl⟩
  have hmessage : hello.message =
      behind ++ (HelloFields.vector (Lib.Tlv.encodeAll hello.extensions) ++ []) := by
    simp only [HelloFields.message, HelloFields.content, hbehind, hmethods, hciphers, hfront,
      List.append_assoc, List.cons_append, List.nil_append, List.append_nil]
  have hfrontLen : front.length = 38 := by
    simp only [hfront, List.length_cons, List.length_append, Lib.be16_bytes_length,
      hello.version_length, hello.random_length]
  have hciphersLen : ciphers.length = 38 + (1 + hello.sessionId.length) := by
    simp only [hciphers, hfrontLen, List.length_append, List.length_cons, List.length_nil]
    omega
  have hmethodsLen : methods.length = ciphers.length + (2 + hello.cipherSuites.length) := by
    rw [hmethods, List.length_append, vector_length]
  have hbehindLen : behind.length = methods.length + (1 + hello.compression.length) := by
    simp only [hbehind, List.length_append, List.length_cons, List.length_nil]
    omega
  have hmethodsAt : hello.message = methods ++ ([hello.compression.length.toUInt8] ++
      (hello.compression ++ (HelloFields.vector (Lib.Tlv.encodeAll hello.extensions) ++ []))) := by
    rw [hmessage, hbehind]
    simp only [List.append_assoc]
  obtain ⟨back, hciphersAt⟩ : ∃ back, hello.message =
      ciphers ++ (HelloFields.vector hello.cipherSuites ++ back) := by
    rw [hmethodsAt, hmethods, List.append_assoc]
    exact ⟨_, rfl⟩
  have hfrontAt : hello.message = front ++ ([hello.sessionId.length.toUInt8] ++
      (hello.sessionId ++ (HelloFields.vector hello.cipherSuites ++ back))) := by
    rw [hciphersAt, hciphers]
    simp only [List.append_assoc]
  have hsessionLen : take hello.message 38 1 "the session id length" =
      .ok [hello.sessionId.length.toUInt8] :=
    take_split front hfrontAt hfrontLen.symm
  have hsuitesLen : be16 hello.message ciphers.length "the cipher suite length" =
      .ok hello.cipherSuites.length :=
    be16_vector ciphers hciphersAt rfl (by omega)
  have hmethodLen : take hello.message methods.length 1 "the compression method length" =
      .ok [hello.compression.length.toUInt8] :=
    take_split methods hmethodsAt rfl
  have hvectorLen : be16 hello.message behind.length "the extension vector length" =
      .ok (Lib.Tlv.encodeAll hello.extensions).length :=
    be16_vector behind hmessage rfl (by omega)
  have hvectorAt : hello.message =
      (behind ++ Lib.be16Bytes (Lib.Tlv.encodeAll hello.extensions).length) ++
        (Lib.Tlv.encodeAll hello.extensions ++ []) := by
    rw [hmessage, HelloFields.vector, Lib.Tlv.encode, List.nil_append]
    simp only [List.append_assoc]
  have hvector : take hello.message (behind.length + 2) (Lib.Tlv.encodeAll hello.extensions).length
      "the extension vector" = .ok (Lib.Tlv.encodeAll hello.extensions) :=
    take_split _ hvectorAt (by rw [List.length_append, Lib.be16_bytes_length])
  have hlong : ¬hello.message.length ≤ behind.length := by
    rw [hmessage, List.length_append, List.length_append, vector_length]
    omega
  have hhead : ¬hello.message.head? ≠ some 0x01 := not_not_intro rfl
  unfold extensionVector
  rw [if_neg hhead]
  simp only [hsessionLen, bind, Except.bind, octet_length hello.sessionId_length, ← hciphersLen,
    hsuitesLen, ← hmethodsLen, hmethodLen, octet_length hello.compression_length, ← hbehindLen]
  rw [if_neg hlong, hvectorLen]
  simp only [hvector]
  rfl

/-- Among items of which one alone has a tag, that one is found. -/
theorem filter_tag {tag value : List UInt8} {before after : List Lib.Tlv.Item}
    (h : ∀ i ∈ before ++ after, i.1 ≠ tag) :
    ((before ++ (tag, value) :: after).filter fun i => i.1 == tag) = [(tag, value)] := by
  have hbefore : (before.filter fun i => i.1 == tag) = [] :=
    List.filter_eq_nil_iff.mpr fun i hi heq =>
      h i (List.mem_append_left _ hi) (beq_iff_eq.mp heq)
  have hafter : (after.filter fun i => i.1 == tag) = [] :=
    List.filter_eq_nil_iff.mpr fun i hi heq =>
      h i (List.mem_append_right _ hi) (beq_iff_eq.mp heq)
  rw [List.filter_append, hbefore, List.filter_cons, if_pos (beq_self_eq_true tag), hafter]
  rfl

/-- The items around one with a tag of the right width have such tags as well. -/
theorem tag_length {width : Nat} {tag value : List UInt8} {before after : List Lib.Tlv.Item}
    (htag : tag.length = width) (h : ∀ i ∈ before ++ after, i.1.length = width ∧ i.1 ≠ tag) :
    ∀ i ∈ before ++ (tag, value) :: after, i.1.length = width := by
  intro i hi
  rcases List.mem_append.mp hi with hi | hi
  · exact (h i (List.mem_append_left _ hi)).1
  · rcases List.mem_cons.mp hi with rfl | hi
    · exact htag
    · exact (h i (List.mem_append_right _ hi)).1

theorem names_length :
    (Lib.Tlv.encodeAll hello.names).length + 6 ≤ (Lib.Tlv.encodeAll hello.extensions).length := by
  simp only [HelloFields.extensions, Lib.Tlv.encode_all_append, Lib.Tlv.encode_all_cons,
    Lib.Tlv.encode_length, vector_length, List.length_append, List.length_cons, List.length_nil]
  omega

theorem names_in_hello :
    namesIn (HelloFields.vector (Lib.Tlv.encodeAll hello.names)) = [hello.host.1] := by
  have hfit := hello.message_length
  have hlen := names_length hello
  rw [message_length_content, content_length] at hfit
  have hitems : Lib.Tlv.items 1 (Lib.Tlv.encodeAll hello.names) = hello.names :=
    Lib.Tlv.items_encode_all
      (Lib.Tlv.fits_of_encode_all (tag_length rfl hello.names_tag) (by omega))
  have hitem : Lib.Tlv.item 0 (HelloFields.vector (Lib.Tlv.encodeAll hello.names)) =
      some (([], Lib.Tlv.encodeAll hello.names), []) := by
    have hfits : Lib.Tlv.Fits 0 ([], Lib.Tlv.encodeAll hello.names) := by
      constructor
      · rfl
      · show (Lib.Tlv.encodeAll hello.names).length < 65536
        omega
    have hwhole := Lib.Tlv.item_encode hfits []
    rwa [List.append_nil] at hwhole
  simp only [namesIn, hitem, hostNames, hitems]
  rw [HelloFields.names, filter_tag fun n hn => (hello.names_tag n hn).2]
  rfl

theorem hello_names_hello (rest : List UInt8) :
    helloNames (hello.record ++ rest) = [[hello.host.1]] := by
  have hfit := hello.message_length
  rw [message_length_content, content_length] at hfit
  have hitems : Lib.Tlv.items 2 (Lib.Tlv.encodeAll hello.extensions) = hello.extensions :=
    Lib.Tlv.items_encode_all
      (Lib.Tlv.fits_of_encode_all (tag_length rfl hello.extensions_tag) (by omega))
  unfold helloNames
  rw [record_hello]
  simp only [bind, Except.bind, extension_vector_hello, serverNames, hitems]
  rw [HelloFields.extensions, filter_tag fun e he => (hello.extensions_tag e he).2]
  simp only [List.map_cons, List.map_nil, names_in_hello]

end Hello

/-- Every host name in these bytes is the one that a gateway took them to be bound for. -/
def SniBinds (bytes : List UInt8) : Prop :=
  ∀ target, assertSniMatchesTarget bytes target = .ok () →
    (Hello.helloNames bytes).flatten ≠ [] ∧
      ∀ host ∈ (Hello.helloNames bytes).flatten, eqIgnoreAsciiCase host target.1 = true

/-- No host name behind the first differs from it, where the first server_name extension has one
that is a text. -/
def OneServerName (bytes : List UInt8) : Prop :=
  ∀ (first : Str) (more : List (List UInt8)) (rest : List (List (List UInt8))),
    Hello.helloNames bytes = (first.1 :: more) :: rest →
      ∀ host ∈ more ++ rest.flatten, eqIgnoreAsciiCase host first.1 = true

theorem assert_sni_matches_target_ok {bytes : List UInt8} {target : Str} :
    assertSniMatchesTarget bytes target = .ok () ↔
      ∃ sni, clientHelloSni bytes = .ok (some sni) ∧ eqIgnoreAsciiCase sni.1 target.1 = true := by
  unfold assertSniMatchesTarget
  constructor
  · intro h
    split at h
    · cases h
    · cases h
    · rename_i sni hsni
      split at h
      · rename_i heq
        exact ⟨sni, hsni, heq⟩
      · cases h
  · rintro ⟨sni, hsni, heq⟩
    rw [hsni]
    exact if_pos heq

theorem sni_binds_iff (bytes : List UInt8) : SniBinds bytes ↔ OneServerName bytes := by
  constructor
  · intro h first more rest hnames host hhost
    have haccept : assertSniMatchesTarget bytes first = .ok () :=
      assert_sni_matches_target_ok.mpr
        ⟨first, Hello.client_hello_sni_some.mpr ⟨more, rest, hnames⟩, beq_self_eq_true _⟩
    refine (h first haccept).2 host ?_
    rw [hnames, List.flatten_cons, List.cons_append]
    exact List.mem_cons_of_mem _ hhost
  · intro h target haccept
    obtain ⟨sni, hsni, heq⟩ := assert_sni_matches_target_ok.mp haccept
    obtain ⟨more, rest, hnames⟩ := Hello.client_hello_sni_some.mp hsni
    rw [hnames, List.flatten_cons, List.cons_append]
    refine ⟨List.cons_ne_nil _ _, ?_⟩
    intro host hhost
    rcases List.mem_cons.mp hhost with rfl | hhost
    · exact heq
    · have hfirst := h sni more rest hnames host hhost
      simp only [eqIgnoreAsciiCase, beq_iff_eq] at hfirst heq ⊢
      exact hfirst.trans heq

/-- A gateway knows every server name of what it lets through when the bytes name one host; a
well-formed ClientHello with one name gives that name, and every run of bytes an answer. -/
theorem sni_of_client_hello (bytes : List UInt8) (hello : ClientHello) (rest : List UInt8) :
    (SniBinds bytes ↔ OneServerName bytes) ∧ Hello.Settled (clientHelloSni bytes) ∧
      clientHelloSni (hello.record ++ rest) = .ok (some hello.host) :=
  ⟨sni_binds_iff bytes, Hello.settled_client_hello_sni bytes,
    Hello.client_hello_sni_some.mpr ⟨[], [], Hello.hello_names_hello hello rest⟩⟩

/-- A ClientHello that names `api.anthropic.com` and, behind it in one list, `evil.example`. -/
def frontingHello : HelloFields where
  recordVersion := [0x03, 0x01]
  version := [0x03, 0x03]
  random := List.replicate 32 0
  sessionId := []
  cipherSuites := [0x13, 0x01]
  compression := [0x00]
  extensionsBefore := []
  namesBefore := []
  host := ⟨[0x61, 0x70, 0x69, 0x2E, 0x61, 0x6E, 0x74, 0x68, 0x72, 0x6F, 0x70, 0x69, 0x63, 0x2E,
    0x63, 0x6F, 0x6D], by decide⟩
  namesAfter := [([0], [0x65, 0x76, 0x69, 0x6C, 0x2E, 0x65, 0x78, 0x61, 0x6D, 0x70, 0x6C, 0x65])]
  extensionsAfter := []

theorem fronting_hello_unbound : ¬SniBinds frontingHello.record := by
  intro h
  have haccept : assertSniMatchesTarget frontingHello.record frontingHello.host = .ok () := by
    decide +kernel
  have hevil := (h frontingHello.host haccept).2
    [0x65, 0x76, 0x69, 0x6C, 0x2E, 0x65, 0x78, 0x61, 0x6D, 0x70, 0x6C, 0x65] (by decide +kernel)
  exact absurd hevil (by decide)

end TeamClaude
