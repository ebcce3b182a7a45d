import TeamClaude.Lib.Aead
import TeamClaude.Peer.Key32

/-!
# Sealed address records

What a machine that moved leaves for another one: a record of addresses at a name of the dead drop,
or in a link that is handed over. Both are sealed by one cipher into frames of their own. Relative
to the calls that sealed something, a record opens only where it was meant.
-/

namespace TeamClaude

open Lib.Net (SocketAddr)

/-! ## The sealed payload -/

def nonceBytes : Nat := 12

def tagBytes : Nat := 16

/-- ChaCha20-Poly1305. -/
abbrev Cipher :=
  Lib.Aead (Octets 32) (Octets nonceBytes)

abbrev SealCall :=
  Lib.Aead.Call (Octets 32) (Octets nonceBytes)

inductive SealFailure
  | csprng
  | aead
  deriving DecidableEq

inductive OpenFailure
  | tooShort
  | didNotAuthenticate
  deriving DecidableEq

section
variable (cipher : Cipher) (sealKey : Octets 32)

/-- `seal_payload`, with the nonce that the platform filled, if it did. -/
def sealPayload (nonce : Option (Octets nonceBytes)) (aad plaintext : List UInt8) :
    Except SealFailure (List UInt8) :=
  match nonce with
  | none => .error .csprng
  | some nonce =>
    match cipher.encrypt sealKey nonce aad plaintext with
    | none => .error .aead
    | some body => .ok (nonce.1 ++ body)

def openPayload (aad payload : List UInt8) : Except OpenFailure (List UInt8) :=
  match Lib.getTo nonceBytes payload with
  | none => .error .tooShort
  | some nonce =>
    match Lib.getFrom nonceBytes payload with
    | none => .error .tooShort
    | some body =>
      if body.length ≤ tagBytes then .error .tooShort
      else
        match cipher.decrypt sealKey nonce aad body with
        | none => .error .didNotAuthenticate
        | some plaintext => .ok plaintext

end

/-! ## Records -/

/-- What `serde_json` does for one type. -/
structure JsonFormat (α : Type) where
  toVec : α → Option (List UInt8)
  fromSlice : List UInt8 → Option α

/-- What was written is read back, and nothing is no document. -/
structure JsonFormat.Faithful {α : Type} (json : JsonFormat α) : Prop where
  round_trip : ∀ a bytes, json.toVec a = some bytes → json.fromSlice bytes = some a
  empty : json.fromSlice [] = none

structure DropRecord where
  v : UInt8
  publisher : PeerKey
  slot : UInt64
  /-- `at` -/
  time : UInt64
  eps : List SocketAddr
  deriving DecidableEq

/-- A drop record as it is serialized: `v`, `pub`, `slot`, `at` and `eps`. -/
structure DropFields where
  v : UInt8
  publisher : List Char
  slot : UInt64
  time : UInt64
  eps : List (List Char)
  deriving DecidableEq

structure MovedRecord where
  v : UInt8
  /-- `at` -/
  time : UInt64
  eps : List SocketAddr
  deriving DecidableEq

structure MovedFields where
  v : UInt8
  time : UInt64
  eps : List (List Char)
  deriving DecidableEq

structure Crates where
  base : Lib.Encoding
  cipher : Cipher
  dropJson : JsonFormat DropFields
  movedJson : JsonFormat MovedFields

section
variable (base : Lib.Encoding)

def DropRecord.fields (record : DropRecord) : DropFields where
  v := record.v
  publisher := record.publisher.toWire base
  slot := record.slot
  time := record.time
  eps := record.eps.map SocketAddr.display

def DropFields.record (fields : DropFields) : Option DropRecord := do
  let publisher ← (PeerKey.parse base fields.publisher).toOption
  let eps ← fields.eps.mapM Lib.Net.parseSocketAddr
  return ⟨fields.v, publisher, fields.slot, fields.time, eps⟩

end

def MovedRecord.fields (record : MovedRecord) : MovedFields where
  v := record.v
  time := record.time
  eps := record.eps.map SocketAddr.display

def MovedFields.record (fields : MovedFields) : Option MovedRecord := do
  let eps ← fields.eps.mapM Lib.Net.parseSocketAddr
  return ⟨fields.v, fields.time, eps⟩

/-- A record with what the texts of its addresses say of them. -/
def DropRecord.shown (record : DropRecord) : DropRecord :=
  { record with eps := record.eps.map SocketAddr.shown }

def MovedRecord.shown (record : MovedRecord) : MovedRecord :=
  { record with eps := record.eps.map SocketAddr.shown }

/-! ## Frames -/

/-- Why a record is not sealed. -/
inductive SealRefusal
  | version (found expected : UInt8)
  | tooManyEndpoints (found max : Nat)
  | wouldNotSerialize
  | payload (failure : SealFailure)
  deriving DecidableEq

def checkedPlaintext (version v : UInt8) (eps : List SocketAddr) (written : Option (List UInt8)) :
    Except SealRefusal (List UInt8) :=
  if v ≠ version then .error (.version v version)
  else if maxRecordEndpoints < eps.length then
    .error (.tooManyEndpoints eps.length maxRecordEndpoints)
  else
    match written with
    | none => .error .wouldNotSerialize
    | some plaintext => .ok plaintext

def sealFrame (cipher : Cipher) (magic : Octets 4) (version : UInt8) (sealKey : Octets 32)
    (nonce : Option (Octets nonceBytes)) (aad plaintext : List UInt8) :
    Except SealRefusal (List UInt8) := do
  let payload ← (sealPayload cipher sealKey nonce aad plaintext).mapError .payload
  return magic.1 ++ version :: payload

inductive FrameRefusal
  | magic (found : List UInt8)
  | short
  | version (found : UInt8)
  | payload (failure : OpenFailure)
  deriving DecidableEq

/-- The first four bytes, with zeros for those that are not there. -/
def foundMagic (sealed : List UInt8) : List UInt8 :=
  sealed.take 4 ++ List.replicate (4 - sealed.length) 0

def frameBytes : Nat := 5

def openFrame (cipher : Cipher) (magic : Octets 4) (version : UInt8) (sealKey : Octets 32)
    (aad sealed : List UInt8) : Except FrameRefusal (List UInt8) :=
  if foundMagic sealed ≠ magic.1 then .error (.magic (foundMagic sealed))
  else
    match sealed[4]? with
    | none => .error .short
    | some found =>
      if found ≠ version then .error (.version found)
      else
        match Lib.getFrom frameBytes sealed with
        | none => .error .short
        | some payload => (openPayload cipher sealKey aad payload).mapError .payload

/-- `MAX_CLOCK_SKEW`, in seconds. -/
def maxClockSkew : Nat := 300

inductive ClockRefusal
  | fromTheFuture (aheadS : Nat)
  | stale (ageS maxS : Nat)
  deriving DecidableEq

/-- The time of a record against a clock, and a ceiling for its age. -/
def checkClock (maxAge : Nat) (time now : UInt64) : Except ClockRefusal Unit :=
  if min (now.toNat + maxClockSkew) (UInt64.size - 1) < time.toNat then
    .error (.fromTheFuture (time.toNat - now.toNat))
  else if maxAge < now.toNat - time.toNat then
    .error (.stale (now.toNat - time.toNat) maxAge)
  else .ok ()

/-! ## The dead drop -/

structure DropKeys where
  nameKey : Octets 32
  sealKey : Octets 32
  deriving DecidableEq

structure DropName where
  bytes : Octets 16
  deriving DecidableEq

def slotMessage (base : Lib.Encoding) (publisher : PeerKey) (slot : UInt64) : List UInt8 :=
  [0x73, 0x6C, 0x6F, 0x74] ++ (Lib.be64Bytes slot ++ Lib.asBytes (publisher.toWire base))

def DropName.forSlot (base : Lib.Encoding) (hmacSha256 : Octets 32 → List UInt8 → Octets 32)
    (keys : DropKeys) (publisher : PeerKey) (slot : UInt64) : DropName :=
  let mac := hmacSha256 keys.nameKey (slotMessage base publisher slot)
  ⟨mac.1.take 16, List.length_take_of_le (by rw [mac.2]; decide)⟩

def PeerKey.display (base : Lib.Encoding) (id : PeerKey) : List Char :=
  ['t', 'c', 'r', '-'] ++ (id.toWire base).take 10

namespace Drop

/-- `DROP_MAGIC`, `TCRD`. -/
def magic : Octets 4 :=
  ⟨[0x54, 0x43, 0x52, 0x44], rfl⟩

/-- `DROP_VERSION` -/
def version : UInt8 := 1

/-- `MAX_RECORD_AGE`, in seconds: two slots of an hour. -/
def maxRecordAge : Nat := 2 * 3600

inductive RecordRefusal
  | notARecord (found : List UInt8)
  | version (found expected : UInt8)
  | didNotOpen
  | wrongPublisher (found expected : List Char)
  | wrongSlot (found expected : UInt64)
  | stale (ageS maxS : Nat)
  | fromTheFuture (aheadS : Nat)
  deriving DecidableEq

def RecordRefusal.ofFrame : FrameRefusal → RecordRefusal
  | .magic found => .notARecord found
  | .short => .didNotOpen
  | .version found => .version found Drop.version
  | .payload _ => .didNotOpen

def RecordRefusal.ofClock : ClockRefusal → RecordRefusal
  | .fromTheFuture aheadS => .fromTheFuture aheadS
  | .stale ageS maxS => .stale ageS maxS

def associatedData (base : Lib.Encoding) (name : DropName) (publisher : PeerKey) : List UInt8 :=
  name.bytes.1 ++ Lib.asBytes (publisher.toWire base)

section
variable (crates : Crates) (keys : DropKeys) (name : DropName)

def plaintext (record : DropRecord) : Except SealRefusal (List UInt8) :=
  checkedPlaintext version record.v record.eps (crates.dropJson.toVec (record.fields crates.base))

def sealRecord (record : DropRecord) (nonce : Option (Octets nonceBytes)) :
    Except SealRefusal (List UInt8) := do
  let plaintext ← plaintext crates record
  sealFrame crates.cipher magic version keys.sealKey nonce
    (associatedData crates.base name record.publisher) plaintext

def check (slot : UInt64) (expectedPublisher : PeerKey) (record : DropRecord) (now : UInt64) :
    Except RecordRefusal DropRecord :=
  if record.v ≠ version then .error (.version record.v version)
  else if record.publisher ≠ expectedPublisher then
    .error (.wrongPublisher (record.publisher.display crates.base)
      (expectedPublisher.display crates.base))
  else if record.slot ≠ slot then .error (.wrongSlot record.slot slot)
  else do
    (checkClock maxRecordAge record.time now).mapError RecordRefusal.ofClock
    return record

/-- `drop::open` -/
def openRecord (slot : UInt64) (expectedPublisher : PeerKey) (sealed : List UInt8) (now : UInt64) :
    Except RecordRefusal DropRecord := do
  let plaintext ← (openFrame crates.cipher magic version keys.sealKey
    (associatedData crates.base name expectedPublisher) sealed).mapError RecordRefusal.ofFrame
  match (crates.dropJson.fromSlice plaintext).bind (DropFields.record crates.base) with
  | none => .error .didNotOpen
  | some record => check crates slot expectedPublisher record now

end

end Drop

/-! ## The moved link -/

structure MovedKeys where
  sealKey : Octets 32
  deriving DecidableEq

namespace Moved

/-- `MOVED_MAGIC`, `TCRM`. -/
def magic : Octets 4 :=
  ⟨[0x54, 0x43, 0x52, 0x4D], rfl⟩

/-- `MOVED_VERSION` -/
def version : UInt8 := 1

/-- `MOVED_CONTEXT` -/
def context : List UInt8 :=
  Lib.asBytes "tcr peer moved v1".toList

def minLinkBytes : Nat :=
  frameBytes + nonceBytes + tagBytes + 1

/-- `MAX_MOVED_AGE`, in seconds. -/
def maxMovedAge : Nat := 24 * 3600

inductive MovedRefusal
  | cutShort
  | notALink
  | version (found expected : UInt8)
  | notForThisMac
  | unreadable
  | fromTheFuture (aheadS : Nat)
  | stale (ageS maxS : Nat)
  deriving DecidableEq

def MovedRefusal.ofFrame : FrameRefusal → MovedRefusal
  | .magic _ => .notALink
  | .short => .cutShort
  | .version found => .version found Moved.version
  | .payload _ => .notForThisMac

def MovedRefusal.ofClock : ClockRefusal → MovedRefusal
  | .fromTheFuture aheadS => .fromTheFuture aheadS
  | .stale ageS maxS => .stale ageS maxS

def associatedData (base : Lib.Encoding) (publisher : PeerKey) : List UInt8 :=
  context ++ Lib.asBytes (publisher.toWire base)

section
variable (crates : Crates) (keys : MovedKeys)

def plaintext (record : MovedRecord) : Except SealRefusal (List UInt8) :=
  checkedPlaintext version record.v record.eps (crates.movedJson.toVec record.fields)

def sealLink (publisher : PeerKey) (record : MovedRecord) (nonce : Option (Octets nonceBytes)) :
    Except SealRefusal (List UInt8) := do
  let plaintext ← plaintext crates record
  sealFrame crates.cipher magic version keys.sealKey nonce
    (associatedData crates.base publisher) plaintext

def check (record : MovedRecord) (now : UInt64) : Except MovedRefusal MovedRecord :=
  if record.v ≠ version then .error (.version record.v version)
  else do
    (checkClock maxMovedAge record.time now).mapError MovedRefusal.ofClock
    return record

def openLink (expectedPublisher : PeerKey) (sealed : List UInt8) (now : UInt64) :
    Except MovedRefusal MovedRecord :=
  if sealed.length < minLinkBytes then .error .cutShort
  else do
    let plaintext ← (openFrame crates.cipher magic version keys.sealKey
      (associatedData crates.base expectedPublisher) sealed).mapError MovedRefusal.ofFrame
    match (crates.movedJson.fromSlice plaintext).bind MovedFields.record with
    | none => .error .unreadable
    | some record => check record now

end

end Moved

/-! ## What a frame holds -/

section
variable {cipher : Cipher} {sealKey : Octets 32} {aad payload msg sealed : List UInt8}
  {magic : Octets 4} {version : UInt8} {nonce : Option (Octets nonceBytes)}

theorem seal_payload_iff :
    sealPayload cipher sealKey nonce aad msg = .ok payload ↔
      ∃ filled body, nonce = some filled ∧ cipher.encrypt sealKey filled aad msg = some body ∧
        payload = filled.1 ++ body := by
  unfold sealPayload
  constructor
  · intro h
    split at h
    · cases h
    · rename_i filled
      split at h
      · cases h
      · rename_i body hbody
        cases h
        exact ⟨filled, body, rfl, hbody, rfl⟩
  · rintro ⟨filled, body, rfl, hbody, rfl⟩
    simp only [hbody]

theorem open_payload_iff :
    openPayload cipher sealKey aad payload = .ok msg ↔
      ∃ (filled : Octets nonceBytes) (body : List UInt8), payload = filled.1 ++ body ∧
        tagBytes < body.length ∧ cipher.decrypt sealKey filled aad body = some msg := by
  unfold openPayload
  constructor
  · intro h
    split at h
    · cases h
    · rename_i filled hfilled
      split at h
      · cases h
      · rename_i body hbody
        split at h
        · cases h
        · rename_i hlen
          split at h
          · cases h
          · rename_i found hopen
            cases h
            exact ⟨filled, body, Lib.get_some hfilled hbody, Nat.not_le.mp hlen, hopen⟩
  · rintro ⟨filled, body, rfl, hlen, hopen⟩
    simp only [Lib.get_to_append filled body, Lib.get_from_append filled.2 body,
      if_neg (Nat.not_le.mpr hlen), hopen]

theorem found_magic_append (magic : Octets 4) (rest : List UInt8) :
    foundMagic (magic.1 ++ rest) = magic.1 := by
  have hlen : 4 - (magic.1 ++ rest).length = 0 := by
    rw [List.length_append, magic.2]
    omega
  rw [foundMagic, hlen, List.take_left' magic.2]
  exact List.append_nil _

theorem frame_of_found (hmagic : foundMagic sealed = magic.1) (hversion : sealed[4]? = some version)
    (hpayload : Lib.getFrom frameBytes sealed = some payload) :
    sealed = magic.1 ++ version :: payload := by
  obtain ⟨hlt, hget⟩ := List.getElem?_eq_some_iff.mp hversion
  have htake : sealed.take 4 = magic.1 := by
    rw [← hmagic, foundMagic, show 4 - sealed.length = 0 by omega]
    exact (List.append_nil _).symm
  have hdrop : sealed.drop 4 = version :: sealed.drop 5 := by
    rw [List.drop_eq_getElem_cons hlt, hget]
  unfold Lib.getFrom at hpayload
  rw [if_pos (show frameBytes ≤ sealed.length from hlt)] at hpayload
  cases hpayload
  rw [← htake]
  exact (List.take_append_drop 4 sealed).symm.trans (congrArg (sealed.take 4 ++ ·) hdrop)

theorem open_frame_iff :
    openFrame cipher magic version sealKey aad sealed = .ok msg ↔
      ∃ (filled : Octets nonceBytes) (body : List UInt8),
        sealed = magic.1 ++ version :: (filled.1 ++ body) ∧ tagBytes < body.length ∧
          cipher.decrypt sealKey filled aad body = some msg := by
  unfold openFrame
  constructor
  · intro h
    split at h
    · cases h
    · rename_i hmagic
      split at h
      · cases h
      · rename_i found hfound
        split at h
        · cases h
        · rename_i hversion
          split at h
          · cases h
          · rename_i payload hpayload
            obtain ⟨filled, body, rfl, hlen, hopen⟩ := open_payload_iff.mp (Lib.map_error_ok.mp h)
            rw [not_not.mp hversion] at hfound
            exact ⟨filled, body, frame_of_found (not_not.mp hmagic) hfound hpayload, hlen, hopen⟩
  · rintro ⟨filled, body, rfl, hlen, hopen⟩
    obtain ⟨payload, hpayload⟩ : ∃ payload, payload = filled.1 ++ body := ⟨_, rfl⟩
    rw [← hpayload]
    have hversion : (magic.1 ++ version :: payload)[4]? = some version := by
      rw [List.getElem?_append_right (Nat.le_of_eq magic.2), magic.2]
      rfl
    have hfrom : Lib.getFrom frameBytes (magic.1 ++ version :: payload) = some payload := by
      rw [show magic.1 ++ version :: payload = (magic.1 ++ [version]) ++ payload by
        rw [List.append_assoc]
        rfl]
      refine Lib.get_from_append ?_ payload
      rw [List.length_append, magic.2]
      rfl
    rw [if_neg (not_not_intro (found_magic_append magic _))]
    simp only [hversion]
    rw [if_neg (not_not_intro rfl), hfrom]
    exact Lib.map_error_ok.mpr (open_payload_iff.mpr ⟨filled, body, hpayload, hlen, hopen⟩)

theorem seal_frame_iff :
    sealFrame cipher magic version sealKey nonce aad msg = .ok sealed ↔
      ∃ filled body, nonce = some filled ∧ cipher.encrypt sealKey filled aad msg = some body ∧
        sealed = magic.1 ++ version :: (filled.1 ++ body) := by
  unfold sealFrame
  constructor
  · intro h
    obtain ⟨payload, hpayload, h⟩ := Lib.bind_ok.mp h
    cases h
    obtain ⟨filled, body, hnonce, hbody, rfl⟩ :=
      seal_payload_iff.mp (Lib.map_error_ok.mp hpayload)
    exact ⟨filled, body, hnonce, hbody, rfl⟩
  · rintro ⟨filled, body, hnonce, hbody, rfl⟩
    exact Lib.bind_ok.mpr ⟨_, Lib.map_error_ok.mpr
      (seal_payload_iff.mpr ⟨filled, body, hnonce, hbody, rfl⟩), rfl⟩

theorem frame_magic {other : Octets 4} {found : UInt8} {rest more : List UInt8}
    (h : magic.1 ++ version :: rest = other.1 ++ found :: more) : magic = other :=
  Subtype.ext (List.append_inj_left h (magic.2.trans other.2.symm))

variable {calls : List SealCall}

/-- A frame opens exactly when one of the calls sealed something in it. -/
theorem frame_opens_iff (hideal : cipher.Ideal tagBytes calls) :
    openFrame cipher magic version sealKey aad sealed = .ok msg ↔
      msg ≠ [] ∧ ∃ filled, ⟨sealKey, filled, aad, msg⟩ ∈ calls ∧
        sealFrame cipher magic version sealKey (some filled) aad msg = .ok sealed := by
  constructor
  · intro h
    obtain ⟨filled, body, hsealed, hlen, hopen⟩ := open_frame_iff.mp h
    obtain ⟨hcall, hencrypt⟩ := (hideal.opens_iff _ _ _ _ _).mp hopen
    have htag := hideal.tag _ _ _ _ _ hencrypt
    refine ⟨?_, filled, hcall, seal_frame_iff.mpr ⟨filled, body, rfl, hencrypt, hsealed⟩⟩
    rintro rfl
    rw [List.length_nil] at htag
    omega
  · rintro ⟨hmsg, filled, hcall, hseal⟩
    obtain ⟨nonce, body, hnonce, hencrypt, hsealed⟩ := seal_frame_iff.mp hseal
    cases hnonce
    have htag := hideal.tag _ _ _ _ _ hencrypt
    have hpos := List.length_pos_iff.mpr hmsg
    exact open_frame_iff.mpr ⟨filled, body, hsealed, by omega,
      (hideal.opens_iff _ _ _ _ _).mpr ⟨hcall, hencrypt⟩⟩

theorem seal_frame_length (hideal : cipher.Ideal tagBytes calls)
    (h : sealFrame cipher magic version sealKey nonce aad msg = .ok sealed) :
    sealed.length = frameBytes + nonceBytes + tagBytes + msg.length := by
  obtain ⟨filled, body, -, hencrypt, rfl⟩ := seal_frame_iff.mp h
  have htag := hideal.tag _ _ _ _ _ hencrypt
  rw [List.length_append, List.length_cons, List.length_append, magic.2, filled.2, htag]
  unfold frameBytes
  omega

end

theorem checked_plaintext_iff {version v : UInt8} {eps : List SocketAddr}
    {written : Option (List UInt8)} {msg : List UInt8} :
    checkedPlaintext version v eps written = .ok msg ↔
      v = version ∧ eps.length ≤ maxRecordEndpoints ∧ written = some msg := by
  unfold checkedPlaintext
  split
  · rename_i hv
    exact ⟨fun h => (nomatch h), fun h => absurd h.1 hv⟩
  · rename_i hv
    split
    · rename_i hlen
      exact ⟨fun h => (nomatch h), fun h => absurd h.2.1 (Nat.not_le.mpr hlen)⟩
    · rename_i hlen
      cases written with
      | none => exact ⟨fun h => (nomatch h), fun h => (nomatch h.2.2)⟩
      | some bytes =>
        simp only [Except.ok.injEq, Option.some.injEq]
        exact ⟨fun h => ⟨not_not.mp hv, Nat.not_lt.mp hlen, h⟩, fun h => h.2.2⟩

/-- A time is at most the skew ahead of a clock, and at most the ceiling behind it. -/
def InTime (maxAge : Nat) (time now : UInt64) : Prop :=
  time.toNat ≤ now.toNat + maxClockSkew ∧ now.toNat ≤ time.toNat + maxAge

theorem check_clock_iff {maxAge : Nat} {time now : UInt64} :
    checkClock maxAge time now = .ok () ↔ InTime maxAge time now := by
  have hlt := time.toNat_lt
  have hsize : UInt64.size = 2 ^ 64 := rfl
  unfold checkClock InTime
  split
  · rename_i hfuture
    refine ⟨fun h => (nomatch h), fun h => ?_⟩
    omega
  · rename_i hfuture
    split
    · rename_i hstale
      refine ⟨fun h => (nomatch h), fun h => ?_⟩
      omega
    · rename_i hstale
      refine ⟨fun _ => ?_, fun _ => rfl⟩
      omega

/-! ## What a record is read back as -/

theorem map_m_shown (eps : List SocketAddr) :
    (eps.map SocketAddr.display).mapM Lib.Net.parseSocketAddr =
      some (eps.map SocketAddr.shown) := by
  induction eps with
  | nil => rfl
  | cons addr eps ih =>
    rw [List.map_cons, List.mapM_cons, Lib.Net.parse_shown, ih]
    rfl

section
variable {base : Lib.Encoding}

theorem drop_fields_record (hbase : CodecLawful base) (record : DropRecord) :
    (record.fields base).record base = some record.shown := by
  unfold DropFields.record DropRecord.fields
  simp only [peer_key_parse_to_wire hbase, map_m_shown]
  rfl

theorem moved_fields_record (record : MovedRecord) : record.fields.record = some record.shown := by
  unfold MovedFields.record MovedRecord.fields
  simp only [map_m_shown]
  rfl

/-! ## What is authenticated -/

theorem to_wire_inj (hbase : CodecLawful base) {publisher other : PeerKey}
    (h : Lib.asBytes (publisher.toWire base) = Lib.asBytes (other.toWire base)) :
    publisher = other := by
  have hkey := encode_inj hbase (Lib.as_bytes_inj.mp h)
  cases publisher
  cases other
  exact congrArg PeerKey.mk (Subtype.ext hkey)

/-- The wire forms of two publishers are equally long. -/
theorem wire_bytes_length (hbase : CodecLawful base) (huniform : base.Uniform)
    (publisher other : PeerKey) :
    (Lib.asBytes (publisher.toWire base)).length = (Lib.asBytes (other.toWire base)).length := by
  have hsize : ∀ c ∈ crockfordAlphabet, c.utf8Size = 1 := Lib.forall_mem_of_all (by decide)
  have hbytes : ∀ id : PeerKey,
      (Lib.asBytes (id.toWire base)).length = (id.toWire base).length := fun id =>
    Lib.as_bytes_length fun c hc => hsize c (hbase.encode_symbols _ c hc)
  rw [hbytes, hbytes]
  exact huniform _ _ (publisher.key.2.trans other.key.2.symm)

theorem drop_associated_inj (hbase : CodecLawful base) {name other : DropName}
    {publisher peer : PeerKey}
    (h : Drop.associatedData base name publisher = Drop.associatedData base other peer) :
    name = other ∧ publisher = peer := by
  obtain ⟨hname, hwire⟩ := List.append_inj h (name.bytes.2.trans other.bytes.2.symm)
  cases name
  cases other
  exact ⟨congrArg DropName.mk (Subtype.ext hname), to_wire_inj hbase hwire⟩

theorem moved_associated_inj (hbase : CodecLawful base) {publisher peer : PeerKey}
    (h : Moved.associatedData base publisher = Moved.associatedData base peer) :
    publisher = peer :=
  to_wire_inj hbase (List.append_cancel_left h)

theorem associated_ne (hbase : CodecLawful base) (huniform : base.Uniform) (name : DropName)
    (publisher peer : PeerKey) :
    Drop.associatedData base name publisher ≠ Moved.associatedData base peer := by
  intro h
  have hlen := congrArg List.length h
  have hcontext : Moved.context.length = 17 := by decide
  rw [Drop.associatedData, Moved.associatedData, List.length_append, List.length_append,
    name.bytes.2, hcontext, wire_bytes_length hbase huniform publisher peer] at hlen
  omega

theorem slot_message_inj (hbase : CodecLawful base) {publisher peer : PeerKey} {slot other : UInt64}
    (h : slotMessage base publisher slot = slotMessage base peer other) :
    publisher = peer ∧ slot = other := by
  obtain ⟨hslot, hwire⟩ := List.append_inj (List.append_cancel_left h)
    ((Lib.be64_bytes_length slot).trans (Lib.be64_bytes_length other).symm)
  exact ⟨to_wire_inj hbase hwire, Lib.be64_bytes_inj hslot⟩

/-- Two publishers or two slots share a name only where the front of a MAC collides. -/
theorem for_slot_collision (hbase : CodecLawful base)
    {hmacSha256 : Octets 32 → List UInt8 → Octets 32} {keys : DropKeys} {publisher peer : PeerKey}
    {slot other : UInt64} (hne : publisher ≠ peer ∨ slot ≠ other)
    (h : DropName.forSlot base hmacSha256 keys publisher slot =
      DropName.forSlot base hmacSha256 keys peer other) :
    ∃ message second, message ≠ second ∧
      (hmacSha256 keys.nameKey message).1.take 16 = (hmacSha256 keys.nameKey second).1.take 16 := by
  refine ⟨slotMessage base publisher slot, slotMessage base peer other, fun hmessage => ?_, ?_⟩
  · obtain ⟨hpublisher, hslot⟩ := slot_message_inj hbase hmessage
    rcases hne with hne | hne
    · exact hne hpublisher
    · exact hne hslot
  · exact congrArg (fun name => name.bytes.1) h

end

end TeamClaude
