import TeamClaude.Peer.SealedRecords

/-!
# Where sealed records open

The calls of the two sealing functions, and what opens relative to them: what `drop::seal` gave for
a name, a publisher and a slot opens there, what `seal_link` gave for a publisher opens for it, and
nothing else does.
-/

namespace TeamClaude

open Lib.Net (SocketAddr)

/-! ## The calls that seal -/

/-- A call of `drop::seal` or of `seal_link`, with the nonce that was filled for it. -/
inductive Sealing
  | drop (keys : DropKeys) (name : DropName) (record : DropRecord) (nonce : Octets nonceBytes)
  | link (keys : MovedKeys) (publisher : PeerKey) (record : MovedRecord) (nonce : Octets nonceBytes)

/-- The call of the cipher that it makes, if it comes to one. -/
def Sealing.call? (crates : Crates) : Sealing → Option SealCall
  | drop keys name record nonce =>
    (Drop.plaintext crates record).toOption.map fun msg =>
      ⟨keys.sealKey, nonce, Drop.associatedData crates.base name record.publisher, msg⟩
  | link keys publisher record nonce =>
    (Moved.plaintext crates record).toOption.map fun msg =>
      ⟨keys.sealKey, nonce, Moved.associatedData crates.base publisher, msg⟩

/-- What the crates are relied on for, when these were the calls that sealed something. -/
structure Crates.Documented (crates : Crates) (log : List Sealing) : Prop where
  base : CodecLawful crates.base
  uniform : crates.base.Uniform
  drop_json : crates.dropJson.Faithful
  moved_json : crates.movedJson.Faithful
  cipher : crates.cipher.Ideal tagBytes (log.filterMap (Sealing.call? crates))

section
variable {crates : Crates} {log : List Sealing}

/-- What was sealed under the associated data of a drop was sealed by `drop::seal`, for that name
and a record of that publisher. -/
theorem mem_calls_drop (h : crates.Documented log) {key : Octets 32} {nonce : Octets nonceBytes}
    {name : DropName} {publisher : PeerKey} {msg : List UInt8} :
    ⟨key, nonce, Drop.associatedData crates.base name publisher, msg⟩ ∈
        log.filterMap (Sealing.call? crates) ↔
      ∃ keys record, Sealing.drop keys name record nonce ∈ log ∧ keys.sealKey = key ∧
        record.publisher = publisher ∧ Drop.plaintext crates record = .ok msg := by
  rw [List.mem_filterMap]
  constructor
  · rintro ⟨sealing, hmem, hcall⟩
    cases sealing with
    | drop keys other record filled =>
      obtain ⟨found, hfound, heq⟩ := Option.map_eq_some_iff.mp hcall
      injection heq with hkey hnonce haad hmsg
      obtain ⟨rfl, hpublisher⟩ := drop_associated_inj h.base haad
      subst hnonce
      subst hmsg
      exact ⟨keys, record, hmem, hkey, hpublisher, Lib.to_option_some.mp hfound⟩
    | link keys other record filled =>
      obtain ⟨found, hfound, heq⟩ := Option.map_eq_some_iff.mp hcall
      injection heq with hkey hnonce haad hmsg
      exact absurd haad.symm (associated_ne h.base h.uniform name publisher other)
  · rintro ⟨keys, record, hmem, rfl, rfl, hmsg⟩
    exact ⟨_, hmem, Option.map_eq_some_iff.mpr ⟨msg, Lib.to_option_some.mpr hmsg, rfl⟩⟩

theorem mem_calls_link (h : crates.Documented log) {key : Octets 32} {nonce : Octets nonceBytes}
    {publisher : PeerKey} {msg : List UInt8} :
    ⟨key, nonce, Moved.associatedData crates.base publisher, msg⟩ ∈
        log.filterMap (Sealing.call? crates) ↔
      ∃ keys record, Sealing.link keys publisher record nonce ∈ log ∧ keys.sealKey = key ∧
        Moved.plaintext crates record = .ok msg := by
  rw [List.mem_filterMap]
  constructor
  · rintro ⟨sealing, hmem, hcall⟩
    cases sealing with
    | drop keys name record filled =>
      obtain ⟨found, hfound, heq⟩ := Option.map_eq_some_iff.mp hcall
      injection heq with hkey hnonce haad hmsg
      exact absurd haad (associated_ne h.base h.uniform name record.publisher publisher)
    | link keys other record filled =>
      obtain ⟨found, hfound, heq⟩ := Option.map_eq_some_iff.mp hcall
      injection heq with hkey hnonce haad hmsg
      obtain rfl := moved_associated_inj h.base haad
      subst hnonce
      subst hmsg
      exact ⟨keys, record, hmem, hkey, Lib.to_option_some.mp hfound⟩
  · rintro ⟨keys, record, hmem, rfl, hmsg⟩
    exact ⟨_, hmem, Option.map_eq_some_iff.mpr ⟨msg, Lib.to_option_some.mpr hmsg, rfl⟩⟩

end

namespace Drop

/-- One of the calls of `drop::seal` gave these bytes for a record, under the seal key of these keys
and this name. -/
def SealedTo (crates : Crates) (log : List Sealing) (keys : DropKeys) (name : DropName)
    (sealed : List UInt8) (record : DropRecord) : Prop :=
  ∃ made nonce, Sealing.drop made name record nonce ∈ log ∧ made.sealKey = keys.sealKey ∧
    sealRecord crates keys name record (some nonce) = .ok sealed

section
variable {crates : Crates} {log : List Sealing} {keys : DropKeys} {name : DropName}
  {sealed : List UInt8} {written record : DropRecord} {nonce : Option (Octets nonceBytes)}
  {slot now : UInt64} {publisher : PeerKey}

theorem plaintext_iff {msg : List UInt8} :
    plaintext crates record = .ok msg ↔ record.v = version ∧
      record.eps.length ≤ maxRecordEndpoints ∧
        crates.dropJson.toVec (record.fields crates.base) = some msg :=
  checked_plaintext_iff

theorem seal_record_iff :
    sealRecord crates keys name record nonce = .ok sealed ↔
      ∃ msg, plaintext crates record = .ok msg ∧
        sealFrame crates.cipher magic version keys.sealKey nonce
          (associatedData crates.base name record.publisher) msg = .ok sealed := by
  unfold sealRecord
  exact Lib.bind_ok

theorem check_iff {found : DropRecord} :
    check crates slot publisher record now = .ok found ↔
      (record.v = version ∧ record.publisher = publisher ∧ record.slot = slot ∧
        InTime maxRecordAge record.time now) ∧ found = record := by
  unfold check
  split
  · rename_i hv
    exact ⟨fun h => (nomatch h), fun h => absurd h.1.1 hv⟩
  · rename_i hv
    split
    · rename_i hpublisher
      exact ⟨fun h => (nomatch h), fun h => absurd h.1.2.1 hpublisher⟩
    · rename_i hpublisher
      split
      · rename_i hslot
        exact ⟨fun h => (nomatch h), fun h => absurd h.1.2.2.1 hslot⟩
      · rename_i hslot
        rw [← check_clock_iff]
        cases checkClock maxRecordAge record.time now with
        | error refusal => exact ⟨fun h => (nomatch h), fun h => nomatch h.1.2.2.2⟩
        | ok done =>
          constructor
          · intro h
            cases h
            exact ⟨⟨not_not.mp hv, not_not.mp hpublisher, not_not.mp hslot, rfl⟩, rfl⟩
          · rintro ⟨-, rfl⟩
            rfl

/-- A record of the drop opens exactly from what `drop::seal` gave for it, at its name, publisher
and slot and in its time. -/
theorem open_record_iff (h : crates.Documented log) :
    openRecord crates keys name slot publisher sealed now = .ok record ↔
      ∃ written, SealedTo crates log keys name sealed written ∧ written.publisher = publisher ∧
        written.slot = slot ∧ InTime maxRecordAge written.time now ∧ record = written.shown := by
  have hread : ∀ {written : DropRecord} {msg}, plaintext crates written = .ok msg →
      (crates.dropJson.fromSlice msg).bind (DropFields.record crates.base) =
        some written.shown := by
    intro written msg hmsg
    rw [h.drop_json.round_trip _ _ (plaintext_iff.mp hmsg).2.2]
    exact drop_fields_record h.base written
  unfold openRecord
  constructor
  · intro hopen
    obtain ⟨msg, hframe, hopen⟩ := Lib.bind_ok.mp hopen
    obtain ⟨-, nonce, hcall, hseal⟩ := (frame_opens_iff h.cipher).mp (Lib.map_error_ok.mp hframe)
    obtain ⟨made, written, hmem, hkey, rfl, hmsg⟩ := (mem_calls_drop h).mp hcall
    rw [hread hmsg] at hopen
    obtain ⟨⟨-, -, hslot, htime⟩, rfl⟩ := check_iff.mp hopen
    exact ⟨written, ⟨made, nonce, hmem, hkey, seal_record_iff.mpr ⟨msg, hmsg, hseal⟩⟩, rfl,
      hslot, htime, rfl⟩
  · rintro ⟨written, ⟨made, nonce, hmem, hkey, hsealed⟩, rfl, rfl, htime, rfl⟩
    obtain ⟨msg, hmsg, hseal⟩ := seal_record_iff.mp hsealed
    have hne : msg ≠ [] := by
      rintro rfl
      have hempty := hread hmsg
      rw [h.drop_json.empty] at hempty
      cases hempty
    have hframe := (frame_opens_iff h.cipher).mpr
      ⟨hne, nonce, (mem_calls_drop h).mpr ⟨made, written, hmem, hkey, rfl, hmsg⟩, hseal⟩
    refine Lib.bind_ok.mpr ⟨msg, Lib.map_error_ok.mpr hframe, ?_⟩
    rw [hread hmsg]
    exact check_iff.mpr ⟨⟨(plaintext_iff.mp hmsg).1, rfl, rfl, htime⟩, rfl⟩

end

end Drop

namespace Moved

/-- One of the calls of `seal_link` gave these bytes for a record of this publisher, under the seal
key of these keys. -/
def SealedTo (crates : Crates) (log : List Sealing) (keys : MovedKeys) (publisher : PeerKey)
    (sealed : List UInt8) (record : MovedRecord) : Prop :=
  ∃ made nonce, Sealing.link made publisher record nonce ∈ log ∧ made.sealKey = keys.sealKey ∧
    sealLink crates keys publisher record (some nonce) = .ok sealed

section
variable {crates : Crates} {log : List Sealing} {keys : MovedKeys} {sealed : List UInt8}
  {written record : MovedRecord} {nonce : Option (Octets nonceBytes)} {now : UInt64}
  {publisher : PeerKey}

theorem plaintext_iff {msg : List UInt8} :
    plaintext crates record = .ok msg ↔ record.v = version ∧
      record.eps.length ≤ maxRecordEndpoints ∧ crates.movedJson.toVec record.fields = some msg :=
  checked_plaintext_iff

theorem seal_link_iff :
    sealLink crates keys publisher record nonce = .ok sealed ↔
      ∃ msg, plaintext crates record = .ok msg ∧
        sealFrame crates.cipher magic version keys.sealKey nonce
          (associatedData crates.base publisher) msg = .ok sealed := by
  unfold sealLink
  exact Lib.bind_ok

theorem check_iff {found : MovedRecord} :
    check record now = .ok found ↔
      (record.v = version ∧ InTime maxMovedAge record.time now) ∧ found = record := by
  unfold check
  split
  · rename_i hv
    exact ⟨fun h => (nomatch h), fun h => absurd h.1.1 hv⟩
  · rename_i hv
    rw [← check_clock_iff]
    cases checkClock maxMovedAge record.time now with
    | error refusal => exact ⟨fun h => (nomatch h), fun h => nomatch h.1.2⟩
    | ok done =>
      constructor
      · intro h
        cases h
        exact ⟨⟨not_not.mp hv, rfl⟩, rfl⟩
      · rintro ⟨-, rfl⟩
        rfl

/-- A link opens exactly from what `seal_link` gave for its record, for its publisher and in its
time. -/
theorem open_link_iff (h : crates.Documented log) :
    openLink crates keys publisher sealed now = .ok record ↔
      ∃ written, SealedTo crates log keys publisher sealed written ∧
        InTime maxMovedAge written.time now ∧ record = written.shown := by
  have hread : ∀ {written : MovedRecord} {msg}, plaintext crates written = .ok msg →
      (crates.movedJson.fromSlice msg).bind MovedFields.record = some written.shown := by
    intro written msg hmsg
    rw [h.moved_json.round_trip _ _ (plaintext_iff.mp hmsg).2.2]
    exact moved_fields_record written
  unfold openLink
  constructor
  · intro hopen
    split at hopen
    · cases hopen
    · obtain ⟨msg, hframe, hopen⟩ := Lib.bind_ok.mp hopen
      obtain ⟨-, nonce, hcall, hseal⟩ :=
        (frame_opens_iff h.cipher).mp (Lib.map_error_ok.mp hframe)
      obtain ⟨made, written, hmem, hkey, hmsg⟩ := (mem_calls_link h).mp hcall
      rw [hread hmsg] at hopen
      obtain ⟨⟨-, htime⟩, rfl⟩ := check_iff.mp hopen
      exact ⟨written, ⟨made, nonce, hmem, hkey, seal_link_iff.mpr ⟨msg, hmsg, hseal⟩⟩, htime, rfl⟩
  · rintro ⟨written, ⟨made, nonce, hmem, hkey, hsealed⟩, htime, rfl⟩
    obtain ⟨msg, hmsg, hseal⟩ := seal_link_iff.mp hsealed
    have hne : msg ≠ [] := by
      rintro rfl
      have hempty := hread hmsg
      rw [h.moved_json.empty] at hempty
      cases hempty
    have hlen : ¬sealed.length < minLinkBytes := by
      have hpos := List.length_pos_iff.mpr hne
      rw [seal_frame_length h.cipher hseal, minLinkBytes]
      omega
    have hframe := (frame_opens_iff h.cipher).mpr
      ⟨hne, nonce, (mem_calls_link h).mpr ⟨made, written, hmem, hkey, hmsg⟩, hseal⟩
    rw [if_neg hlen]
    refine Lib.bind_ok.mpr ⟨msg, Lib.map_error_ok.mpr hframe, ?_⟩
    rw [hread hmsg]
    exact check_iff.mpr ⟨⟨(plaintext_iff.mp hmsg).1, htime⟩, rfl⟩

end

end Moved

/-! ## Apart from each other -/

section
variable {crates : Crates} {log : List Sealing}

theorem drop_not_link {keys : DropKeys} {name : DropName} {written : DropRecord}
    {nonce : Option (Octets nonceBytes)} {sealed : List UInt8}
    (h : Drop.sealRecord crates keys name written nonce = .ok sealed) (linkKeys : MovedKeys)
    (publisher : PeerKey) (now : UInt64) (record : MovedRecord) :
    Moved.openLink crates linkKeys publisher sealed now ≠ .ok record := by
  intro hopen
  obtain ⟨msg, -, hseal⟩ := Drop.seal_record_iff.mp h
  obtain ⟨filled, body, -, -, hsealed⟩ := seal_frame_iff.mp hseal
  unfold Moved.openLink at hopen
  split at hopen
  · cases hopen
  · obtain ⟨found, hframe, -⟩ := Lib.bind_ok.mp hopen
    obtain ⟨other, rest, hother, -, -⟩ := open_frame_iff.mp (Lib.map_error_ok.mp hframe)
    exact absurd (frame_magic (hsealed.symm.trans hother)) (by decide)

theorem link_not_drop {keys : MovedKeys} {publisher : PeerKey} {written : MovedRecord}
    {nonce : Option (Octets nonceBytes)} {sealed : List UInt8}
    (h : Moved.sealLink crates keys publisher written nonce = .ok sealed) (dropKeys : DropKeys)
    (name : DropName) (slot : UInt64) (expected : PeerKey) (now : UInt64) (record : DropRecord) :
    Drop.openRecord crates dropKeys name slot expected sealed now ≠ .ok record := by
  intro hopen
  obtain ⟨msg, -, hseal⟩ := Moved.seal_link_iff.mp h
  obtain ⟨filled, body, -, -, hsealed⟩ := seal_frame_iff.mp hseal
  unfold Drop.openRecord at hopen
  obtain ⟨found, hframe, -⟩ := Lib.bind_ok.mp hopen
  obtain ⟨other, rest, hother, -, -⟩ := open_frame_iff.mp (Lib.map_error_ok.mp hframe)
  exact absurd (frame_magic (hsealed.symm.trans hother)) (by decide)

/-- Records and links open exactly where they were meant, as what their texts say, and neither opens
as the other. -/
structure OpensWhereMeant (crates : Crates) (log : List Sealing) : Prop where
  drop : ∀ (keys : DropKeys) (name : DropName) (slot : UInt64) (publisher : PeerKey)
    (sealed : List UInt8) (now : UInt64) (record : DropRecord),
    Drop.openRecord crates keys name slot publisher sealed now = .ok record ↔
      ∃ written, Drop.SealedTo crates log keys name sealed written ∧
        written.publisher = publisher ∧ written.slot = slot ∧
          InTime Drop.maxRecordAge written.time now ∧ record = written.shown
  link : ∀ (keys : MovedKeys) (publisher : PeerKey) (sealed : List UInt8) (now : UInt64)
    (record : MovedRecord),
    Moved.openLink crates keys publisher sealed now = .ok record ↔
      ∃ written, Moved.SealedTo crates log keys publisher sealed written ∧
        InTime Moved.maxMovedAge written.time now ∧ record = written.shown
  drop_not_link : ∀ (keys : DropKeys) (name : DropName) (written : DropRecord)
    (nonce : Option (Octets nonceBytes)) (sealed : List UInt8),
    Drop.sealRecord crates keys name written nonce = .ok sealed →
      ∀ (linkKeys : MovedKeys) (publisher : PeerKey) (now : UInt64) (record : MovedRecord),
        Moved.openLink crates linkKeys publisher sealed now ≠ .ok record
  link_not_drop : ∀ (keys : MovedKeys) (publisher : PeerKey) (written : MovedRecord)
    (nonce : Option (Octets nonceBytes)) (sealed : List UInt8),
    Moved.sealLink crates keys publisher written nonce = .ok sealed →
      ∀ (dropKeys : DropKeys) (name : DropName) (slot : UInt64) (expected : PeerKey)
        (now : UInt64) (record : DropRecord),
        Drop.openRecord crates dropKeys name slot expected sealed now ≠ .ok record

theorem opens_where_meant (h : crates.Documented log) : OpensWhereMeant crates log where
  drop := fun _ _ _ _ _ _ _ => Drop.open_record_iff h
  link := fun _ _ _ _ _ => Moved.open_link_iff h
  drop_not_link := fun _ _ _ _ _ hseal => drop_not_link hseal
  link_not_drop := fun _ _ _ _ _ hseal => link_not_drop hseal

end

/-! ## A record and a link under one key -/

namespace Sealing

def exampleKey : Octets 32 :=
  ⟨List.replicate 32 1, rfl⟩

def exampleName : DropName :=
  ⟨⟨List.replicate 16 2, rfl⟩⟩

def exampleNonce (b : UInt8) : Octets nonceBytes :=
  ⟨List.replicate nonceBytes b, List.length_replicate⟩

def examplePublisher : PeerKey :=
  ⟨⟨List.replicate 32 6, rfl⟩⟩

/-- `[2001:db8::4]:7755`, with a flow. -/
def exampleAddr : SocketAddr :=
  .v6 ⟨[0x2001, 0xDB8, 0, 0, 0, 0, 0, 4], rfl⟩ 7755 1 0

def exampleRecord : DropRecord where
  v := 1
  publisher := examplePublisher
  slot := 1
  time := 3600
  eps := [exampleAddr]

def exampleMoved : MovedRecord where
  v := 1
  time := 3600
  eps := [exampleAddr]

def oneDocument {α : Type} [DecidableEq α] (fields : α) (text : List Char) : JsonFormat α where
  toVec a := if a = fields then some (Lib.asBytes text) else none
  fromSlice bytes := if bytes = Lib.asBytes text then some fields else none

theorem one_document_to_vec {α : Type} [DecidableEq α] (fields : α) (text : List Char) :
    (oneDocument fields text).toVec fields = some (Lib.asBytes text) :=
  if_pos rfl

theorem one_document_faithful {α : Type} [DecidableEq α] (fields : α) {text : List Char}
    (h : text ≠ []) : (oneDocument fields text).Faithful where
  round_trip := by
    intro a bytes hwrite
    simp only [oneDocument] at hwrite ⊢
    split at hwrite
    · rename_i ha
      cases hwrite
      rw [if_pos rfl, ha]
    · cases hwrite
  empty := if_neg fun hnil => h (Lib.as_bytes_inj.mp hnil.symm)

def exampleDropText : List Char :=
  "\x7b\"v\":1,\"pub\":\"".toList ++ (examplePublisher.toWire crockford.encoding ++
    "\",\"slot\":1,\"at\":3600,\"eps\":[\"[2001:db8::4]:7755\"]\x7d".toList)

def exampleMovedText : List Char :=
  "\x7b\"v\":1,\"at\":3600,\"eps\":[\"[2001:db8::4]:7755\"]\x7d".toList

/-- What ChaCha20-Poly1305 seals the two documents as. -/
def exampleDropBody : List UInt8 :=
  [0xF5, 0x2A, 0xF0, 0x69, 0x5C, 0x71, 0xE6, 0x09, 0xC2, 0xA2, 0x2B, 0x92, 0xEE, 0x69, 0x79,
    0xE2, 0x4E, 0x40, 0x5D, 0x66, 0x8E, 0x40, 0x0C, 0xDA, 0x52, 0xBF, 0x02, 0xD3, 0x68, 0xC1,
    0x1C, 0x3D, 0x77, 0x94, 0xBF, 0x18, 0xDB, 0x16, 0x22, 0xB9, 0xAB, 0x79, 0xCE, 0x2A, 0x5F,
    0x57, 0x6F, 0x06, 0x69, 0x48, 0x2B, 0x64, 0xFF, 0x8B, 0x00, 0x2D, 0x3C, 0x9C, 0xB3, 0xD5,
    0xFB, 0x47, 0x53, 0x29, 0x01, 0x41, 0x10, 0x7E, 0xA3, 0x14, 0xD4, 0x8E, 0x1E, 0xB0, 0x97,
    0xE5, 0x56, 0xEE, 0x4C, 0x52, 0x8B, 0x10, 0xA2, 0xF1, 0x13, 0xE0, 0x09, 0xC3, 0x23, 0x1C,
    0x80, 0x16, 0xB4, 0x74, 0x6C, 0xC1, 0xCA, 0xAD, 0x58, 0x59, 0xDE, 0xC2, 0xB6, 0x0F, 0xF9,
    0x21, 0x30, 0x79, 0x80, 0xE3, 0x9E, 0xF1, 0x46, 0x1E, 0xDC, 0x41, 0xBD, 0xD0, 0x0F, 0x57,
    0xFF, 0x56, 0xAF, 0x14, 0xDB, 0xFB, 0xB7, 0x38, 0xA2, 0x58, 0x99, 0x82]

def exampleMovedBody : List UInt8 :=
  [0x19, 0x35, 0x23, 0x89, 0xB1, 0xDB, 0x7F, 0xC8, 0x46, 0x28, 0xB4, 0xA5, 0x64, 0x60, 0x6B,
    0xAD, 0x36, 0x77, 0x4C, 0xE3, 0x81, 0x2D, 0xC5, 0xB9, 0xED, 0x82, 0x8A, 0x15, 0x00, 0x09,
    0x30, 0x36, 0xF2, 0x10, 0x39, 0x55, 0x46, 0xC7, 0x23, 0x45, 0xD1, 0x8A, 0x54, 0xF5, 0x9D,
    0x25, 0xF6, 0x9C, 0x71, 0x9A, 0xB2, 0x53, 0x9A, 0xB9, 0xB1, 0x9A, 0xC5, 0xA5, 0x1F, 0xD8,
    0x2B, 0x7E]

def exampleTable : List (SealCall × List UInt8) :=
  [(⟨exampleKey, exampleNonce 3,
      Drop.associatedData crockford.encoding exampleName examplePublisher,
      Lib.asBytes exampleDropText⟩, exampleDropBody),
    (⟨exampleKey, exampleNonce 4, Moved.associatedData crockford.encoding examplePublisher,
      Lib.asBytes exampleMovedText⟩, exampleMovedBody)]

def exampleCrates : Crates where
  base := crockford.encoding
  cipher := .ofTable exampleTable
  dropJson := oneDocument (exampleRecord.fields crockford.encoding) exampleDropText
  movedJson := oneDocument exampleMoved.fields exampleMovedText

def exampleKeys : DropKeys :=
  ⟨⟨List.replicate 32 0, rfl⟩, exampleKey⟩

def exampleLog : List Sealing :=
  [.drop exampleKeys exampleName exampleRecord (exampleNonce 3),
    .link ⟨exampleKey⟩ examplePublisher exampleMoved (exampleNonce 4)]

theorem example_drop_plaintext :
    Drop.plaintext exampleCrates exampleRecord = .ok (Lib.asBytes exampleDropText) :=
  Drop.plaintext_iff.mpr ⟨rfl, by decide, one_document_to_vec _ _⟩

theorem example_moved_plaintext :
    Moved.plaintext exampleCrates exampleMoved = .ok (Lib.asBytes exampleMovedText) :=
  Moved.plaintext_iff.mpr ⟨rfl, by decide, one_document_to_vec _ _⟩

theorem example_calls :
    exampleLog.filterMap (call? exampleCrates) = exampleTable.map Prod.fst := by
  simp only [exampleLog, List.filterMap_cons, List.filterMap_nil, call?, example_drop_plaintext,
    example_moved_plaintext, Except.toOption, Option.map_some]
  rfl

theorem drop_text_ascii : ∀ c ∈ exampleDropText, c.utf8Size = 1 := by
  unfold exampleDropText
  repeat rw [String.toList_ofList]
  exact Lib.forall_mem_of_all (by decide +kernel)

theorem drop_text_length : exampleDropText.length = 116 := by
  unfold exampleDropText
  repeat rw [String.toList_ofList]
  decide +kernel

theorem drop_body_length :
    exampleDropBody.length = (Lib.asBytes exampleDropText).length + tagBytes := by
  rw [Lib.as_bytes_length drop_text_ascii, drop_text_length]
  decide +kernel

theorem moved_text_ascii : ∀ c ∈ exampleMovedText, c.utf8Size = 1 := by
  unfold exampleMovedText
  rw [String.toList_ofList]
  exact Lib.forall_mem_of_all (by decide +kernel)

theorem moved_text_length : exampleMovedText.length = 46 := by
  unfold exampleMovedText
  rw [String.toList_ofList]
  rfl

theorem moved_body_length :
    exampleMovedBody.length = (Lib.asBytes exampleMovedText).length + tagBytes := by
  rw [Lib.as_bytes_length moved_text_ascii, moved_text_length]
  rfl

/-- The rows are told by their messages, so that no length is evaluated. -/
theorem tagged_pair {c d : SealCall} {m n a b : List UInt8} (hc : c.msg = m) (hd : d.msg = n)
    (ha : a.length = m.length + tagBytes) (hb : b.length = n.length + tagBytes) :
    ∀ row ∈ [(c, a), (d, b)], row.2.length = row.1.msg.length + tagBytes := by
  subst hc hd
  exact List.forall_mem_cons.mpr ⟨ha, List.forall_mem_singleton.mpr hb⟩

theorem example_documented : exampleCrates.Documented exampleLog where
  base := crockford_lawful
  uniform := Lib.Alphabet.encoding_uniform
  drop_json := one_document_faithful _ fun h => by
    have hlength := drop_text_length
    rw [h] at hlength
    cases hlength
  moved_json := one_document_faithful _ fun h => by
    have hlength := moved_text_length
    rw [h] at hlength
    cases hlength
  cipher := by
    rw [example_calls]
    exact Lib.Aead.of_table_ideal (by decide)
      (tagged_pair (m := Lib.asBytes exampleDropText) (n := Lib.asBytes exampleMovedText)
        (a := exampleDropBody) (b := exampleMovedBody) rfl rfl drop_body_length moved_body_length)

theorem example_opens_where_meant :
    exampleCrates.Documented exampleLog ∧ OpensWhereMeant exampleCrates exampleLog :=
  ⟨example_documented, opens_where_meant example_documented⟩

def exampleSealed : List UInt8 :=
  Drop.magic.1 ++ Drop.version :: ((exampleNonce 3).1 ++ exampleDropBody)

theorem example_sealed_to :
    Drop.SealedTo exampleCrates exampleLog exampleKeys exampleName exampleSealed exampleRecord := by
  refine ⟨exampleKeys, exampleNonce 3, List.mem_cons_self, rfl, ?_⟩
  refine Drop.seal_record_iff.mpr ⟨_, example_drop_plaintext, ?_⟩
  exact seal_frame_iff.mpr ⟨_, _, rfl,
    (Lib.Aead.encrypt_of_table (by decide)).mpr List.mem_cons_self, rfl⟩

/-- A record that opens has lost the flow of its address. -/
theorem record_without_flow :
    exampleCrates.Documented exampleLog ∧
      Drop.openRecord exampleCrates exampleKeys exampleName 1 examplePublisher exampleSealed 3600 =
        .ok exampleRecord.shown ∧
      ∀ written, Drop.SealedTo exampleCrates exampleLog exampleKeys exampleName exampleSealed
        written → exampleRecord.shown ≠ written := by
  refine ⟨example_documented, ?_, ?_⟩
  · exact (Drop.open_record_iff example_documented).mpr
      ⟨exampleRecord, example_sealed_to, rfl, rfl, ⟨by decide, by decide⟩, rfl⟩
  · rintro written ⟨made, nonce, hmem, -, -⟩
    have hwritten : written = exampleRecord := by
      rcases List.mem_cons.mp hmem with h | h
      · injection h
      · cases List.mem_singleton.mp h
    rw [hwritten]
    decide

end Sealing

end TeamClaude
