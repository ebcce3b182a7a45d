import TeamClaude.Lib.Fallible
import TeamClaude.Lib.SocketText

/-!
# Lists of dial addresses

The compact form of a list of addresses: a count, then a family, the address and a port for each.
The list says by itself where it ends.
-/

namespace TeamClaude

open Lib.Net (Ipv4 Ipv6 IpAddr SocketAddr)

/-- An array of `n` bytes. -/
abbrev Octets (n : Nat) := { bytes : List UInt8 // bytes.length = n }

def maxRecordEndpoints : Nat := 4

namespace DialAddrs

def familyV4 : UInt8 := 4

def familyV6 : UInt8 := 6

def ipv4Octets (ip : Ipv4) : Octets 4 :=
  ⟨[ip.a, ip.b, ip.c, ip.d], rfl⟩

def ipv6Octets (ip : Ipv6) : List UInt8 :=
  ip.segments.flatMap fun segment => Lib.be16Bytes segment.toNat

def ipv4Of (octets : Octets 4) : Ipv4 :=
  ⟨octets.1.get ⟨0, by rw [octets.2]; decide⟩, octets.1.get ⟨1, by rw [octets.2]; decide⟩,
    octets.1.get ⟨2, by rw [octets.2]; decide⟩, octets.1.get ⟨3, by rw [octets.2]; decide⟩⟩

def segmentsOf : List UInt8 → List UInt16
  | hi :: lo :: octets => (Lib.be16 hi lo).toUInt16 :: segmentsOf octets
  | _ => []

theorem segments_of_length {count : Nat} {octets : List UInt8} (h : octets.length = 2 * count) :
    (segmentsOf octets).length = count := by
  induction count generalizing octets with
  | zero =>
    rw [List.eq_nil_of_length_eq_zero h]
    rfl
  | succ count ih =>
    match octets, h with
    | hi :: lo :: octets, h =>
      simp only [List.length_cons] at h
      rw [segmentsOf, List.length_cons, ih (by omega)]

def ipv6Of (octets : Octets 16) : Ipv6 :=
  ⟨segmentsOf octets.1, segments_of_length octets.2⟩

/-- A family and the octets. -/
def encodeIp : IpAddr → List UInt8
  | .v4 ip => familyV4 :: (ipv4Octets ip).1
  | .v6 ip => familyV6 :: ipv6Octets ip

def encodeAddr (addr : SocketAddr) : List UInt8 :=
  encodeIp addr.ip ++ Lib.be16Bytes addr.port.toNat

def encode (addrs : List SocketAddr) : List UInt8 :=
  addrs.length.toUInt8 :: addrs.flatMap encodeAddr

inductive DecodeRefusal
  | tooMany (found : Nat)
  | cutShort
  | unknownFamily (byte : UInt8)
  deriving DecidableEq

def splitFirstChunk (n : Nat) (bytes : List UInt8) : Option (Octets n × List UInt8) :=
  if h : n ≤ bytes.length then some (⟨bytes.take n, List.length_take_of_le h⟩, bytes.drop n)
  else none

/-- The address that a family byte and what follows it give. -/
def decodeIp (family : UInt8) (bytes : List UInt8) :
    Except DecodeRefusal (IpAddr × List UInt8) :=
  if family = familyV4 then
    match splitFirstChunk 4 bytes with
    | some (octets, tail) => .ok (.v4 (ipv4Of octets), tail)
    | none => .error .cutShort
  else if family = familyV6 then
    match splitFirstChunk 16 bytes with
    | some (octets, tail) => .ok (.v6 (ipv6Of octets), tail)
    | none => .error .cutShort
  else .error (.unknownFamily family)

def decodeAddr (bytes : List UInt8) : Except DecodeRefusal (SocketAddr × List UInt8) :=
  match bytes with
  | [] => .error .cutShort
  | family :: afterFamily => do
    let (ip, afterIp) ← decodeIp family afterFamily
    match afterIp with
    | hi :: lo :: tail => .ok (.new ip (Lib.be16 hi lo).toUInt16, tail)
    | _ => .error .cutShort

def decodeAddrs : Nat → List UInt8 → Except DecodeRefusal (List SocketAddr × List UInt8)
  | 0, rest => .ok ([], rest)
  | count + 1, rest => do
    let (addr, rest) ← decodeAddr rest
    let (out, rest) ← decodeAddrs count rest
    return (addr :: out, rest)

/-- `decode_prefix`: the list in front, and what follows it. -/
def decodePrefix (bytes : List UInt8) : Except DecodeRefusal (List SocketAddr × List UInt8) :=
  match bytes with
  | [] => .error .cutShort
  | countByte :: rest =>
    if maxRecordEndpoints < countByte.toNat then .error (.tooMany countByte.toNat)
    else decodeAddrs countByte.toNat rest

def decode (bytes : List UInt8) : Except DecodeRefusal (List SocketAddr) := do
  let (addrs, rest) ← decodePrefix bytes
  if rest ≠ [] then .error .cutShort else .ok addrs

theorem ipv4_octets_of (octets : Octets 4) : ipv4Octets (ipv4Of octets) = octets := by
  obtain ⟨bytes, hbytes⟩ := octets
  match bytes, hbytes with
  | [_, _, _, _], _ => rfl

theorem ipv6_octets_length (ip : Ipv6) : (ipv6Octets ip).length = 16 := by
  have hlen : ∀ segments : List UInt16,
      (segments.flatMap fun segment => Lib.be16Bytes segment.toNat).length =
        2 * segments.length := by
    intro segments
    induction segments with
    | nil => rfl
    | cons segment segments ih =>
      rw [List.flatMap_cons, List.length_append, ih, Lib.be16_bytes_length, List.length_cons]
      omega
  rw [ipv6Octets, hlen, ip.eight]

theorem segments_of_flat_map (segments : List UInt16) :
    segmentsOf (segments.flatMap fun segment => Lib.be16Bytes segment.toNat) = segments := by
  induction segments with
  | nil => rfl
  | cons segment segments ih =>
    rw [List.flatMap_cons, Lib.be16Bytes, List.cons_append, List.cons_append, List.nil_append,
      segmentsOf, ih, Lib.be16_of_bytes segment.toNat_lt]
    exact congrArg (· :: segments) UInt16.ofNat_toNat

theorem flat_map_segments_of {count : Nat} {octets : List UInt8} (h : octets.length = 2 * count) :
    ((segmentsOf octets).flatMap fun segment => Lib.be16Bytes segment.toNat) = octets := by
  induction count generalizing octets with
  | zero =>
    rw [List.eq_nil_of_length_eq_zero h]
    rfl
  | succ count ih =>
    match octets, h with
    | hi :: lo :: octets, h =>
      simp only [List.length_cons] at h
      have hlt := Lib.be16_lt hi lo
      rw [segmentsOf, List.flatMap_cons, ih (by omega), Nat.toUInt16_eq, UInt16.toNat_ofNat',
        Nat.mod_eq_of_lt hlt, Lib.be16_bytes_of]
      rfl

theorem ipv6_of_octets (ip : Ipv6) : ipv6Of ⟨ipv6Octets ip, ipv6_octets_length ip⟩ = ip := by
  obtain ⟨segments, height⟩ := ip
  have hsegments := segments_of_flat_map segments
  unfold ipv6Of ipv6Octets
  simp only [hsegments]

theorem ipv6_octets_of (octets : Octets 16) : ipv6Octets (ipv6Of octets) = octets.1 :=
  flat_map_segments_of (show octets.1.length = 2 * 8 from octets.2)

theorem split_first_chunk_append {n : Nat} (octets : Octets n) (rest : List UInt8) :
    splitFirstChunk n (octets.1 ++ rest) = some (octets, rest) := by
  obtain ⟨bytes, rfl⟩ := octets
  unfold splitFirstChunk
  rw [dif_pos (by rw [List.length_append]; exact Nat.le_add_right _ _)]
  simp only [List.take_left, List.drop_left]

theorem split_first_chunk_some {n : Nat} {bytes rest : List UInt8} {octets : Octets n}
    (h : splitFirstChunk n bytes = some (octets, rest)) : bytes = octets.1 ++ rest := by
  unfold splitFirstChunk at h
  split at h
  · cases h
    exact (List.take_append_drop n bytes).symm
  · cases h

/-- The family and the octets of an address are read back. -/
theorem decode_ip_encode (ip : IpAddr) :
    ∃ family octets, encodeIp ip = family :: octets ∧
      ∀ rest, decodeIp family (octets ++ rest) = .ok (ip, rest) := by
  cases ip with
  | v4 ip =>
    refine ⟨familyV4, (ipv4Octets ip).1, rfl, fun rest => ?_⟩
    unfold decodeIp
    rw [if_pos rfl, split_first_chunk_append]
    rfl
  | v6 ip =>
    refine ⟨familyV6, ipv6Octets ip, rfl, fun rest => ?_⟩
    have hsplit := split_first_chunk_append ⟨ipv6Octets ip, ipv6_octets_length ip⟩ rest
    unfold decodeIp
    rw [if_neg (by decide), if_pos rfl, hsplit]
    simp only [ipv6_of_octets]

theorem decode_ip_ok {family : UInt8} {bytes rest : List UInt8} {ip : IpAddr}
    (h : decodeIp family bytes = .ok (ip, rest)) : family :: bytes = encodeIp ip ++ rest := by
  unfold decodeIp at h
  split at h
  · rename_i hfamily
    split at h
    · rename_i octets tail hsplit
      cases h
      rw [split_first_chunk_some hsplit, hfamily, encodeIp, ipv4_octets_of]
      rfl
    · cases h
  · split at h
    · rename_i hfamily
      split at h
      · rename_i octets tail hsplit
        cases h
        rw [split_first_chunk_some hsplit, hfamily, encodeIp, ipv6_octets_of]
        rfl
      · cases h
    · cases h

theorem new_ip_port {addr : SocketAddr} (h : addr.Plain) :
    SocketAddr.new addr.ip addr.port = addr := by
  cases addr with
  | v4 ip port => rfl
  | v6 ip port flowinfo scopeId =>
    obtain ⟨rfl, rfl⟩ := h
    rfl

theorem decode_addr_encode {addr : SocketAddr} (h : addr.Plain) (rest : List UInt8) :
    decodeAddr (encodeAddr addr ++ rest) = .ok (addr, rest) := by
  obtain ⟨family, octets, hencode, hdecode⟩ := decode_ip_encode addr.ip
  have hport : (Lib.be16 (addr.port.toNat / 256).toUInt8 addr.port.toNat.toUInt8).toUInt16 =
      addr.port := by
    rw [Lib.be16_of_bytes addr.port.toNat_lt]
    exact UInt16.ofNat_toNat
  rw [encodeAddr, hencode, List.cons_append, List.cons_append, List.append_assoc, decodeAddr]
  simp only [bind, Except.bind, hdecode]
  change Except.ok (SocketAddr.new addr.ip _, rest) = _
  rw [hport, new_ip_port h]

/-- What is read as an address is the encoding of that address. -/
theorem decode_addr_ok {bytes rest : List UInt8} {addr : SocketAddr}
    (h : decodeAddr bytes = .ok (addr, rest)) : bytes = encodeAddr addr ++ rest ∧ addr.Plain := by
  unfold decodeAddr at h
  split at h
  · cases h
  · rename_i family afterFamily
    obtain ⟨⟨ip, afterIp⟩, hip, h⟩ := Lib.bind_ok.mp h
    simp only at h
    split at h
    · rename_i hi lo tail
      cases h
      have hport : Lib.be16Bytes (Lib.be16 hi lo).toUInt16.toNat = [hi, lo] := by
        rw [Nat.toUInt16_eq, UInt16.toNat_ofNat', Nat.mod_eq_of_lt (Lib.be16_lt hi lo),
          Lib.be16_bytes_of]
      rw [decode_ip_ok hip]
      cases ip with
      | v4 ip =>
        rw [encodeAddr, SocketAddr.new, SocketAddr.port, hport, List.append_assoc]
        exact ⟨rfl, trivial⟩
      | v6 ip =>
        rw [encodeAddr, SocketAddr.new, SocketAddr.port, hport, List.append_assoc]
        exact ⟨rfl, rfl, rfl⟩
    · cases h

theorem decode_addrs_encode {addrs : List SocketAddr} (h : ∀ addr ∈ addrs, addr.Plain)
    (rest : List UInt8) :
    decodeAddrs addrs.length (addrs.flatMap encodeAddr ++ rest) = .ok (addrs, rest) := by
  induction addrs with
  | nil => rfl
  | cons addr addrs ih =>
    have hfirst := decode_addr_encode (h addr List.mem_cons_self) (addrs.flatMap encodeAddr ++ rest)
    have hrest := ih fun a ha => h a (List.mem_cons_of_mem addr ha)
    rw [List.flatMap_cons, List.append_assoc, List.length_cons, decodeAddrs]
    simp only [bind, Except.bind, hfirst, hrest]
    rfl

theorem decode_addrs_ok {count : Nat} {bytes rest : List UInt8} {addrs : List SocketAddr}
    (h : decodeAddrs count bytes = .ok (addrs, rest)) :
    bytes = addrs.flatMap encodeAddr ++ rest ∧ addrs.length = count ∧
      ∀ addr ∈ addrs, addr.Plain := by
  induction count generalizing bytes addrs with
  | zero =>
    cases h
    exact ⟨rfl, rfl, fun addr haddr => absurd haddr List.not_mem_nil⟩
  | succ count ih =>
    rw [decodeAddrs] at h
    obtain ⟨⟨addr, behind⟩, hfirst, h⟩ := Lib.bind_ok.mp h
    obtain ⟨⟨more, tail⟩, hmore, h⟩ := Lib.bind_ok.mp h
    cases h
    obtain ⟨hbytes, hplain⟩ := decode_addr_ok hfirst
    obtain ⟨hbehind, hlen, hall⟩ := ih hmore
    refine ⟨?_, ?_, ?_⟩
    · rw [hbytes, hbehind, List.flatMap_cons, List.append_assoc]
    · rw [List.length_cons, hlen]
    · rintro a (_ | ⟨_, ha⟩)
      · exact hplain
      · exact hall a ha

/-- A list that fits is read back, whatever follows it. -/
theorem decode_prefix_encode {addrs : List SocketAddr} (hlen : addrs.length ≤ maxRecordEndpoints)
    (h : ∀ addr ∈ addrs, addr.Plain) (rest : List UInt8) :
    decodePrefix (encode addrs ++ rest) = .ok (addrs, rest) := by
  have hcount : addrs.length.toUInt8.toNat = addrs.length := by
    rw [Nat.toUInt8_eq, UInt8.toNat_ofNat', Nat.mod_eq_of_lt]
    exact hlen.trans_lt (by decide)
  rw [encode, List.cons_append, decodePrefix, hcount, if_neg (Nat.not_lt.mpr hlen)]
  exact decode_addrs_encode h rest

/-- What is read as a list is the encoding of that list, and what follows it. -/
theorem decode_prefix_ok {bytes rest : List UInt8} {addrs : List SocketAddr}
    (h : decodePrefix bytes = .ok (addrs, rest)) :
    bytes = encode addrs ++ rest ∧ addrs.length ≤ maxRecordEndpoints ∧
      ∀ addr ∈ addrs, addr.Plain := by
  unfold decodePrefix at h
  split at h
  · cases h
  · rename_i countByte behind
    split at h
    · cases h
    · rename_i hcount
      obtain ⟨hbytes, hlen, hplain⟩ := decode_addrs_ok h
      refine ⟨?_, by omega, hplain⟩
      have hbyte : addrs.length.toUInt8 = countByte := by
        rw [hlen]
        exact UInt8.ofNat_toNat
      rw [encode, hbyte, hbytes]
      rfl

/-- The lists that are accepted whole are the encodings of lists that fit. -/
theorem decode_iff {bytes : List UInt8} {addrs : List SocketAddr} :
    decode bytes = .ok addrs ↔ bytes = encode addrs ∧ addrs.length ≤ maxRecordEndpoints ∧
      ∀ addr ∈ addrs, addr.Plain := by
  unfold decode
  constructor
  · intro h
    obtain ⟨⟨out, rest⟩, hlist, h⟩ := Lib.bind_ok.mp h
    simp only at h
    split at h
    · cases h
    · rename_i hrest
      cases h
      obtain ⟨hbytes, hlen, hplain⟩ := decode_prefix_ok hlist
      rw [not_not.mp hrest, List.append_nil] at hbytes
      exact ⟨hbytes, hlen, hplain⟩
  · rintro ⟨rfl, hlen, hplain⟩
    have hlist := decode_prefix_encode hlen hplain []
    rw [List.append_nil] at hlist
    simp only [hlist, bind, Except.bind]
    exact if_neg (not_not_intro rfl)

end DialAddrs

end TeamClaude
