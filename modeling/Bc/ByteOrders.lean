import Bc.Addresses

/-!
The bytes of a port and an address in the memory of hosts of both byte orders. The
parser of IPv4 texts writes its numbers from the last byte down on every host, and
only a little-endian one turns them around again.
-/
namespace Bc.ByteOrders

open Texts AddressParsing Ipv4Texts Ipv6Texts Awaiters Addresses

def stored (host : ByteOrder) : Address → List Byte
  | .ipv4 sockaddr => host.bytes sockaddr.port ++ numbers host sockaddr.addr
  | .ipv6 sockaddr => host.bytes sockaddr.port ++ sockaddr.addr.toList.flatMap host.bytes

/-- The bytes that a host name stands for, in network order: the numbers of an IPv4
text as they stand in it, or the groups of an IPv6 text, the higher byte of each
first. -/
inductive Names : Text → List Byte → Prop
  | ipv4 (a b c d : Text) (hruns : ∀ run ∈ [a, b, c, d], IsOctet run) :
      Names (join '.' [a, b, c, d]) ([a, b, c, d].map octet)
  | ipv6 (hostname : Text) (hi lo : List Text)
      (hshape : Shape (split ':' (trim hostname)) hi lo) (hhi : ∀ g ∈ hi, IsGroup g)
      (hlo : ∀ g ∈ lo, IsGroup g) :
      Names hostname ((values hi lo).flatMap networkBytes)

def Accepts (hostname : Text) (port : Word) : Prop :=
  ∃ host address, fromHostname host hostname port = some (.ok address)

/-- All hosts accept the name and have the same bytes for it, in network order. -/
def Portable (hostname : Text) (port : Word) : Prop :=
  ∃ bytes, Names hostname bytes ∧ ∀ host, ∃ address,
    fromHostname host hostname port = some (.ok address) ∧
      stored host address = networkBytes port.toNat ++ bytes

/-- The host name, if it is an IPv4 text, has the same numbers read backwards. -/
def Mirrored (hostname : Text) : Prop :=
  ∀ a b c d, (∀ run ∈ [a, b, c, d], IsOctet run) → hostname = join '.' [a, b, c, d] →
    value 10 a = value 10 d ∧ value 10 b = value 10 c

def arranged : ByteOrder → List Byte → List Byte
  | .little, bytes => bytes
  | .big, bytes => bytes.reverse

section Hosts

variable {hostname : Text} {port : Word} {host : ByteOrder} {a b c d : Text}

theorem bytes_port (host : ByteOrder) (port : Word) :
    host.bytes (htons host port) = networkBytes port.toNat := by
  have h := bytes_number host port.toNat
  rwa [BitVec.ofNat_toNat, BitVec.setWidth_eq] at h

theorem numbers_append (w x y z : Byte) : numbers .big (w ++ x ++ y ++ z) = [w, x, y, z] := by
  have hw : (w ++ x ++ y ++ z).extractLsb' 24 8 = w := by
    refine BitVec.eq_of_getLsbD_eq fun i hi => ?_
    simp only [BitVec.getLsbD_append, BitVec.getLsbD_extractLsb']
    grind
  have hx : (w ++ x ++ y ++ z).extractLsb' 16 8 = x := by
    refine BitVec.eq_of_getLsbD_eq fun i hi => ?_
    simp only [BitVec.getLsbD_append, BitVec.getLsbD_extractLsb']
    grind
  have hy : (w ++ x ++ y ++ z).extractLsb' 8 8 = y := by
    refine BitVec.eq_of_getLsbD_eq fun i hi => ?_
    simp only [BitVec.getLsbD_append, BitVec.getLsbD_extractLsb']
    grind
  have hz : (w ++ x ++ y ++ z).extractLsb' 0 8 = z := BitVec.extractLsb'_append_eq_right
  rw [numbers, hw, hx, hy, hz]

/-- What `::htonl` makes of a number has its highest byte first on every host. -/
theorem numbers_htonl (host : ByteOrder) (n : BitVec 32) :
    numbers host (htonl host n) = numbers .big n := by
  cases host with
  | little =>
    have hreverse : ∀ m, numbers .little m = (numbers .big m).reverse := fun _ => rfl
    rw [hreverse, htonl, numbers_append]
    rfl
  | big => rfl

/-- The bytes of four numbers that were read: from the first to the last one on a
little-endian host, and from the last to the first one on the others. -/
theorem numbers_parsed (hruns : ∀ run ∈ [a, b, c, d], IsOctet run) (host : ByteOrder) :
    ∃ n, parseIpv4 host (join '.' [a, b, c, d]) = .ok n ∧
      numbers host (htonl host n) = arranged host ([a, b, c, d].map octet) := by
  simp only [List.forall_mem_cons] at hruns
  obtain ⟨ha, hb, hc, hd, -⟩ := hruns
  obtain ⟨parts, hparsed, hfilled⟩ := parsed_octets host ha hb hc hd
  have hparts : parts = #v[octet d, octet c, octet b, octet a] := Vector.toList_inj.mp hfilled
  refine ⟨_, hparsed, ?_⟩
  rw [numbers_htonl, hparts]
  cases host with
  | little => exact numbers_append _ _ _ _
  | big => exact numbers_append _ _ _ _

theorem stored_ipv4 (hruns : ∀ run ∈ [a, b, c, d], IsOctet run) (port : Word)
    (host : ByteOrder) :
    ∃ address, fromHostname host (join '.' [a, b, c, d]) port = some (.ok address) ∧
      stored host address =
        networkBytes port.toNat ++ arranged host ([a, b, c, d].map octet) := by
  obtain ⟨n, hparsed, hnumbers⟩ := numbers_parsed hruns host
  refine ⟨.ipv4 ⟨htons host port, htonl host n⟩, ?_, ?_⟩
  · rw [fromHostname, hparsed]
  · rw [stored, bytes_port, hnumbers]

theorem octets_eq_iff (hruns : ∀ run ∈ [a, b, c, d], IsOctet run) :
    [d, c, b, a].map octet = [a, b, c, d].map octet ↔
      value 10 a = value 10 d ∧ value 10 b = value 10 c := by
  have hvalue : ∀ run ∈ [a, b, c, d], ∀ other ∈ [a, b, c, d],
      octet run = octet other ↔ value 10 run = value 10 other := by
    intro run hrun other hother
    rw [← octet_toNat (hruns run hrun), ← octet_toNat (hruns other hother)]
    exact BitVec.toNat_inj.symm
  have hends := hvalue a (by simp) d (by simp)
  have hmiddle := hvalue b (by simp) c (by simp)
  simp only [List.map_cons, List.map_nil, List.cons.injEq, and_true]
  rw [← hends, ← hmiddle]
  constructor
  · rintro ⟨hda, hcb, -, -⟩
    exact ⟨hda.symm, hcb.symm⟩
  · rintro ⟨had, hbc⟩
    exact ⟨had.symm, hbc.symm, hbc, had⟩

theorem portable_ipv4_iff (hruns : ∀ run ∈ [a, b, c, d], IsOctet run) (port : Word) :
    Portable (join '.' [a, b, c, d]) port ↔
      value 10 a = value 10 d ∧ value 10 b = value 10 c := by
  rw [← octets_eq_iff hruns]
  constructor
  · rintro ⟨bytes, -, hall⟩
    have hbytes : ∀ host, networkBytes port.toNat ++ bytes =
        networkBytes port.toNat ++ arranged host ([a, b, c, d].map octet) := by
      intro host
      obtain ⟨address, hfrom, hstored⟩ := hall host
      obtain ⟨address', hfrom', hstored'⟩ := stored_ipv4 hruns port host
      obtain rfl := Except.ok.inj (Option.some.inj (hfrom.symm.trans hfrom'))
      exact hstored.symm.trans hstored'
    exact List.append_cancel_left ((hbytes .big).symm.trans (hbytes .little))
  · intro heq
    refine ⟨_, .ipv4 a b c d hruns, fun host => ?_⟩
    obtain ⟨address, hfrom, hstored⟩ := stored_ipv4 hruns port host
    refine ⟨address, hfrom, hstored.trans ?_⟩
    cases host with
    | little => rfl
    | big => exact congrArg _ heq

/-- A name that the IPv4 parser does not take is read in the same way on all hosts. -/
theorem portable_ipv6 (hrejected : ∀ host, parseIpv4 host hostname = .error .rejected)
    (haccepts : Accepts hostname port) : Portable hostname port := by
  obtain ⟨host, address, hfrom⟩ := haccepts
  rw [fromHostname, hrejected] at hfrom
  have haccepted : Ipv6Texts.Accepted host hostname := by
    cases h : parseIpv6 host hostname with
    | ok words => exact ⟨words, h⟩
    | error stop =>
      rw [h] at hfrom
      cases stop <;> cases hfrom
  obtain ⟨hchars, hi, lo, hshape, hhi, hlo⟩ := shape_of_accepted haccepted
  refine ⟨_, .ipv6 hostname hi lo hshape hhi hlo, fun other => ?_⟩
  obtain ⟨words, hwords, hlist⟩ := parsed_of_shape other hchars
    (join_split ':' (trim hostname)).symm
    (fun piece hpiece hcolon => (mem_of_mem_split hpiece hcolon).2 rfl)
    (split_ne_singleton_nil ':' (trim hostname)) hshape hhi hlo
  refine ⟨.ipv6 ⟨htons other port, words⟩, ?_, ?_⟩
  · rw [fromHostname, hrejected, hwords]
  · rw [stored, bytes_port, hlist, padded_eq_values, List.map_map, List.flatMap_map]
    exact congrArg (fun f => networkBytes port.toNat ++ (values hi lo).flatMap f)
      (funext (bytes_number other))

/-- Accepted names are stored in network order on every host, but for the IPv4 texts
that do not read the same backwards. -/
theorem portable_iff (hostname : Text) (port : Word) :
    (Accepts hostname port → Portable hostname port) ↔ Mirrored hostname := by
  constructor
  · rintro hportable a b c d hruns rfl
    obtain ⟨address, hfrom, -⟩ := stored_ipv4 hruns port .little
    exact (portable_ipv4_iff hruns port).mp (hportable ⟨.little, address, hfrom⟩)
  · intro hmirrored haccepts
    by_cases hipv4 : ∃ host n, parseIpv4 host hostname = .ok n
    · obtain ⟨host, n, hparsed⟩ := hipv4
      obtain ⟨a, b, c, d, -, ⟨ha, hb, hc, hd⟩, rfl, -, -⟩ := octets_of_parsed hparsed
      have hruns : ∀ run ∈ [a, b, c, d], IsOctet run := by
        simp only [List.forall_mem_cons]
        exact ⟨ha, hb, hc, hd, List.forall_mem_nil _⟩
      exact (portable_ipv4_iff hruns port).mpr (hmirrored a b c d hruns rfl)
    · refine portable_ipv6 (fun host => ?_) haccepts
      cases h : parseIpv4 host hostname with
      | ok n => exact absurd ⟨host, n, h⟩ hipv4
      | error stop =>
        cases stop with
        | rejected => rfl
        | outOfRange => exact absurd h (parseIpv4_inRange host hostname)

end Hosts

/-- On a big-endian host the address of `127.0.0.1` is `1.0.0.127`. -/
theorem localhost_reversed :
    (¬∀ hostname port, Accepts hostname port → Portable hostname port) ∧
      (∃ address, fromHostname .big "127.0.0.1".toList 80 = some (.ok address) ∧
        stored .big address = [0, 80, 1, 0, 0, 127]) ∧
      ∃ address, fromHostname .little "127.0.0.1".toList 80 = some (.ok address) ∧
        stored .little address = [0, 80, 127, 0, 0, 1] := by
  have hbig : ∃ address, fromHostname .big "127.0.0.1".toList 80 = some (.ok address) ∧
      stored .big address = [0, 80, 1, 0, 0, 127] := ⟨_, rfl, rfl⟩
  have hlittle : ∃ address, fromHostname .little "127.0.0.1".toList 80 = some (.ok address) ∧
      stored .little address = [0, 80, 127, 0, 0, 1] := ⟨_, rfl, rfl⟩
  refine ⟨fun h => ?_, hbig, hlittle⟩
  obtain ⟨big, hbigFrom, hbigStored⟩ := hbig
  obtain ⟨little, hlittleFrom, hlittleStored⟩ := hlittle
  obtain ⟨bytes, -, hall⟩ := h "127.0.0.1".toList 80 ⟨.big, big, hbigFrom⟩
  obtain ⟨address, hfrom, hstored⟩ := hall .big
  obtain ⟨address', hfrom', hstored'⟩ := hall .little
  obtain rfl := Except.ok.inj (Option.some.inj (hbigFrom.symm.trans hfrom))
  obtain rfl := Except.ok.inj (Option.some.inj (hlittleFrom.symm.trans hfrom'))
  have hsame := (hbigStored.symm.trans hstored).trans (hlittleStored.symm.trans hstored').symm
  exact absurd hsame (by decide)

end Bc.ByteOrders
