import Bc.Awaiters
import Bc.Ipv4Texts
import Bc.Ipv6Texts

/-!
Socket addresses: how they are made from a host name and a port, and how they
are printed. Both go through the bytes in memory, so a printed host is read
back by the same branch to the same bytes.
-/
namespace Bc.Addresses

open Texts AddressParsing Ipv4Texts Ipv6Texts Awaiters

def ntohs (host : ByteOrder) (w : Word) : Word := htons host w

def htonl : ByteOrder → BitVec 32 → BitVec 32
  | .little, n =>
    n.extractLsb' 0 8 ++ n.extractLsb' 8 8 ++ n.extractLsb' 16 8 ++ n.extractLsb' 24 8
  | .big, n => n

/-- The bytes of a `uint32_t` in the memory of a host. -/
def numbers : ByteOrder → BitVec 32 → List (BitVec 8)
  | .little, n => [n.extractLsb' 0 8, n.extractLsb' 8 8, n.extractLsb' 16 8, n.extractLsb' 24 8]
  | .big, n => [n.extractLsb' 24 8, n.extractLsb' 16 8, n.extractLsb' 8 8, n.extractLsb' 0 8]

inductive Domain
  | ipv4
  | ipv6
  deriving DecidableEq

/-- `sockaddr_in`; its family is the domain of the alternative that it is in. -/
structure SockaddrIn where
  port : Word
  addr : BitVec 32
  deriving DecidableEq

/-- `sockaddr_in6`. -/
structure SockaddrIn6 where
  port : Word
  addr : Words
  deriving DecidableEq

inductive Address
  | ipv4 (sockaddr : SockaddrIn)
  | ipv6 (sockaddr : SockaddrIn6)
  deriving DecidableEq

def Address.domain : Address → Domain
  | .ipv4 _ => .ipv4
  | .ipv6 _ => .ipv6

/-- `address::from`. `none` is a write outside an array. -/
def fromHostname (host : ByteOrder) (hostname : Text) (port : Word) :
    Option (Except ErrorCode Address) :=
  match parseIpv4 host hostname with
  | .ok ipv4 => some (.ok (.ipv4 { port := htons host port, addr := htonl host ipv4 }))
  | .error .outOfRange => none
  | .error .rejected =>
    match parseIpv6 host hostname with
    | .ok ipv6 => some (.ok (.ipv6 { port := htons host port, addr := ipv6 }))
    | .error .outOfRange => none
    | .error .rejected => some (.error ErrorCode.invalidAddress)

def expr (host : ByteOrder) : Address → Text
  | .ipv4 sockaddr =>
    join '.' ((numbers host sockaddr.addr).map fun n => format 10 n.toNat) ++
      ':' :: format 10 (ntohs host sockaddr.port).toNat
  | .ipv6 sockaddr =>
    '[' :: join ':' (sockaddr.addr.toList.map fun n => format 16 (ntohs host n).toNat) ++
      ']' :: ':' :: format 10 (ntohs host sockaddr.port).toNat

section Swaps

theorem htons_ntohs (host : ByteOrder) (w : Word) : htons host (ntohs host w) = w := by
  cases host with
  | little =>
    refine BitVec.eq_of_getLsbD_eq fun i hi => ?_
    simp only [htons, ntohs, BitVec.getLsbD_append, BitVec.getLsbD_extractLsb']
    grind
  | big => rfl

theorem htonl_htonl (host : ByteOrder) (n : BitVec 32) : htonl host (htonl host n) = n := by
  cases host with
  | little =>
    refine BitVec.eq_of_getLsbD_eq fun i hi => ?_
    simp only [htonl, BitVec.getLsbD_append, BitVec.getLsbD_extractLsb']
    grind
  | big => rfl

end Swaps

section Numbers

theorem format_isOctet (b : BitVec 8) : IsOctet (format 10 b.toNat) where
  ne_nil := format_ne_nil 10 _
  digits := fun c hc => digitValue_lt_ten.mp (format_digits (by decide) (by decide) _ c hc)
  value_le := by
    rw [value_format (by decide) (by decide)]
    exact Nat.le_of_lt_succ b.isLt

theorem octet_format (b : BitVec 8) : octet (format 10 b.toNat) = b := by
  rw [octet, value_format (by decide) (by decide), BitVec.ofNat_toNat, BitVec.setWidth_eq]

theorem format_isGroup (w : Word) : IsGroup (format 16 w.toNat) where
  ne_nil := format_ne_nil 16 _
  length_le := (Nat.length_toDigits_le_iff (by decide) (by decide)).mpr w.isLt
  digits := fun c hc => digitValue_lt_sixteen.mp (format_digits (by decide) (by decide) _ c hc)

theorem word_format (w : Word) : word (format 16 w.toNat) = w := by
  rw [word, value_format (by decide) (by decide), BitVec.ofNat_toNat, BitVec.setWidth_eq]

end Numbers

section RoundTrip

variable {host : ByteOrder} {address : Address}

def hostText (host : ByteOrder) : Address → Text
  | .ipv4 sockaddr => join '.' ((numbers host sockaddr.addr).map fun n => format 10 n.toNat)
  | .ipv6 sockaddr => join ':' (sockaddr.addr.toList.map fun n => format 16 (ntohs host n).toNat)

def portOf (host : ByteOrder) : Address → Word
  | .ipv4 sockaddr => ntohs host sockaddr.port
  | .ipv6 sockaddr => ntohs host sockaddr.port

/-- A host and a port as one text; brackets hold the colons of IPv6 together. -/
def hostAndPort (domain : Domain) (hostname : Text) (port : Word) : Text :=
  match domain with
  | .ipv4 => hostname ++ ':' :: format 10 port.toNat
  | .ipv6 => '[' :: hostname ++ ']' :: ':' :: format 10 port.toNat

theorem expr_eq (host : ByteOrder) (address : Address) :
    expr host address =
      hostAndPort address.domain (hostText host address) (portOf host address) := by
  cases address <;> rfl

theorem parseIpv4_printed (n : BitVec 32) :
    parseIpv4 .little (join '.' ((numbers .little n).map fun b => format 10 b.toNat)) =
      .ok (htonl .little n) := by
  obtain ⟨parts, hparsed, hfilled⟩ := parsed_octets .little
    (format_isOctet (n.extractLsb' 0 8)) (format_isOctet (n.extractLsb' 8 8))
    (format_isOctet (n.extractLsb' 16 8)) (format_isOctet (n.extractLsb' 24 8))
  have hparts : parts = #v[n.extractLsb' 24 8, n.extractLsb' 16 8, n.extractLsb' 8 8,
      n.extractLsb' 0 8] := by
    refine Vector.toList_inj.mp (hfilled.trans ?_)
    simp only [List.map_cons, octet_format]
    rfl
  have hload : load .little parts = htonl .little n := by
    rw [hparts]
    rfl
  rw [← hload]
  exact hparsed

theorem parseIpv6_printed (host : ByteOrder) (words : Words) :
    parseIpv6 host (join ':' (words.toList.map fun n => format 16 (ntohs host n).toNat)) =
      .ok words := by
  have hgs : ∀ g ∈ words.toList.map fun n => format 16 (ntohs host n).toNat, IsGroup g := by
    rw [List.forall_mem_map]
    exact fun n _ => format_isGroup (ntohs host n)
  obtain ⟨words', hparsed, hlist⟩ := parsed_alone host hgs (by simp)
  have hword : ∀ n, htons host (word (format 16 (ntohs host n).toNat)) = n := fun n => by
    rw [word_format, htons_ntohs]
  have hwords : words'.toList = words.toList :=
    calc words'.toList
        = words.toList.map fun n => htons host (word (format 16 (ntohs host n).toNat)) := by
          rw [hlist]
          simp only [padded, List.length_map, Vector.length_toList, List.length_nil,
            Nat.add_zero, Nat.sub_self, List.replicate_zero, List.map_nil, List.append_nil,
            List.map_map]
          rfl
      _ = words.toList := by simp only [hword, List.map_id']
  rw [hparsed, Vector.toList_inj.mp hwords]

/-- The colons of a printed IPv6 host keep the IPv4 parser away from it. -/
theorem parseIpv4_of_colon (host : ByteOrder) {hostname : Text} (h : ':' ∈ hostname) :
    parseIpv4 host hostname = .error .rejected := by
  rw [parseIpv4, if_neg]
  rw [List.all_eq_true]
  exact fun hall => absurd (hall ':' h) (by decide)

theorem colon_mem_hostText (host : ByteOrder) (sockaddr : SockaddrIn6) :
    ':' ∈ hostText host (.ipv6 sockaddr) :=
  sep_mem_join (by simp)

theorem fromHostname_printed (address : Address) :
    fromHostname .little (hostText .little address) (portOf .little address) =
      some (.ok address) := by
  cases address with
  | ipv4 sockaddr =>
    rw [fromHostname, hostText, parseIpv4_printed]
    simp only [portOf, htons_ntohs, htonl_htonl]
  | ipv6 sockaddr =>
    rw [fromHostname, parseIpv4_of_colon .little (colon_mem_hostText .little sockaddr), hostText,
      parseIpv6_printed]
    simp only [portOf, htons_ntohs]

theorem chars_hostText (host : ByteOrder) (sockaddr : SockaddrIn) :
    ∀ c ∈ hostText host (.ipv4 sockaddr), isIpv4Char c = true := by
  refine Ipv4Texts.chars_join ?_
  rw [List.forall_mem_map]
  exact fun b _ => format_isOctet b

theorem chars_hostText6 (host : ByteOrder) (sockaddr : SockaddrIn6) :
    ∀ c ∈ hostText host (.ipv6 sockaddr), isIpv6Char c = true := by
  refine Ipv6Texts.chars_join ?_
  rw [List.forall_mem_map]
  exact fun n _ => format_isGroup (ntohs host n)

/-- The families are told apart by the bracket. -/
theorem bracket_not_mem_expr (host : ByteOrder) (sockaddr : SockaddrIn) :
    '[' ∉ expr host (.ipv4 sockaddr) := by
  rw [expr]
  simp only [List.mem_append, List.mem_cons, not_or]
  refine ⟨fun h => ?_, by decide, fun h => ?_⟩
  · exact absurd (chars_hostText host sockaddr '[' h) (by decide)
  · exact not_mem_format (by decide) _ h

theorem format_word_injective {m n : Word} (h : format 10 m.toNat = format 10 n.toNat) : m = n :=
  BitVec.eq_of_toNat_eq (format_injective (by decide) (by decide) h)

/-- Two addresses that are printed alike have the same host and port, since the
separator behind the host is nowhere else. -/
theorem parts_of_expr {other : Address} (h : expr host address = expr host other) :
    hostText host address = hostText host other ∧ portOf host address = portOf host other := by
  cases address with
  | ipv4 sockaddr =>
    cases other with
    | ipv4 sockaddr' =>
      have hhost : ':' ∉ hostText host (.ipv4 sockaddr) := fun hmem =>
        absurd (chars_hostText host sockaddr ':' hmem) (by decide)
      have hport : ':' ∉ format 10 (portOf host (.ipv4 sockaddr)).toNat :=
        not_mem_format (by decide) _
      obtain ⟨hosts, -, ports⟩ := (List.append_cons_inj_of_notMem hhost hport).mp h
      exact ⟨hosts, format_word_injective ports⟩
    | ipv6 sockaddr' =>
      refine absurd ?_ (bracket_not_mem_expr host sockaddr)
      rw [h]
      exact List.mem_cons_self
  | ipv6 sockaddr =>
    cases other with
    | ipv4 sockaddr' =>
      refine absurd ?_ (bracket_not_mem_expr host sockaddr')
      rw [← h]
      exact List.mem_cons_self
    | ipv6 sockaddr' =>
      have hhost : ']' ∉ hostText host (.ipv6 sockaddr) := fun hmem =>
        absurd (chars_hostText6 host sockaddr ']' hmem) (by decide)
      have hport : ']' ∉ ':' :: format 10 (portOf host (.ipv6 sockaddr)).toNat :=
        List.not_mem_cons_of_ne_of_not_mem (by decide) (not_mem_format (by decide) _)
      obtain ⟨hosts, -, ports⟩ :=
        (List.append_cons_inj_of_notMem hhost hport).mp (List.cons.inj h).2
      exact ⟨hosts, format_word_injective (List.cons.inj ports).2⟩

/-- A printed address is read back from its host and its port, and no two
addresses are printed alike. -/
theorem printed_read_back :
    (∀ address, ∃ hostname port,
      expr .little address = hostAndPort address.domain hostname port ∧
        fromHostname .little hostname port = some (.ok address)) ∧
      Function.Injective (expr .little) := by
  refine ⟨fun address => ⟨_, _, expr_eq .little address, fromHostname_printed address⟩, ?_⟩
  intro address other h
  obtain ⟨hhost, hport⟩ := parts_of_expr h
  have hread := fromHostname_printed address
  rw [hhost, hport, fromHostname_printed other] at hread
  exact (Except.ok.inj (Option.some.inj hread)).symm

end RoundTrip

end Bc.Addresses
