import Bc.AddressParsing

/-!
The parser of IPv4 texts. The four numbers go to the bytes of the result from
its last byte down, so that a little-endian host reads the first number as the
highest. The end of a number is not looked at; the filter makes up for that.
-/
namespace Bc.Ipv4Texts

open Texts AddressParsing

abbrev Parts := Vector (BitVec 8) 4

def zeroParts : Parts := Vector.replicate 4 0

/-- The number that a host finds in its memory. -/
def load : ByteOrder → Parts → BitVec 32
  | .little, parts => parts[3] ++ parts[2] ++ parts[1] ++ parts[0]
  | .big, parts => parts[0] ++ parts[1] ++ parts[2] ++ parts[3]

def isIpv4Char (c : Char) : Bool := ('0' ≤ c && c ≤ '9') || c == '.'

def storePart (parts : Parts) (i : ℕ) (b : BitVec 8) : Except Stop Parts :=
  if h : i ≤ 3 then .ok (parts.set (3 - i) b) else .error .outOfRange

/-- The loop over the segments, with what it leaves in `parts` and `i`. -/
def readSegments (parts : Parts) (i : ℕ) : List Text → Except Stop (Parts × ℕ)
  | [] => .ok (parts, i)
  | segment :: rest =>
    if i = 4 then .error .rejected
    else
      match fromChars 10 (2 ^ 8) segment with
      | .ok n => (storePart parts i (BitVec.ofNat 8 n)).bind fun parts =>
          readSegments parts (i + 1) rest
      | .error _ => .error .rejected

def parseIpv4 (host : ByteOrder) (hostname : Text) : Except Stop (BitVec 32) :=
  if hostname.all isIpv4Char then
    (readSegments zeroParts 0 (split '.' hostname)).bind fun (parts, i) =>
      if i ≠ 4 then .error .rejected else .ok (load host parts)
  else .error .rejected

section Octets

/-- A decimal number for one byte; zeros may lead. -/
structure IsOctet (run : Text) : Prop where
  ne_nil : run ≠ []
  digits : ∀ c ∈ run, '0' ≤ c ∧ c ≤ '9'
  value_le : value 10 run ≤ 255

def octet (run : Text) : BitVec 8 := BitVec.ofNat 8 (value 10 run)

variable {run : Text} {c : Char}

theorem digitValue_lt_ten : digitValue c < 10 ↔ '0' ≤ c ∧ c ≤ '9' := by
  have hle : ∀ a b : Char, a ≤ b ↔ a.toNat ≤ b.toNat := fun _ _ => UInt32.le_iff_toNat_le
  unfold digitValue
  simp only [hle, Char.reduceToNat]
  split_ifs <;> omega

theorem isIpv4Char_iff : isIpv4Char c = true ↔ ('0' ≤ c ∧ c ≤ '9') ∨ c = '.' := by
  simp only [isIpv4Char, Bool.or_eq_true, Bool.and_eq_true, decide_eq_true_eq, beq_iff_eq]

theorem dot_not_mem (hrun : IsOctet run) : '.' ∉ run := fun h =>
  absurd (hrun.digits '.' h) (by decide)

theorem chars_join {runs : List Text} (hruns : ∀ run ∈ runs, IsOctet run) :
    ∀ c ∈ join '.' runs, isIpv4Char c = true := by
  intro c hc
  rw [isIpv4Char_iff]
  rcases mem_join hc with hsep | ⟨run, hrun, hmem⟩
  · exact .inr hsep
  · exact .inl ((hruns run hrun).digits c hmem)

theorem fromChars_octet_iff (hdigits : ∀ c ∈ run, '0' ≤ c ∧ c ≤ '9') {n : ℕ} :
    fromChars 10 (2 ^ 8) run = .ok n ↔ IsOctet run ∧ value 10 run = n := by
  rw [fromChars_digits_iff fun c hc => digitValue_lt_ten.mpr (hdigits c hc)]
  constructor
  · rintro ⟨hne, hlimit, hvalue⟩
    exact ⟨⟨hne, hdigits, Nat.le_of_lt_succ hlimit⟩, hvalue⟩
  · rintro ⟨hrun, hvalue⟩
    exact ⟨hrun.ne_nil, Nat.lt_succ_of_le hrun.value_le, hvalue⟩

theorem octet_toNat (hrun : IsOctet run) : (octet run).toNat = value 10 run := by
  rw [octet, BitVec.toNat_ofNat, Nat.mod_eq_of_lt (Nat.lt_succ_of_le hrun.value_le)]

end Octets

section Segments

variable {parts parts' : Parts} {runs pieces : List Text} {j : ℕ}

/-- The bytes have been filled from the last one down so far. -/
def Filled (parts : Parts) (runs : List Text) : Prop :=
  parts.toList = List.replicate (4 - runs.length) 0 ++ (runs.map octet).reverse

theorem zeroParts_filled : Filled zeroParts [] := rfl

theorem Filled.storePart (h : Filled parts runs) (hlen : runs.length < 4) (run : Text) :
    ∃ parts', storePart parts runs.length (octet run) = .ok parts' ∧
      Filled parts' (runs ++ [run]) := by
  refine ⟨parts.set (3 - runs.length) (octet run), dif_pos (Nat.le_of_lt_succ hlen), ?_⟩
  have hzeros : List.replicate (4 - runs.length) (0 : BitVec 8) =
      List.replicate (3 - runs.length) 0 ++ [0] := by
    rw [← List.replicate_succ']
    congr 1
    omega
  have hleft : 4 - (runs ++ [run]).length = 3 - runs.length := by
    rw [List.length_append, List.length_singleton]
    omega
  rw [Filled, Vector.toList_set, h, hzeros, hleft, List.append_assoc, List.map_append,
    List.reverse_append, List.set_append_right _ _ List.length_replicate.le,
    List.length_replicate, Nat.sub_self]
  rfl

/-- Numbers for which there is room are read one after the other. -/
theorem readSegments_octets (h : Filled parts runs) (hpieces : ∀ run ∈ pieces, IsOctet run)
    (hlen : runs.length + pieces.length ≤ 4) :
    ∃ parts', readSegments parts runs.length pieces =
        .ok (parts', runs.length + pieces.length) ∧ Filled parts' (runs ++ pieces) := by
  induction pieces generalizing parts runs with
  | nil => exact ⟨parts, rfl, by rwa [List.append_nil]⟩
  | cons run rest ih =>
    obtain ⟨hrun, hrest⟩ := List.forall_mem_cons.mp hpieces
    rw [List.length_cons] at hlen
    obtain ⟨next, hstore, hnext⟩ := h.storePart (by omega) run
    have hread := (fromChars_octet_iff hrun.digits).mpr ⟨hrun, rfl⟩
    have hnextLen : (runs ++ [run]).length = runs.length + 1 := by simp
    obtain ⟨parts', hreads, hfilled⟩ := ih hnext hrest (by omega)
    rw [hnextLen] at hreads
    rw [List.append_assoc, List.singleton_append] at hfilled
    refine ⟨parts', ?_, hfilled⟩
    rw [readSegments, if_neg (by omega), hread]
    simp only
    rw [← octet, hstore, List.length_cons, Nat.add_comm rest.length, ← Nat.add_assoc, ← hreads]
    rfl

/-- What the loop has read when it ends without an error. -/
theorem octets_of_readSegments (h : Filled parts runs) (hlen : runs.length ≤ 4)
    (hdigits : ∀ run ∈ pieces, ∀ c ∈ run, '0' ≤ c ∧ c ≤ '9')
    (hread : readSegments parts runs.length pieces = .ok (parts', j)) :
    (∀ run ∈ pieces, IsOctet run) ∧ j = runs.length + pieces.length ∧
      Filled parts' (runs ++ pieces) := by
  induction pieces generalizing parts runs with
  | nil =>
    obtain ⟨rfl, rfl⟩ : parts = parts' ∧ runs.length = j := by simpa [readSegments] using hread
    exact ⟨List.forall_mem_nil _, rfl, by rwa [List.append_nil]⟩
  | cons run rest ih =>
    obtain ⟨hrun, hrest⟩ := List.forall_mem_cons.mp hdigits
    rw [readSegments] at hread
    split at hread
    · cases hread
    · rename_i hroom
      split at hread
      · rename_i n hnumber
        obtain ⟨hoctet, rfl⟩ := (fromChars_octet_iff hrun).mp hnumber
        obtain ⟨next, hstore, hnext⟩ := h.storePart (by omega) run
        have hnextLen : (runs ++ [run]).length = runs.length + 1 := by simp
        rw [← octet, hstore] at hread
        obtain ⟨hoctets, hj, hfilled⟩ := ih hnext (by omega) hrest (by rw [hnextLen]; exact hread)
        rw [List.append_assoc, List.singleton_append] at hfilled
        refine ⟨List.forall_mem_cons.mpr ⟨hoctet, hoctets⟩, ?_, hfilled⟩
        rw [hj, hnextLen, List.length_cons]
        omega
      · cases hread

theorem readSegments_inRange (parts : Parts) {i : ℕ} (hi : i ≤ 4) (pieces : List Text) :
    readSegments parts i pieces ≠ .error .outOfRange := by
  induction pieces generalizing parts i with
  | nil => nofun
  | cons run rest ih =>
    rw [readSegments]
    split
    · nofun
    · rename_i hroom
      split
      · rw [storePart, dif_pos (by omega)]
        exact ih _ (by omega)
      · nofun

end Segments

section Verdicts

variable {s : Text} {addr : BitVec 32} {parts : Parts} {a b c d : Text}

theorem toNat_append {m n : ℕ} (x : BitVec m) (y : BitVec n) :
    (x ++ y).toNat = x.toNat * 2 ^ n + y.toNat := by
  rw [BitVec.toNat_append, ← Nat.shiftLeft_add_eq_or_of_lt y.isLt, Nat.shiftLeft_eq]

/-- A little-endian host finds the first of four numbers in the highest byte. -/
theorem load_little (h : Filled parts [a, b, c, d]) (ha : IsOctet a) (hb : IsOctet b)
    (hc : IsOctet c) (hd : IsOctet d) :
    (load .little parts).toNat =
      value 10 a * 2 ^ 24 + value 10 b * 2 ^ 16 + value 10 c * 2 ^ 8 + value 10 d := by
  have hparts : parts = #v[octet d, octet c, octet b, octet a] := Vector.toList_inj.mp h
  rw [hparts, ← octet_toNat ha, ← octet_toNat hb, ← octet_toNat hc, ← octet_toNat hd]
  change (octet a ++ octet b ++ octet c ++ octet d).toNat = _
  rw [toNat_append, toNat_append, toNat_append]
  omega

theorem parseIpv4_inRange (host : ByteOrder) (s : Text) :
    parseIpv4 host s ≠ .error .outOfRange := by
  unfold parseIpv4
  split
  · refine bind_inRange (readSegments_inRange zeroParts (Nat.zero_le _) _) ?_
    rintro ⟨parts, i⟩ -
    simp only
    split <;> nofun
  · nofun

/-- Four numbers are read, in whatever way the host keeps them. -/
theorem parsed_octets (host : ByteOrder) (ha : IsOctet a) (hb : IsOctet b) (hc : IsOctet c)
    (hd : IsOctet d) :
    ∃ parts, parseIpv4 host (join '.' [a, b, c, d]) = .ok (load host parts) ∧
      Filled parts [a, b, c, d] := by
  have hruns : ∀ run ∈ [a, b, c, d], IsOctet run := by
    simp only [List.forall_mem_cons]
    exact ⟨ha, hb, hc, hd, List.forall_mem_nil _⟩
  have hchars := chars_join hruns
  obtain ⟨parts, hread, hfilled⟩ := readSegments_octets zeroParts_filled hruns (by simp)
  refine ⟨parts, ?_, hfilled⟩
  rw [parseIpv4, if_pos (List.all_eq_true.mpr hchars),
    split_join (fun run hrun => dot_not_mem (hruns run hrun)) (by simp)]
  rw [List.length_nil] at hread
  rw [hread]
  rfl

theorem octets_of_parsed {host : ByteOrder} (h : parseIpv4 host s = .ok addr) :
    ∃ a b c d parts, (IsOctet a ∧ IsOctet b ∧ IsOctet c ∧ IsOctet d) ∧
      s = join '.' [a, b, c, d] ∧ Filled parts [a, b, c, d] ∧ addr = load host parts := by
  unfold parseIpv4 at h
  split at h
  · rename_i hall
    cases hread : readSegments zeroParts 0 (split '.' s) with
    | error stop =>
      rw [hread] at h
      cases h
    | ok result =>
      obtain ⟨parts, i⟩ := result
      have hdigits : ∀ run ∈ split '.' s, ∀ x ∈ run, '0' ≤ x ∧ x ≤ '9' := by
        intro run hrun x hx
        obtain ⟨hmem, hne⟩ := mem_of_mem_split hrun hx
        exact (isIpv4Char_iff.mp (List.all_eq_true.mp hall x hmem)).resolve_right hne
      obtain ⟨hoctets, hi, hfilled⟩ :=
        octets_of_readSegments zeroParts_filled (Nat.zero_le _) hdigits hread
      rw [hread] at h
      simp only [Except.bind] at h
      split at h
      · cases h
      · rename_i hfour
        rw [not_not.mp hfour, List.length_nil, Nat.zero_add] at hi
        obtain ⟨a, b, c, d, hpieces⟩ := List.length_eq_four.mp hi.symm
        rw [List.nil_append, hpieces] at hfilled
        rw [hpieces] at hoctets
        simp only [List.forall_mem_cons] at hoctets
        obtain ⟨ha, hb, hc, hd, -⟩ := hoctets
        refine ⟨a, b, c, d, parts, ⟨ha, hb, hc, hd⟩, ?_, hfilled, (Except.ok.inj h).symm⟩
        rw [← hpieces, join_split]
  · cases h

/-- The accepted texts are four numbers up to 255 with dots between them, and
the first number is the highest byte of the result. No write of the parser is
outside the result. -/
theorem parsed_number (s : Text) :
    parseIpv4 .little s ≠ .error .outOfRange ∧ ∀ addr, parseIpv4 .little s = .ok addr ↔
      ∃ a b c d, (IsOctet a ∧ IsOctet b ∧ IsOctet c ∧ IsOctet d) ∧ s = join '.' [a, b, c, d] ∧
        addr.toNat =
          value 10 a * 2 ^ 24 + value 10 b * 2 ^ 16 + value 10 c * 2 ^ 8 + value 10 d := by
  refine ⟨parseIpv4_inRange .little s, fun addr => ⟨fun h => ?_, ?_⟩⟩
  · obtain ⟨a, b, c, d, parts, ⟨ha, hb, hc, hd⟩, htext, hfilled, haddr⟩ := octets_of_parsed h
    refine ⟨a, b, c, d, ⟨ha, hb, hc, hd⟩, htext, ?_⟩
    rw [haddr, load_little hfilled ha hb hc hd]
  · rintro ⟨a, b, c, d, ⟨ha, hb, hc, hd⟩, rfl, haddr⟩
    obtain ⟨parts, hparsed, hfilled⟩ := parsed_octets .little ha hb hc hd
    rw [hparsed]
    refine congrArg Except.ok (BitVec.eq_of_toNat_eq ?_)
    rw [haddr, load_little hfilled ha hb hc hd]

end Verdicts

end Bc.Ipv4Texts
