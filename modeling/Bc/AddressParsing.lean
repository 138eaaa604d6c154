import Bc.Texts
import Mathlib.Data.Vector.Basic

/-!
The parser of IPv6 texts. It cuts one colon off a double colon at either end
and splits at the colons. An empty piece then stands for the double colon, and
the pieces behind it go to an array of their own, which is copied to the end.
Every write is checked, so an iterator past the end of an array would show.
-/
namespace Bc.AddressParsing

open Texts

abbrev Word := BitVec 16

abbrev Words := Vector Word 8

inductive ByteOrder
  | little
  | big
  deriving DecidableEq

/-- `::htons` on a host. -/
def htons : ByteOrder → Word → Word
  | .little, w => w.extractLsb' 0 8 ++ w.extractLsb' 8 8
  | .big, w => w

/-- The bytes of a word in the memory of a host. -/
def ByteOrder.bytes : ByteOrder → Word → List (BitVec 8)
  | little, w => [w.extractLsb' 0 8, w.extractLsb' 8 8]
  | big, w => [w.extractLsb' 8 8, w.extractLsb' 0 8]

/-- Why there is no address: the parser returned `nullopt`, or it wrote
outside an array. -/
inductive Stop
  | rejected
  | outOfRange
  deriving DecidableEq

def isIpv6Char (c : Char) : Bool :=
  ('0' ≤ c && c ≤ '9') || ('a' ≤ c && c ≤ 'f') || ('A' ≤ c && c ≤ 'F') || c == ':'

/-- The two branches before the split. -/
def trim (hostname : Text) : Text :=
  if [':', ':'].isPrefixOf hostname then hostname.drop 1
  else if [':', ':'].isSuffixOf hostname then hostname.take (hostname.length - 1)
  else hostname

def zeros : Words := Vector.replicate 8 0

def store (array : Words) (i : ℕ) (w : Word) : Except Stop Words :=
  if h : i < 8 then .ok (array.set i w) else .error .outOfRange

def readGroup (array : Words) (i : ℕ) (piece : Text) : Except Stop Words :=
  if 4 < piece.length then .error .rejected
  else
    match fromChars 16 (2 ^ 16) piece with
    | .ok n => store array i (BitVec.ofNat 16 n)
    | .error _ => .error .rejected

/-- The loop that fills an array. It ends with the array, with the pieces or at
an empty piece, and returns the pieces behind that one. -/
def readGroups (array : Words) (i : ℕ) : List Text → Except Stop (Words × ℕ × Option (List Text))
  | [] => .ok (array, i, none)
  | piece :: rest =>
    if i = 8 then .ok (array, i, none)
    else if piece = [] then .ok (array, i, some rest)
    else (readGroup array i piece).bind fun array => readGroups array (i + 1) rest

def copy (array : Words) (i : ℕ) : List Word → Except Stop Words
  | [] => .ok array
  | w :: rest => (store array i w).bind fun array => copy array (i + 1) rest

/-- The block under `has_tail`, where there is one. -/
def readTail (addr : Words) (i : ℕ) : Option (List Text) → Except Stop Words
  | none => .ok addr
  | some pieces =>
    (readGroups zeros 0 pieces).bind fun (tail, j, emptyPiece) =>
      if emptyPiece.isSome then .error .rejected
      else if 8 ≤ i + j then .error .rejected
      else copy addr (i + (8 - (i + j))) (tail.toList.take j)

def readWords (pieces : List Text) : Except Stop Words :=
  (readGroups zeros 0 pieces).bind fun (addr, i, tail) => readTail addr i tail

def parseIpv6 (host : ByteOrder) (hostname : Text) : Except Stop Words :=
  if hostname.all isIpv6Char then
    (readWords (split ':' (trim hostname))).map fun addr => Vector.map (htons host) addr
  else .error .rejected

section Arrays

variable {array addr : Words} {ws : List Word} {i : ℕ}

theorem store_ok (array : Words) (w : Word) (hi : i < 8) :
    ∃ array', store array i w = .ok array' ∧ array'.toList = array.toList.set i w := by
  refine ⟨array.set i w, ?_, ?_⟩
  · rw [store, dif_pos hi]
  · exact Vector.toList_set hi

theorem copy_ok (array : Words) (i : ℕ) (ws : List Word) (hlen : i + ws.length ≤ 8) :
    ∃ array', copy array i ws = .ok array' ∧
      array'.toList = array.toList.take i ++ ws ++ array.toList.drop (i + ws.length) := by
  induction ws generalizing array i with
  | nil => exact ⟨array, rfl, by simp⟩
  | cons w rest ih =>
    rw [List.length_cons] at hlen
    obtain ⟨next, hstore, hnext⟩ := store_ok array w (i := i) (by omega)
    obtain ⟨array', hcopy, hlist⟩ := ih next (i + 1) (by omega)
    refine ⟨array', ?_, ?_⟩
    · rw [copy, hstore]
      exact hcopy
    · have hsize : i < array.toList.length := by
        rw [array.length_toList]
        omega
      have htake : (array.toList.set i w).take (i + 1) = array.toList.take i ++ [w] := by
        rw [List.set_eq_take_append_cons_drop, if_pos hsize, List.take_append,
          List.length_take_of_le hsize.le, List.take_take]
        simp
      have hnextIndex : i + 1 + rest.length = i + (w :: rest).length := by
        rw [List.length_cons]
        omega
      rw [hlist, hnext, htake, List.drop_set_of_lt (by omega), hnextIndex]
      simp only [List.append_assoc, List.cons_append, List.nil_append]

/-- The array has been filled with `ws` so far. -/
def Holding (array : Words) (ws : List Word) : Prop :=
  array.toList = ws ++ List.replicate (8 - ws.length) 0

theorem zeros_holding : Holding zeros [] := Vector.toList_replicate

theorem Holding.toList (h : Holding array ws) :
    array.toList = ws ++ List.replicate (8 - ws.length) 0 := h

theorem Holding.store (h : Holding array ws) (hlen : ws.length < 8) (w : Word) :
    ∃ array', store array ws.length w = .ok array' ∧ Holding array' (ws ++ [w]) := by
  obtain ⟨array', hstore, hlist⟩ := store_ok array w hlen
  refine ⟨array', hstore, ?_⟩
  have hzeros : List.replicate (8 - ws.length) (0 : Word) =
      0 :: List.replicate (8 - (ws ++ [w]).length) 0 := by
    rw [← List.replicate_succ, List.length_append, List.length_singleton]
    congr 1
    omega
  rw [Holding, hlist, h.toList, hzeros, List.set_append_right _ _ (le_refl _), Nat.sub_self,
    List.set_cons_zero, List.append_assoc]
  rfl

end Arrays

section Groups

variable {array array' addr : Words} {ws : List Word} {i j : ℕ} {tail : Option (List Text)}
  {pieces rest hi lo : List Text}

structure IsGroup (g : Text) : Prop where
  ne_nil : g ≠ []
  length_le : g.length ≤ 4
  digits : ∀ c ∈ g, IsHexDigit c

instance (g : Text) : Decidable (IsGroup g) :=
  decidable_of_iff (g ≠ [] ∧ g.length ≤ 4 ∧ g.all (fun c => decide (IsHexDigit c)) = true)
    ⟨fun ⟨hne, hlen, hdigits⟩ => ⟨hne, hlen, by simpa using hdigits⟩,
      fun hg => ⟨hg.ne_nil, hg.length_le, by simpa using hg.digits⟩⟩

def word (g : Text) : Word := BitVec.ofNat 16 (value 16 g)

/-- A group is always read: four digits fit. -/
theorem fromChars_group {g : Text} (hg : IsGroup g) :
    fromChars 16 (2 ^ 16) g = .ok (value 16 g) := by
  have hdigits : ∀ c ∈ g, digitValue c < 16 := fun c hc =>
    digitValue_lt_sixteen.mpr (hg.digits c hc)
  refine fromChars_digits hdigits hg.ne_nil ?_
  calc value 16 g < 16 ^ g.length := value_lt (by decide) hdigits
    _ ≤ 16 ^ 4 := Nat.pow_le_pow_right (by decide) hg.length_le
    _ = 2 ^ 16 := by decide

theorem readGroup_group (h : Holding array ws) (hlen : ws.length < 8) {g : Text} (hg : IsGroup g) :
    ∃ array', readGroup array ws.length g = .ok array' ∧ Holding array' (ws ++ [word g]) := by
  obtain ⟨array', hstore, hnext⟩ := h.store hlen (word g)
  refine ⟨array', ?_, hnext⟩
  rw [readGroup, if_neg (not_lt.mpr hg.length_le), fromChars_group hg]
  exact hstore

/-- Groups for which there is room are read one after the other. -/
theorem readGroups_groups (h : Holding array ws) {gs : List Text} (hgs : ∀ g ∈ gs, IsGroup g)
    (hlen : ws.length + gs.length ≤ 8) (rest : List Text) :
    ∃ array', readGroups array ws.length (gs ++ rest) =
        readGroups array' (ws ++ gs.map word).length rest ∧ Holding array' (ws ++ gs.map word) := by
  induction gs generalizing array ws with
  | nil => exact ⟨array, by simp, by simpa using h⟩
  | cons g later ih =>
    obtain ⟨hg, hlater⟩ := List.forall_mem_cons.mp hgs
    rw [List.length_cons] at hlen
    obtain ⟨next, hread, hnext⟩ := readGroup_group h (by omega) hg
    have hnextLen : (ws ++ [word g]).length = ws.length + 1 := by simp
    obtain ⟨array', hreads, hholding⟩ := ih hnext hlater (by omega)
    rw [List.append_assoc, List.singleton_append, ← List.map_cons] at hreads hholding
    refine ⟨array', ?_, hholding⟩
    rw [List.cons_append, readGroups, if_neg (by omega), if_neg hg.ne_nil, hread, ← hreads,
      hnextLen]
    rfl

/-- The three ways in which the loop can end, by the array, by the pieces or by
an empty piece; `gs` are the pieces that it has read. -/
inductive Reads (room : ℕ) (gs : List Text) : List Text → Option (List Text) → Prop
  | full (more : List Text) (hlen : gs.length = room) : Reads room gs (gs ++ more) none
  | short (hlen : gs.length < room) : Reads room gs gs none
  | gap (rest : List Text) (hlen : gs.length < room) :
      Reads room gs (gs ++ [] :: rest) (some rest)

theorem Reads.cons {room : ℕ} {gs : List Text} (h : Reads room gs pieces tail) (g : Text) :
    Reads (room + 1) (g :: gs) (g :: pieces) tail := by
  cases h with
  | full more hlen => exact .full more (congrArg (· + 1) hlen)
  | short hlen => exact .short (Nat.succ_lt_succ hlen)
  | gap rest hlen => exact .gap rest (Nat.succ_lt_succ hlen)

theorem isGroup_of_readGroup {piece : Text} (hne : piece ≠ []) (hhex : ∀ c ∈ piece, IsHexDigit c)
    (h : readGroup array i piece = .ok array') : IsGroup piece := by
  refine ⟨hne, ?_, hhex⟩
  unfold readGroup at h
  split at h
  · cases h
  · rename_i hlen
    exact not_lt.mp hlen

/-- What the loop has read when it ends without an error. -/
theorem reads_of_readGroups (hhex : ∀ piece ∈ pieces, ∀ c ∈ piece, IsHexDigit c) (hi : i ≤ 8)
    (h : readGroups array i pieces = .ok (array', j, tail)) :
    ∃ gs, (∀ g ∈ gs, IsGroup g) ∧ j = i + gs.length ∧ Reads (8 - i) gs pieces tail := by
  induction pieces generalizing array i with
  | nil =>
    obtain ⟨rfl, rfl, rfl⟩ : array = array' ∧ i = j ∧ none = tail := by
      simpa [readGroups] using h
    refine ⟨[], nofun, rfl, ?_⟩
    by_cases hfull : i = 8
    · exact .full [] (by rw [hfull]; rfl)
    · exact .short (by rw [List.length_nil]; omega)
  | cons piece rest ih =>
    obtain ⟨hpiece, hrest⟩ := List.forall_mem_cons.mp hhex
    rw [readGroups] at h
    split at h
    · rename_i hfull
      obtain ⟨rfl, rfl, rfl⟩ : array = array' ∧ i = j ∧ none = tail := by simpa using h
      exact ⟨[], nofun, rfl, .full (piece :: rest) (by rw [hfull]; rfl)⟩
    · rename_i hroom
      split at h
      · rename_i hempty
        obtain ⟨rfl, rfl, rfl⟩ : array = array' ∧ i = j ∧ some rest = tail := by simpa using h
        subst hempty
        exact ⟨[], nofun, rfl, .gap rest (by rw [List.length_nil]; omega)⟩
      · rename_i hne
        cases hread : readGroup array i piece with
        | error stop =>
          rw [hread] at h
          cases h
        | ok next =>
          rw [hread] at h
          obtain ⟨gs, hgs, hj, hreads⟩ := ih hrest (by omega) h
          have hg := isGroup_of_readGroup hne hpiece hread
          refine ⟨piece :: gs, List.forall_mem_cons.mpr ⟨hg, hgs⟩, ?_, ?_⟩
          · rw [hj, List.length_cons]
            omega
          · have hroom' : 8 - i = 8 - (i + 1) + 1 := by omega
            rw [hroom']
            exact hreads.cons piece

/-- The pieces that are accepted, with the groups in front of an empty piece
and those behind it. What follows eight groups is not looked at. -/
inductive Shape : List Text → List Text → List Text → Prop
  | full (gs more : List Text) (hlen : gs.length = 8) : Shape (gs ++ more) gs []
  | short (gs : List Text) (hlen : gs.length < 8) : Shape gs gs []
  | gap (hi lo : List Text) (hlen : hi.length + lo.length < 8) : Shape (hi ++ [] :: lo) hi lo

/-- The words of an address with zeros for what is left out. -/
def padded (hi lo : List Text) : List Word :=
  hi.map word ++ List.replicate (8 - (hi.length + lo.length)) 0 ++ lo.map word

theorem readGroups_full (array : Words) (pieces : List Text) :
    readGroups array 8 pieces = .ok (array, 8, none) := by
  cases pieces <;> rfl

theorem readGroups_zeros {gs : List Text} (hgs : ∀ g ∈ gs, IsGroup g) (hlen : gs.length ≤ 8)
    (rest : List Text) :
    ∃ array, readGroups zeros 0 (gs ++ rest) = readGroups array gs.length rest ∧
      Holding array (gs.map word) := by
  obtain ⟨array, hread, hholding⟩ := readGroups_groups zeros_holding hgs (by simpa using hlen) rest
  rw [List.nil_append] at hread hholding
  rw [List.length_map] at hread
  exact ⟨array, hread, hholding⟩

theorem readTail_gap (h : Holding addr (hi.map word)) (hlo : ∀ g ∈ lo, IsGroup g)
    (hlen : hi.length + lo.length < 8) :
    ∃ addr', readTail addr hi.length (some lo) = .ok addr' ∧ addr'.toList = padded hi lo := by
  obtain ⟨tail, hread, htail⟩ := readGroups_zeros hlo (by omega) []
  rw [List.append_nil, readGroups] at hread
  have hwords : tail.toList.take lo.length = lo.map word := by
    rw [htail.toList, List.take_append_of_le_length (by simp), List.take_of_length_le (by simp)]
  have hfront : addr.toList.take (hi.length + (8 - (hi.length + lo.length))) =
      hi.map word ++ List.replicate (8 - (hi.length + lo.length)) 0 := by
    rw [h.toList, List.take_append, List.take_of_length_le (by simp), List.length_map,
      Nat.add_sub_cancel_left, List.take_replicate]
    congr 2
    omega
  obtain ⟨addr', hcopy, hlist⟩ := copy_ok addr (hi.length + (8 - (hi.length + lo.length)))
    (lo.map word) (by rw [List.length_map]; omega)
  refine ⟨addr', ?_, ?_⟩
  · rw [readTail, hread]
    simp only [Except.bind, Option.isSome_none, Bool.false_eq_true, if_false,
      if_neg (not_le.mpr hlen), hwords]
    exact hcopy
  · have hend : addr.toList.drop (hi.length + (8 - (hi.length + lo.length)) +
        (lo.map word).length) = [] := by
      rw [List.drop_eq_nil_iff, addr.length_toList, List.length_map]
      omega
    rw [hlist, hfront, hend, List.append_nil, padded]

theorem readWords_of_shape (h : Shape pieces hi lo) (hhi : ∀ g ∈ hi, IsGroup g)
    (hlo : ∀ g ∈ lo, IsGroup g) :
    ∃ addr, readWords pieces = .ok addr ∧ addr.toList = padded hi lo := by
  cases h with
  | full _ more hlen =>
    obtain ⟨addr, hread, hholding⟩ := readGroups_zeros hhi hlen.le more
    rw [hlen, readGroups_full] at hread
    refine ⟨addr, ?_, ?_⟩
    · rw [readWords, hread]
      rfl
    · rw [hholding.toList, padded, List.length_map]
      simp
  | short _ hlen =>
    obtain ⟨addr, hread, hholding⟩ := readGroups_zeros hhi hlen.le []
    rw [List.append_nil] at hread
    refine ⟨addr, ?_, ?_⟩
    · rw [readWords, hread]
      rfl
    · rw [hholding.toList, padded, List.length_map]
      simp
  | gap _ _ hlen =>
    obtain ⟨front, hread, hholding⟩ := readGroups_zeros hhi (by omega) ([] :: lo)
    rw [readGroups, if_neg (by omega), if_pos rfl] at hread
    obtain ⟨addr, htail, hlist⟩ := readTail_gap hholding hlo hlen
    refine ⟨addr, ?_, hlist⟩
    rw [readWords, hread]
    exact htail

/-- Behind an empty piece there are groups only, and not too many. -/
theorem groups_of_readTail (hhex : ∀ piece ∈ rest, ∀ c ∈ piece, IsHexDigit c)
    (h : readTail array i (some rest) = .ok addr) :
    (∀ g ∈ rest, IsGroup g) ∧ i + rest.length < 8 := by
  rw [readTail] at h
  cases hread : readGroups zeros 0 rest with
  | error stop =>
    rw [hread] at h
    cases h
  | ok result =>
    obtain ⟨tail, j, emptyPiece⟩ := result
    rw [hread] at h
    obtain ⟨gs, hgs, hj, hreads⟩ := reads_of_readGroups hhex (Nat.zero_le _) hread
    rw [Nat.zero_add] at hj
    simp only [Except.bind] at h
    split at h
    · cases h
    · split at h
      · cases h
      · rename_i hnone hroom
        cases hreads with
        | full more hlen => omega
        | short hlen => exact ⟨hgs, by omega⟩
        | gap later hlen => exact absurd rfl hnone

/-- An address is read from pieces of an accepted shape only. -/
theorem shape_of_readWords (hhex : ∀ piece ∈ pieces, ∀ c ∈ piece, IsHexDigit c)
    (h : readWords pieces = .ok addr) :
    ∃ hi lo, Shape pieces hi lo ∧ (∀ g ∈ hi, IsGroup g) ∧ ∀ g ∈ lo, IsGroup g := by
  unfold readWords at h
  cases hread : readGroups zeros 0 pieces with
  | error stop =>
    rw [hread] at h
    cases h
  | ok result =>
    obtain ⟨front, i, tail⟩ := result
    rw [hread] at h
    obtain ⟨gs, hgs, hi, hreads⟩ := reads_of_readGroups hhex (Nat.zero_le _) hread
    rw [Nat.zero_add] at hi
    cases hreads with
    | full more hlen => exact ⟨gs, [], .full gs more hlen, hgs, nofun⟩
    | short hlen => exact ⟨pieces, [], .short pieces hlen, hgs, nofun⟩
    | gap rest hlen =>
      have hrest : ∀ piece ∈ rest, ∀ c ∈ piece, IsHexDigit c := fun piece hpiece =>
        hhex piece (List.mem_append_right _ (List.mem_cons_of_mem _ hpiece))
      obtain ⟨hlo, hroom⟩ := groups_of_readTail hrest h
      exact ⟨gs, rest, .gap gs rest (hi ▸ hroom), hgs, hlo⟩

theorem readGroup_inRange (array : Words) {i : ℕ} (hi : i < 8) (piece : Text) :
    readGroup array i piece ≠ .error .outOfRange := by
  unfold readGroup
  split
  · nofun
  · split
    · obtain ⟨next, hstore, -⟩ := store_ok array _ hi
      rw [hstore]
      nofun
    · nofun

theorem bind_inRange {α β : Type} {x : Except Stop α} {f : α → Except Stop β}
    (hx : x ≠ .error .outOfRange) (hf : ∀ a, x = .ok a → f a ≠ .error .outOfRange) :
    x.bind f ≠ .error .outOfRange := by
  cases x with
  | error stop => exact fun h => hx (congrArg Except.error (Except.error.inj h))
  | ok a => exact hf a rfl

theorem readGroups_inRange (array : Words) {i : ℕ} (hi : i ≤ 8) (pieces : List Text) :
    readGroups array i pieces ≠ .error .outOfRange := by
  induction pieces generalizing array i with
  | nil => nofun
  | cons piece rest ih =>
    rw [readGroups]
    split
    · nofun
    · rename_i hroom
      split
      · nofun
      · exact bind_inRange (readGroup_inRange array (by omega) piece)
          fun next _ => ih next (by omega)

theorem readTail_inRange (addr : Words) (i : ℕ) (tail : Option (List Text)) :
    readTail addr i tail ≠ .error .outOfRange := by
  cases tail with
  | none => nofun
  | some pieces =>
    rw [readTail]
    refine bind_inRange (readGroups_inRange zeros (Nat.zero_le _) pieces) ?_
    rintro ⟨tail, j, emptyPiece⟩ -
    simp only
    split
    · nofun
    · split
      · nofun
      · have hlen : (tail.toList.take j).length ≤ j := List.length_take_le _ _
        obtain ⟨addr', hcopy, -⟩ := copy_ok addr (i + (8 - (i + j))) (tail.toList.take j)
          (by omega)
        rw [hcopy]
        nofun

theorem parseIpv6_inRange (host : ByteOrder) (hostname : Text) :
    parseIpv6 host hostname ≠ .error .outOfRange := by
  unfold parseIpv6
  split
  · have hwords : readWords (split ':' (trim hostname)) ≠ .error .outOfRange :=
      bind_inRange (readGroups_inRange zeros (Nat.zero_le _) _)
        fun result _ => readTail_inRange result.1 result.2.1 result.2.2
    exact bind_inRange hwords nofun
  · nofun

end Groups

end Bc.AddressParsing
