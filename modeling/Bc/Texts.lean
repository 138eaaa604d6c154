import Mathlib.Data.List.Induction
import Mathlib.Data.List.TakeWhile
import Mathlib.Data.Nat.Digits.Defs

/-!
Texts and what the standard library does with them: numbers by
`std::from_chars`, pieces by `std::views::split`. Joining is the inverse of
splitting.
-/
namespace Bc.Texts

abbrev Text := List Char

/-- The digit that a character is in the bases up to 36, and 36 for none. -/
def digitValue (c : Char) : ℕ :=
  if '0' ≤ c ∧ c ≤ '9' then c.toNat - '0'.toNat
  else if 'a' ≤ c ∧ c ≤ 'z' then c.toNat - 'a'.toNat + 10
  else if 'A' ≤ c ∧ c ≤ 'Z' then c.toNat - 'A'.toNat + 10
  else 36

def IsHexDigit (c : Char) : Prop :=
  ('0' ≤ c ∧ c ≤ '9') ∨ ('a' ≤ c ∧ c ≤ 'f') ∨ ('A' ≤ c ∧ c ≤ 'F')

instance : DecidablePred IsHexDigit := fun _ => inferInstanceAs (Decidable (_ ∨ _ ∨ _))

theorem digitValue_lt_sixteen {c : Char} : digitValue c < 16 ↔ IsHexDigit c := by
  have hle : ∀ a b : Char, a ≤ b ↔ a.toNat ≤ b.toNat := fun _ _ => UInt32.le_iff_toNat_le
  unfold digitValue IsHexDigit
  simp only [hle, Char.reduceToNat]
  split_ifs <;> omega

/-- The number that a text of digits is written for. -/
def value (base : ℕ) (digits : Text) : ℕ := Nat.ofDigits base (digits.map digitValue).reverse

inductive Errc
  | invalidArgument
  | resultOutOfRange
  deriving DecidableEq

/-- `std::from_chars` for an unsigned type with the values below `limit`. The
digits at the start are read; what follows them does not matter. -/
def fromChars (base limit : ℕ) (text : Text) : Except Errc ℕ :=
  let digits := text.takeWhile fun c => digitValue c < base
  if digits = [] then .error .invalidArgument
  else
    let n := digits.foldl (fun n c => base * n + digitValue c) 0
    if n < limit then .ok n else .error .resultOutOfRange

theorem value_append_digit (base : ℕ) (digits : Text) (c : Char) :
    value base (digits ++ [c]) = base * value base digits + digitValue c := by
  rw [value, List.map_append, List.reverse_append]
  simp only [List.map_cons, List.map_nil, List.reverse_singleton, List.singleton_append,
    Nat.ofDigits_cons]
  exact Nat.add_comm _ _

theorem foldl_eq_value (base : ℕ) (digits : Text) :
    digits.foldl (fun n c => base * n + digitValue c) 0 = value base digits := by
  induction digits using List.reverseRecOn with
  | nil => rfl
  | append_singleton digits c ih =>
    rw [List.foldl_append, ih, value_append_digit]
    rfl

theorem value_lt {base : ℕ} (hbase : 1 < base) {digits : Text}
    (h : ∀ c ∈ digits, digitValue c < base) : value base digits < base ^ digits.length := by
  have hlt := Nat.ofDigits_lt_base_pow_length (l := (digits.map digitValue).reverse) hbase ?_
  · simpa [value] using hlt
  · intro x hx
    obtain ⟨c, hc, rfl⟩ := List.mem_map.mp (List.mem_reverse.mp hx)
    exact h c hc

/-- A text of digits is read whole, if there is one and it fits. -/
theorem fromChars_digits_iff {base limit n : ℕ} {text : Text}
    (h : ∀ c ∈ text, digitValue c < base) :
    fromChars base limit text = .ok n ↔
      text ≠ [] ∧ value base text < limit ∧ value base text = n := by
  have hall : (text.takeWhile fun c => digitValue c < base) = text := by
    rw [List.takeWhile_eq_self_iff]
    simpa using h
  simp only [fromChars, hall, foldl_eq_value]
  split
  · rename_i hempty
    exact ⟨nofun, fun hok => absurd hempty hok.1⟩
  · rename_i hne
    split
    · rename_i hlimit
      exact ⟨fun hok => ⟨hne, hlimit, Except.ok.inj hok⟩, fun hok => congrArg _ hok.2.2⟩
    · rename_i hlimit
      exact ⟨nofun, fun hok => absurd hok.2.1 hlimit⟩

theorem fromChars_digits {base limit : ℕ} {text : Text}
    (h : ∀ c ∈ text, digitValue c < base) (hne : text ≠ []) (hlimit : value base text < limit) :
    fromChars base limit text = .ok (value base text) :=
  (fromChars_digits_iff h).mpr ⟨hne, hlimit, rfl⟩

/-- What `fmt` writes for an unsigned number, by `{}` in base 10 and by `{:x}`
in base 16. -/
def format (base n : ℕ) : Text := Nat.toDigits base n

section Format

variable {base : ℕ}

theorem digitValue_digitChar : ∀ d < 16, digitValue (Nat.digitChar d) = d := by
  decide

theorem format_of_lt {n : ℕ} (h : n < base) : format base n = [Nat.digitChar n] :=
  Nat.toDigits_of_lt_base h

theorem format_of_le {n : ℕ} (hbase : 1 < base) (h : base ≤ n) :
    format base n = format base (n / base) ++ [Nat.digitChar (n % base)] := by
  rw [format, Nat.toDigits_eq_if hbase, if_neg (not_lt.mpr h)]
  rfl

theorem format_ne_nil (base n : ℕ) : format base n ≠ [] := Nat.toDigits_ne_nil

theorem format_digits (hbase : 1 < base) (hdigit : base ≤ 16) (n : ℕ) :
    ∀ c ∈ format base n, digitValue c < base := by
  have hlast : ∀ d < base, digitValue (Nat.digitChar d) < base := fun d hd => by
    rwa [digitValue_digitChar d (hd.trans_le hdigit)]
  induction n using Nat.strong_induction_on with
  | _ n ih =>
    by_cases hn : n < base
    · rw [format_of_lt hn, List.forall_mem_singleton]
      exact hlast n hn
    · have hle := not_lt.mp hn
      have hquotient := ih (n / base) (Nat.div_lt_self (by omega) hbase)
      rw [format_of_le hbase hle, List.forall_mem_append, List.forall_mem_singleton]
      exact ⟨hquotient, hlast _ (Nat.mod_lt n (by omega))⟩

theorem not_mem_format {c : Char} (hc : ¬digitValue c < 10) (n : ℕ) : c ∉ format 10 n := fun h =>
  hc (format_digits (by decide) (by decide) n c h)

theorem value_format (hbase : 1 < base) (hdigit : base ≤ 16) (n : ℕ) :
    value base (format base n) = n := by
  induction n using Nat.strong_induction_on with
  | _ n ih =>
    by_cases hn : n < base
    · rw [format_of_lt hn, value]
      simp [digitValue_digitChar n (hn.trans_le hdigit)]
    · have hlast : n % base < 16 := (Nat.mod_lt n (by omega)).trans_le hdigit
      rw [format_of_le hbase (not_lt.mp hn), value_append_digit,
        ih (n / base) (Nat.div_lt_self (by omega) hbase), digitValue_digitChar _ hlast]
      exact Nat.div_add_mod n base

theorem format_injective (hbase : 1 < base) (hdigit : base ≤ 16) :
    Function.Injective (format base) := fun m n h => by
  rw [← value_format hbase hdigit m, h, value_format hbase hdigit n]

end Format

/-- `std::views::split`; there is no piece in an empty text. -/
def split (separator : Char) (text : Text) : List Text :=
  if text = [] then [] else text.splitOn separator

/-- The pieces with one separator between each two. -/
def join (separator : Char) (pieces : List Text) : Text := [separator].intercalate pieces

section Pieces

variable {sep : Char} {text : Text} {pieces left right : List Text}

theorem join_split (sep : Char) (text : Text) : join sep (split sep text) = text := by
  unfold split join
  split
  · rename_i hempty
    rw [hempty]
    rfl
  · exact List.intercalate_splitOn sep

theorem join_singleton (sep : Char) (piece : Text) : join sep [piece] = piece :=
  List.intercalate_singleton

theorem join_cons (piece : Text) (hright : right ≠ []) :
    join sep (piece :: right) = piece ++ sep :: join sep right := by
  rw [join, List.intercalate_cons_of_ne_nil hright, List.append_assoc]
  rfl

theorem join_append (hleft : left ≠ []) (hright : right ≠ []) :
    join sep (left ++ right) = join sep left ++ sep :: join sep right := by
  induction left with
  | nil => exact absurd rfl hleft
  | cons piece rest ih =>
    cases rest with
    | nil =>
      rw [List.singleton_append, join_cons piece hright, join_singleton]
    | cons next later =>
      rw [List.cons_append, join_cons piece (List.append_ne_nil_of_right_ne_nil _ hright),
        ih (List.cons_ne_nil _ _), join_cons piece (List.cons_ne_nil _ _), List.append_assoc]
      rfl

theorem join_eq_nil (h : join sep pieces = []) : pieces = [] ∨ pieces = [[]] := by
  cases pieces with
  | nil => exact .inl rfl
  | cons piece rest =>
    cases rest with
    | nil => exact .inr (congrArg (fun piece => [piece]) ((join_singleton sep piece).symm.trans h))
    | cons next later =>
      rw [join_cons piece (List.cons_ne_nil _ _)] at h
      exact absurd (List.append_eq_nil_iff.mp h).2 (List.cons_ne_nil _ _)

theorem split_join (h : ∀ piece ∈ pieces, sep ∉ piece) (hone : pieces ≠ [[]]) :
    split sep (join sep pieces) = pieces := by
  by_cases hnil : join sep pieces = []
  · rcases join_eq_nil hnil with rfl | hpieces
    · rfl
    · exact absurd hpieces hone
  · rw [split, if_neg hnil]
    refine List.splitOn_intercalate sep h ?_
    rintro rfl
    exact hnil rfl

theorem split_ne_singleton_nil (sep : Char) (text : Text) : split sep text ≠ [[]] := by
  intro h
  have hjoin := join_split sep text
  rw [h] at hjoin
  rw [← hjoin] at h
  cases h

/-- The characters of a joined text are separators and those of the pieces. -/
theorem mem_join {c : Char} (h : c ∈ join sep pieces) : c = sep ∨ ∃ piece ∈ pieces, c ∈ piece := by
  induction pieces with
  | nil => cases h
  | cons piece rest ih =>
    by_cases hrest : rest = []
    · subst hrest
      rw [join_singleton] at h
      exact .inr ⟨piece, List.mem_cons_self, h⟩
    · rw [join_cons piece hrest, List.mem_append, List.mem_cons] at h
      rcases h with hfirst | hsep | hlater
      · exact .inr ⟨piece, List.mem_cons_self, hfirst⟩
      · exact .inl hsep
      · obtain hsep | ⟨other, hother, hc⟩ := ih hlater
        · exact .inl hsep
        · exact .inr ⟨other, List.mem_cons_of_mem _ hother, hc⟩

theorem mem_join_of_mem {c : Char} {piece : Text} (hpiece : piece ∈ pieces) (hc : c ∈ piece) :
    c ∈ join sep pieces := by
  induction pieces with
  | nil => cases hpiece
  | cons first rest ih =>
    by_cases hrest : rest = []
    · subst hrest
      obtain rfl := List.mem_singleton.mp hpiece
      rwa [join_singleton]
    · rw [join_cons first hrest, List.mem_append, List.mem_cons]
      rcases List.mem_cons.mp hpiece with rfl | hlater
      · exact .inl hc
      · exact .inr (.inr (ih hlater))

/-- Two pieces have a separator between them. -/
theorem sep_mem_join (h : 2 ≤ pieces.length) : sep ∈ join sep pieces := by
  match pieces with
  | first :: next :: later =>
    rw [join_cons first (List.cons_ne_nil _ _)]
    exact List.mem_append_right _ List.mem_cons_self

theorem not_mem_of_mem_splitOn {piece : Text} (h : piece ∈ text.splitOn sep) : sep ∉ piece := by
  induction text generalizing piece with
  | nil =>
    obtain rfl := List.mem_singleton.mp h
    exact List.not_mem_nil
  | cons c rest ih =>
    rw [List.splitOn_cons_eq_if_modifyHead] at h
    split at h
    · rcases List.mem_cons.mp h with rfl | hlater
      · exact List.not_mem_nil
      · exact ih hlater
    · rename_i hc
      obtain ⟨first, others, hsplit⟩ := List.exists_cons_of_ne_nil (List.splitOn_ne_nil sep rest)
      rw [hsplit] at ih h
      rcases List.mem_cons.mp h with rfl | hlater
      · rw [List.mem_cons, not_or]
        exact ⟨fun heq => hc (beq_iff_eq.mpr heq.symm), ih List.mem_cons_self⟩
      · exact ih (List.mem_cons_of_mem _ hlater)

theorem mem_of_mem_split {c : Char} {piece : Text} (hpiece : piece ∈ split sep text)
    (hc : c ∈ piece) : c ∈ text ∧ c ≠ sep := by
  refine ⟨?_, ?_⟩
  · rw [← join_split sep text]
    exact mem_join_of_mem hpiece hc
  · rintro rfl
    unfold split at hpiece
    split at hpiece
    · cases hpiece
    · exact not_mem_of_mem_splitOn hpiece hc

end Pieces

end Bc.Texts
