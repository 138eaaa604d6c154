import Mathlib.Algebra.Ring.Nat
import Mathlib.Data.List.GetD
import Mathlib.Data.Nat.Log

/-!
Pieces of the language that the modelled code rests on: how a call can end,
the resizing of a vector, and `std::bit_ceil`. Nothing here knows the program.
-/
namespace Bc.Cxx

/-- How a call ends. An exception keeps the state as it is at the throw.
A `fault` is a failed assertion or an index out of range. -/
inductive Outcome (σ : Type*)
  | returned (s : σ)
  | thrown (s : σ)
  | fault
  deriving DecidableEq

namespace Outcome

variable {σ τ : Type*}

/-- What follows a normal return; an exception or a fault skips it. -/
def bind (x : Outcome σ) (f : σ → Outcome σ) : Outcome σ :=
  match x with
  | returned s => f s
  | thrown s => thrown s
  | fault => fault

def map (f : σ → τ) : Outcome σ → Outcome τ
  | returned s => returned (f s)
  | thrown s => thrown (f s)
  | fault => fault

/-- The state a caller sees when the call returned normally. -/
def returned? : Outcome σ → Option σ
  | returned s => some s
  | thrown _ => none
  | fault => none

/-- The state left behind, by a normal return or by an exception. -/
def state? : Outcome σ → Option σ
  | returned s => some s
  | thrown s => some s
  | fault => none

@[simp] theorem returned?_eq_some {x : Outcome σ} {s : σ} :
    x.returned? = some s ↔ x = returned s := by
  cases x <;> simp [returned?]

theorem bind_eq_returned {x : Outcome σ} {f : σ → Outcome σ} {t : σ} :
    x.bind f = returned t ↔ ∃ s, x = returned s ∧ f s = returned t := by
  cases x <;> simp [bind]

theorem map_eq_returned {x : Outcome σ} {f : σ → τ} {t : τ} :
    x.map f = returned t ↔ ∃ s, x = returned s ∧ f s = t := by
  cases x <;> simp [map]

theorem state?_map (x : Outcome σ) (f : σ → τ) : (x.map f).state? = x.state?.map f := by
  cases x <;> rfl

end Outcome

section Vectors

variable {α : Type*}

def resize (n : ℕ) (x : α) (l : List α) : List α :=
  l.take n ++ List.replicate (n - l.length) x

@[simp] theorem length_resize (n : ℕ) (x : α) (l : List α) : (resize n x l).length = n := by
  simp only [resize, List.length_append, List.length_take, List.length_replicate]
  omega

theorem resize_of_le {n : ℕ} {l : List α} (h : l.length ≤ n) (x : α) :
    resize n x l = l ++ List.replicate (n - l.length) x := by
  rw [resize, List.take_of_length_le h]

/-- Reading with the filler as default does not notice a growing resize. -/
theorem getD_resize_of_le {n : ℕ} {l : List α} (h : l.length ≤ n) (x : α) (i : ℕ) :
    (resize n x l).getD i x = l.getD i x := by
  rw [resize_of_le h]
  by_cases hi : i < l.length
  · rw [List.getD_append _ _ _ _ hi]
  · rw [List.getD_append_right _ _ _ _ (by omega),
      List.getD_eq_default l x (by omega)]
    by_cases hi' : i - l.length < n - l.length
    · rw [List.getD_replicate _ hi']
    · rw [List.getD_eq_default _ _ (by simpa using hi')]

end Vectors

def bitCeil (n : ℕ) : ℕ := 2 ^ Nat.clog 2 n

theorem le_bitCeil (n : ℕ) : n ≤ bitCeil n := Nat.le_pow_clog (by omega) n

theorem bitCeil_le_iff (n k : ℕ) : bitCeil n ≤ 2 ^ k ↔ n ≤ 2 ^ k := by
  rw [bitCeil, Nat.pow_le_pow_iff_right (by omega : 1 < 2),
    Nat.clog_le_iff_le_pow (by omega : 1 < 2)]

theorem bitCeil_two_pow (k : ℕ) : bitCeil (2 ^ k) = 2 ^ k := by
  rw [bitCeil, Nat.clog_pow 2 k (by omega)]

/-- Only the powers of two are not below their own ceiling. -/
theorem lt_bitCeil_iff (n : ℕ) : n < bitCeil n ↔ ¬ ∃ k, n = 2 ^ k := by
  constructor
  · intro hlt hpow
    obtain ⟨k, rfl⟩ := hpow
    rw [bitCeil_two_pow] at hlt
    omega
  · intro hnot
    have hne : n ≠ bitCeil n := fun heq => hnot ⟨_, heq⟩
    have hle := le_bitCeil n
    omega

/-- A power of two is below the ceiling of exactly the numbers above it. -/
theorem two_pow_lt_bitCeil_iff (k n : ℕ) : 2 ^ k < bitCeil n ↔ 2 ^ k < n := by
  have h := bitCeil_le_iff n k
  omega

end Bc.Cxx
