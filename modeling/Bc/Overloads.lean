import Mathlib.Data.List.Basic

/-!
Sets of handlers as `overload` puts them together. A call goes to the first handler that
the argument converts to, also where a later one is for just this type. What converts to
what is up to the program's types.
-/
namespace Bc.Overloads

variable {ι : Type*} {V : ι → Type*} {ρ : Type*}

/-- The implicit conversions of a constant lvalue of one type to a constant reference to
another; one that throws yields nothing. To its own type a reference binds without any. -/
structure Conversions (V : ι → Type*) where
  convert : (a b : ι) → Option (V a → Option (V b))
  convert_self : ∀ a, convert a a = some some

namespace Conversions

variable (C : Conversions V)

def Converts (a b : ι) : Prop := (C.convert a b).isSome = true

instance (a b : ι) : Decidable (C.Converts a b) :=
  inferInstanceAs (Decidable (_ = true))

theorem converts_self (a : ι) : C.Converts a a := by
  rw [Converts, C.convert_self]
  rfl

end Conversions

/-- A handler with a parameter that is a constant reference. -/
structure Handler (V : ι → Type*) (ρ : Type*) where
  param : ι
  run : V param → Option ρ

def Handler.apply (C : Conversions V) (f : Handler V ρ) {a : ι} (v : V a) : Option ρ :=
  (C.convert a f.param).bind fun conversion => (conversion v).bind f.run

/-- `select`. A set of handlers has one at least. -/
def select (C : Conversions V) (a : ι) : List (Handler V ρ) → ℕ
  | [] => 0
  | f :: fs =>
    if C.Converts a f.param then 0
    else if 0 < fs.length then 1 + select C a fs
    else 1

/-- The call operator of `overload`. Without a handler there is nothing to throw again. -/
def call (C : Conversions V) (fs : List (Handler V ρ)) {a : ι} (v : V a) : Option ρ :=
  match fs[select C a fs]? with
  | some f => f.apply C v
  | none => none

section Dispatch

variable {C : Conversions V} {a : ι} {f : Handler V ρ} {fs : List (Handler V ρ)}

theorem apply_self (run : V a → Option ρ) (v : V a) :
    (⟨a, run⟩ : Handler V ρ).apply C v = run v := by
  rw [Handler.apply, C.convert_self]
  rfl

theorem select_eq_findIdx (fs : List (Handler V ρ)) :
    select C a fs = fs.findIdx fun f => decide (C.Converts a f.param) := by
  induction fs with
  | nil => rfl
  | cons f fs ih =>
    rw [select, List.findIdx_cons]
    by_cases hf : C.Converts a f.param
    · simp [hf]
    · cases fs with
      | nil => simp [hf]
      | cons g rest => simp [hf, ih, Nat.add_comm]

theorem call_cons_of_converts (h : C.Converts a f.param) (v : V a) :
    call C (f :: fs) v = f.apply C v := by
  rw [call, select, if_pos h]
  rfl

theorem call_cons_of_not_converts (h : ¬C.Converts a f.param) (v : V a) :
    call C (f :: fs) v = call C fs v := by
  rw [call, call, select_eq_findIdx, select_eq_findIdx, List.findIdx_cons]
  simp [h]

/-- Where no type converts to the parameter of an earlier handler, every argument gets to
the handler for its own type. -/
theorem call_own (hfs : fs.Pairwise fun f g => ¬C.Converts g.param f.param)
    {run : V a → Option ρ} (hmem : ⟨a, run⟩ ∈ fs) (v : V a) : call C fs v = run v := by
  induction fs with
  | nil => cases hmem
  | cons f fs ih =>
    obtain ⟨hfirst, hrest⟩ := List.pairwise_cons.mp hfs
    rcases List.mem_cons.mp hmem with rfl | hlater
    · rw [call_cons_of_converts (C.converts_self a), apply_self]
    · rw [call_cons_of_not_converts (hfirst _ hlater)]
      exact ih hrest hlater

end Dispatch

end Bc.Overloads
