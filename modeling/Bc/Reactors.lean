import Bc.Runs
import Mathlib.Logic.Function.Basic

/-!
Reactors. A wait is posted, and fires once for each time that it was posted, on an
occurrence that it is due on. Nothing is said about the order in which waits fire.
-/
namespace Bc.Reactors

open Runs

inductive Act (ω ο : Type*)
  | post (w : ω)
  | fire (w : ω) (o : ο)
  deriving DecidableEq

variable {ω ο : Type*} [DecidableEq ω]

/-- The state says of each wait how often it is pending. -/
def step (due : ω → ο → Bool) (pending : ω → ℕ) : Act ω ο → Option (ω → ℕ)
  | .post w => some (Function.update pending w (pending w + 1))
  | .fire w o =>
    if 0 < pending w ∧ due w o = true then
      some (Function.update pending w (pending w - 1))
    else none

def posts (w : ω) : List (Act ω ο) → ℕ
  | [] => 0
  | .post x :: rest => (if x = w then 1 else 0) + posts w rest
  | .fire _ _ :: rest => posts w rest

def fires (w : ω) : List (Act ω ο) → ℕ
  | [] => 0
  | .post _ :: rest => fires w rest
  | .fire x _ :: rest => (if x = w then 1 else 0) + fires w rest

variable {due : ω → ο → Bool} {pending pending' : ω → ℕ} {acts : List (Act ω ο)} {w : ω} {o : ο}

theorem exec_post (h : ∀ x, pending' x = pending x + if x = w then 1 else 0) :
    exec (step due) pending [.post w] = some pending' := by
  refine exec_one (congrArg some (funext fun x => ?_))
  rw [h x]
  by_cases hx : x = w
  · simp [hx]
  · simp [hx]

theorem exec_fire (hdue : due w o = true)
    (h : ∀ x, pending x = pending' x + if x = w then 1 else 0) :
    exec (step due) pending [.fire w o] = some pending' := by
  have hw := h w
  rw [if_pos rfl] at hw
  refine exec_one ?_
  rw [step, if_pos ⟨by omega, hdue⟩]
  refine congrArg some (funext fun x => ?_)
  by_cases hx : x = w
  · subst hx
    rw [Function.update_self, hw, Nat.add_sub_cancel]
  · rw [Function.update_of_ne hx, h x, if_neg hx, Nat.add_zero]

/-- A wait that is due fires, and one that was not pending does not. -/
theorem step_fire (h : step due pending (.fire w o) = some pending') :
    due w o = true ∧ ∀ x, pending x = pending' x + if x = w then 1 else 0 := by
  simp only [step, Option.ite_none_right_eq_some, Option.some.injEq] at h
  obtain ⟨⟨hpos, hdue⟩, rfl⟩ := h
  refine ⟨hdue, fun x => ?_⟩
  by_cases hx : x = w
  · subst hx
    rw [Function.update_self, if_pos rfl]
    omega
  · rw [Function.update_of_ne hx, if_neg hx, Nat.add_zero]

/-- What has fired and what is pending is what was posted. -/
theorem run_balanced (h : exec (step due) pending acts = some pending') (w : ω) :
    fires w acts + pending' w = pending w + posts w acts := by
  induction acts generalizing pending with
  | nil =>
    obtain rfl := Option.some.inj h
    simp [fires, posts]
  | cons a rest ih =>
    obtain ⟨u, hu, hrest⟩ := exec_cons_eq_some.mp h
    have hlater := ih hrest
    cases a with
    | post x =>
      obtain rfl := Option.some.inj hu
      by_cases hx : x = w
      · subst hx
        simp only [fires, posts, if_true, Function.update_self] at hlater ⊢
        omega
      · simp only [fires, posts, if_neg hx, Function.update_of_ne (Ne.symm hx)] at hlater ⊢
        omega
    | fire x o =>
      have hfirst := (step_fire hu).2 w
      simp only [fires, posts]
      by_cases hx : x = w
      · simp only [hx, if_true] at hfirst ⊢
        omega
      · simp only [if_neg hx, if_neg (Ne.symm hx)] at hfirst ⊢
        omega

theorem run_due (h : exec (step due) pending acts = some pending') (hfire : .fire w o ∈ acts) :
    due w o = true := by
  induction acts generalizing pending with
  | nil => cases hfire
  | cons a rest ih =>
    obtain ⟨u, hu, hrest⟩ := exec_cons_eq_some.mp h
    rcases List.mem_cons.mp hfire with rfl | hlater
    · exact (step_fire hu).1
    · exact ih hrest hlater

end Bc.Reactors
