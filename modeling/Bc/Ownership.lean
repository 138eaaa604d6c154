import Mathlib.Data.List.Nodup
import Mathlib.Data.List.Perm.Basic
import Mathlib.Logic.Equiv.Basic

/-!
Resources that have one owner each. A ledger says what each holder has, which
resources are live, and which have been acquired and given back. A resource moves
from one holder to another, and a holder that goes gives back what it has.
Nothing here knows the program.
-/
namespace Bc.Ownership

variable {ι ρ : Type*}

/-- `stray` are the resources that were given back without being live. -/
structure Ledger (ι ρ : Type*) where
  holds : ι → Option ρ
  live : List ρ
  acquired : List ρ
  released : List ρ
  stray : List ρ

namespace Ledger

variable [DecidableEq ι]

def acquire (l : Ledger ι ρ) (x : ι) (r : ρ) : Ledger ι ρ :=
  { l with
    holds := Function.update l.holds x (some r)
    live := r :: l.live
    acquired := r :: l.acquired }

/-- `x` gets what `y` has. -/
def move (l : Ledger ι ρ) (x y : ι) : Ledger ι ρ :=
  { l with holds := Function.update (Function.update l.holds x (l.holds y)) y none }

def release [DecidableEq ρ] (l : Ledger ι ρ) (x : ι) : Ledger ι ρ :=
  match l.holds x with
  | none => l
  | some r =>
    { l with
      holds := Function.update l.holds x none
      live := l.live.erase r
      released := r :: l.released
      stray := if r ∈ l.live then l.stray else r :: l.stray }

variable {l : Ledger ι ρ} {x y : ι} {r : ρ}

theorem holds_acquire (z : ι) :
    (l.acquire x r).holds z = if z = x then some r else l.holds z :=
  Function.update_apply l.holds x (some r) z

/-- A move into a holder that has nothing swaps the two. -/
theorem holds_move (hx : l.holds x = none) (z : ι) :
    (l.move x y).holds z = l.holds (Equiv.swap x y z) := by
  have hupdate : (l.move x y).holds z =
      Function.update (Function.update l.holds x (l.holds y)) y none z := rfl
  rw [hupdate, Function.update_apply, Function.update_apply, Equiv.swap_apply_def]
  by_cases hzx : z = x
  · subst hzx
    by_cases hzy : z = y
    · subst hzy
      rw [if_pos rfl, if_pos rfl, hx]
    · rw [if_neg hzy, if_pos rfl, if_pos rfl]
  · rw [if_neg hzx, if_neg hzx]
    by_cases hzy : z = y
    · rw [if_pos hzy, if_pos hzy, hx]
    · rw [if_neg hzy, if_neg hzy]

theorem release_none [DecidableEq ρ] (hx : l.holds x = none) : l.release x = l := by
  rw [release, hx]

theorem release_some [DecidableEq ρ] (hx : l.holds x = some r) (hr : r ∈ l.live) :
    l.release x =
      { l with
        holds := Function.update l.holds x none
        live := l.live.erase r
        released := r :: l.released } := by
  rw [release, hx]
  simp only [hr, if_true]

theorem release_live_subset [DecidableEq ρ] : (l.release x).live ⊆ l.live := by
  intro r hr
  unfold release at hr
  split at hr
  · exact hr
  · exact List.mem_of_mem_erase hr

end Ledger

/-- Every live resource has one holder and nothing else is held; what has been
acquired is live or has been given back once. -/
structure Sound (l : Ledger ι ρ) : Prop where
  live_of_holds : ∀ x r, l.holds x = some r → r ∈ l.live
  sole : ∀ x y r, l.holds x = some r → l.holds y = some r → x = y
  held : ∀ r ∈ l.live, ∃ x, l.holds x = some r
  nodup : l.live.Nodup
  once : l.acquired.Perm (l.released ++ l.live)
  no_stray : l.stray = []

section Rules

variable {l : Ledger ι ρ} {x y : ι} {r : ρ}

theorem Sound.acquire [DecidableEq ι] (h : Sound l) (hx : l.holds x = none) (hr : r ∉ l.live) :
    Sound (l.acquire x r) where
  live_of_holds := by
    intro z q hz
    rw [Ledger.holds_acquire] at hz
    split at hz
    · obtain rfl := Option.some.inj hz
      exact List.mem_cons_self
    · exact List.mem_cons_of_mem _ (h.live_of_holds z q hz)
  sole := by
    intro z w q hz hw
    rw [Ledger.holds_acquire] at hz hw
    split at hz
    · rename_i hzx
      split at hw
      · rename_i hwx
        rw [hzx, hwx]
      · obtain rfl := Option.some.inj hz
        exact absurd (h.live_of_holds w r hw) hr
    · split at hw
      · obtain rfl := Option.some.inj hw
        exact absurd (h.live_of_holds z r hz) hr
      · exact h.sole z w q hz hw
  held := by
    intro q hq
    rcases List.mem_cons.mp hq with rfl | hold
    · exact ⟨x, by rw [Ledger.holds_acquire, if_pos rfl]⟩
    · obtain ⟨z, hz⟩ := h.held q hold
      have hzx : z ≠ x := by
        rintro rfl
        rw [hx] at hz
        cases hz
      exact ⟨z, by rw [Ledger.holds_acquire, if_neg hzx, hz]⟩
  nodup := List.nodup_cons.mpr ⟨hr, h.nodup⟩
  once := (h.once.cons r).trans List.perm_middle.symm
  no_stray := h.no_stray

theorem Sound.move [DecidableEq ι] (h : Sound l) (hx : l.holds x = none) : Sound (l.move x y) where
  live_of_holds := by
    intro z q hz
    rw [Ledger.holds_move hx] at hz
    exact h.live_of_holds _ q hz
  sole := by
    intro z w q hz hw
    rw [Ledger.holds_move hx] at hz hw
    exact (Equiv.swap x y).injective (h.sole _ _ q hz hw)
  held := by
    intro q hq
    obtain ⟨z, hz⟩ := h.held q hq
    refine ⟨Equiv.swap x y z, ?_⟩
    rw [Ledger.holds_move hx, Equiv.swap_apply_self, hz]
  nodup := h.nodup
  once := h.once
  no_stray := h.no_stray

theorem Sound.release [DecidableEq ι] [DecidableEq ρ] (h : Sound l) : Sound (l.release x) := by
  cases hx : l.holds x with
  | none => rwa [Ledger.release_none hx]
  | some r =>
    have hr := h.live_of_holds x r hx
    -- The other holders have other resources.
    have hothers : ∀ z q, Function.update l.holds x none z = some q →
        l.holds z = some q ∧ q ≠ r := by
      intro z q hz
      rw [Function.update_apply] at hz
      split at hz
      · cases hz
      · rename_i hzx
        refine ⟨hz, ?_⟩
        rintro rfl
        exact hzx (h.sole z x q hz hx)
    rw [Ledger.release_some hx hr]
    constructor
    · intro z q hz
      obtain ⟨hold, hqr⟩ := hothers z q hz
      exact (List.mem_erase_of_ne hqr).mpr (h.live_of_holds z q hold)
    · intro z w q hz hw
      exact h.sole z w q (hothers z q hz).1 (hothers w q hw).1
    · intro q hq
      obtain ⟨hqr, hold⟩ := h.nodup.mem_erase_iff.mp hq
      obtain ⟨z, hz⟩ := h.held q hold
      have hzx : z ≠ x := by
        rintro rfl
        exact hqr (Option.some.inj (hz.symm.trans hx))
      exact ⟨z, (Function.update_of_ne hzx none l.holds).trans hz⟩
    · exact h.nodup.erase r
    · calc l.acquired.Perm (l.released ++ l.live) := h.once
        _ |>.Perm (l.released ++ r :: l.live.erase r) := (List.perm_cons_erase hr).append_left _
        _ |>.Perm (r :: (l.released ++ l.live.erase r)) := List.perm_middle
    · exact h.no_stray

/-- Once nothing is held, everything that was acquired has been given back. -/
theorem Sound.all_released (h : Sound l) (hnone : ∀ x, l.holds x = none) :
    l.acquired.Perm l.released := by
  have hlive : l.live = [] := by
    rw [List.eq_nil_iff_forall_not_mem]
    intro r hr
    obtain ⟨x, hx⟩ := h.held r hr
    rw [hnone x] at hx
    cases hx
  simpa only [hlive, List.append_nil] using h.once

end Rules

end Bc.Ownership
