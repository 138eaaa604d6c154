import Bc.WaiterCount
import Mathlib.Tactic.Linarith

/-!
How long an iteration of `run` waits. The clock is read for the expired timers and
once more for the period, and the period may be over by then; `poll` gives it to
`epoll_wait` in whole milliseconds.
-/
namespace Bc.WaitBounds

open Polling Scheduling EventLoop WaiterCount

/-- What an iteration does when no timer has expired. A poll that is skipped has its
timeout rounded to a negative number of milliseconds. -/
inductive Wait
  | poll (milliseconds : ℤ)
  | skipped
  | sleep (duration : Time)
  deriving DecidableEq

/-- The `size_t` that `coro_count_` is. -/
def coroCountWord (s : Scheduler) : ℕ := (s.coroCount % 2 ^ 64).toNat

/-- The end of `run`'s loop with the head of `poll`. -/
def wait (now : Time) (s : Scheduler) : Wait :=
  if s.timeNodes.length < coroCountWord s then
    if timeout (period now s) < 0 then .skipped else .poll (timeout (period now s))
  else .sleep (period now s)

/-- When the wait is over if nothing else happens. A sleep for a negative time ends at
once. -/
def Wait.plannedEnd (now : Time) : Wait → Time
  | .poll milliseconds => now + milliseconds * 1000000
  | .skipped => now
  | .sleep duration => now + max duration 0

/-- `epoll_wait` blocks for ever on a negative timeout. -/
structure Bounded (now : Time) (s : Scheduler) (w : Wait) : Prop where
  timeout : ∀ milliseconds, w = .poll milliseconds → 0 ≤ milliseconds ∧ milliseconds ≤ 1000
  duration : ∀ duration, w = .sleep duration → duration ≤ sPeriod
  in_time : ∀ time, earliest s = some time → now ≤ time → w.plannedEnd now ≤ time

section Periods

variable {now before time : Time} {s : Scheduler}

/-- The ways in which the period is chosen. -/
theorem period_cases (now : Time) (s : Scheduler) :
    (period now s = sPeriod ∧ ∀ time, earliest s = some time → now + sPeriod < time) ∨
      ∃ time, earliest s = some time ∧ period now s = time - now ∧ time ≤ now + sPeriod := by
  unfold period
  cases h : earliest s with
  | none => exact .inl ⟨rfl, nofun⟩
  | some time =>
    by_cases hsoon : time ≤ now + sPeriod
    · exact .inr ⟨time, rfl, if_pos hsoon, hsoon⟩
    · refine .inl ⟨if_neg hsoon, fun other hother => ?_⟩
      obtain rfl := Option.some.inj hother
      exact lt_of_not_ge hsoon

theorem period_le (now : Time) (s : Scheduler) : period now s ≤ sPeriod := by
  rcases period_cases now s with ⟨h, -⟩ | ⟨time, -, h, hsoon⟩
  · exact h.le
  · rw [h]
    linarith

theorem period_in_time (hearliest : earliest s = some time) : now + period now s ≤ time := by
  rcases period_cases now s with ⟨h, hlater⟩ | ⟨other, hother, h, -⟩
  · rw [h]
    exact (hlater time hearliest).le
  · obtain rfl := Option.some.inj (hearliest.symm.trans hother)
    linarith

theorem period_range (hbefore : ∀ node ∈ s.timeNodes, before < node.time)
    (hle : before ≤ now) : before - now < period now s := by
  rcases period_cases now s with ⟨h, -⟩ | ⟨time, hearliest, h, -⟩
  · rw [h, sPeriod]
    linarith
  · obtain ⟨node, hnode, rfl⟩ := List.mem_map.mp (List.min?_mem hearliest)
    rw [h]
    have hlater := hbefore node hnode
    linarith

/-- The cast to milliseconds rounds towards zero. -/
theorem timeout_mul_le (d : Time) : timeout d * 1000000 ≤ max d 0 := by
  unfold timeout
  rcases le_or_gt 0 d with hd | hd
  · have h := Int.tdiv_mul_le d (b := 1000000) (by decide)
    rw [if_pos hd] at h
    exact (h.trans (Int.add_zero d).le).trans (le_max_left d 0)
  · have hneg : d.tdiv 1000000 ≤ Int.tdiv 0 1000000 := Int.tdiv_le_tdiv (by decide) hd.le
    rw [Int.zero_tdiv] at hneg
    exact (Int.mul_nonpos_of_nonpos_of_nonneg hneg (by decide)).trans (le_max_right d 0)

theorem timeout_le {d : Time} (h : d ≤ sPeriod) : timeout d ≤ 1000 :=
  Int.tdiv_le_tdiv (by decide) h

/-- No wait is planned to last longer than the period. -/
theorem plannedEnd_le (now : Time) (s : Scheduler) :
    (wait now s).plannedEnd now ≤ now + max (period now s) 0 := by
  have hpositive := le_max_right (period now s) 0
  unfold wait
  split_ifs
  · exact le_add_of_nonneg_right hpositive
  · exact Int.add_le_add_left (timeout_mul_le (period now s)) now
  · exact le_rfl

end Periods

/-- The wait of an iteration is neither for ever nor for more than a second, and it is
not planned to end behind a deadline that is still to come. -/
theorem wait_bounded (now : Time) (s : Scheduler) : Bounded now s (wait now s) where
  timeout := fun milliseconds h => by
    unfold wait at h
    split_ifs at h with hmore hnegative
    obtain rfl := Wait.poll.inj h
    exact ⟨not_lt.mp hnegative, timeout_le (period_le now s)⟩
  duration := fun duration h => by
    unfold wait at h
    split_ifs at h
    obtain rfl := Wait.sleep.inj h
    exact period_le now s
  in_time := fun time hearliest hnow => by
    refine (plannedEnd_le now s).trans ?_
    rcases max_choice (period now s) 0 with h | h
    · rw [h]
      exact period_in_time hearliest
    · rw [h, add_zero]
      exact hnow

section Iterations

variable {s s' : State} {now before : Time} {top : ℕ} {batch : List (ℕ × Event)}

/-- The deadlines that are left by the test for expired timers are behind its reading of
the clock, so nothing that the period is computed from leaves the clock's 64 bits. -/
theorem iteration_range (h : s.handleExpired before top = some s') (hidle : s'.pc = .idle)
    (hle : before ≤ now) : before - now < period now s'.sched := by
  cases handleExpired_cases h with
  | expireNone _ _ expired hpc hlater => exact period_range hlater hle
  | expirePop _ _ expired node hpc hget hleast hdue => cases hidle

theorem coroCountWord_eq {s : Scheduler} (hnonneg : 0 ≤ s.coroCount)
    (hfits : s.coroCount < 2 ^ 64) : (coroCountWord s : ℤ) = s.coroCount := by
  rw [coroCountWord, Int.emod_eq_of_lt hnonneg hfits, Int.toNat_of_nonneg hnonneg]

/-- The scheduler's step behind the expired timers makes this wait. -/
theorem await_eq {acts : List Act} (h : Runs.exec step init acts = some s) (hpc : s.pc = .idle)
    (hfits : s.sched.coroCount < 2 ^ 64) :
    s.await now batch =
      match wait now s.sched with
      | .poll _ =>
        if batch.length ≤ s.sched.poller.evs.length then
          some { s with
            pc := .batch s.sched.poller.evs.length
              (batch.map fun (fd, e) => ⟨fd, e, s.socks fd⟩) }
        else none
      | _ => if batch.isEmpty then some { s with pc := .head } else none := by
  have hnonneg : 0 ≤ s.sched.coroCount := by
    have hbalanced := run_balanced h
    unfold WaiterCount.Balanced at hbalanced
    omega
  have hcount : s.sched.timeNodes.length < coroCountWord s.sched ↔
      (s.sched.timeNodes.length : ℤ) < s.sched.coroCount := by
    rw [← coroCountWord_eq hnonneg hfits, Nat.cast_lt]
  unfold State.await wait
  rw [hpc]
  simp only [hcount]
  by_cases hmore : s.sched.timeNodes.length < s.sched.coroCount
  · by_cases hnegative : timeout (period now s.sched) < 0
    · simp [hmore, hnegative]
    · simp [hmore, hnegative, not_lt.mp hnegative]
  · simp [hmore]

end Iterations

end Bc.WaitBounds
