import Bc.EventLoop

/-!
`coro_count_` counts what the scheduler still has to resume. Posts add to it
while other code runs and decrements come after the resumption, on two paths,
so the balance includes what the scheduler holds in its hands.
-/
namespace Bc.WaiterCount

open Cxx Polling Scheduling EraseLoop Dispatch EventLoop

/-- The waiters that are in neither queue: the timer being resumed, or the
handler's local list with the waiter being resumed in it. -/
def inHand : Pc → ℕ
  | .timer _ _ => 1
  | .scan d => d.cursor.list.length
  | .call d => d.cursor.list.length
  | _ => 0

def Balanced (s : State) : Prop :=
  s.sched.coroCount = s.sched.timeNodes.length + s.sched.allNodes.length + inHand s.pc

theorem init_balanced : Balanced init := by
  simp [Balanced, init, Scheduler.empty, Scheduler.allNodes, inHand]

/-- Code that runs leaves the scheduler where it is, so `inHand` stays. -/
theorem step_balanced {s s' : State} {a : Act} (hs : Balanced s) (h : step s a = some s') :
    Balanced s' := by
  unfold Balanced at hs ⊢
  cases step_cases h with
  | postTimer tp coro hrun =>
    simp only [Scheduler.postTimer, Scheduler.allNodes, List.length_append, List.length_cons,
      List.length_nil] at hs ⊢
    omega
  | postCoro fd e frame next sched hrun hposted =>
    have hlen := hposted.allNodes.length_eq
    simp only [hposted.coroCount, hposted.timeNodes, hlen, List.length_append, List.length_cons,
      List.length_nil]
    omega
  | openSocket fd hrun hpos hfree => exact hs
  | closeSocket fd poller hrun hopen hsub => exact hs
  | timerResumed answer expired node hpc =>
    simp only [hpc, inHand] at hs
    simp only [Scheduler.release, Scheduler.allNodes, inHand] at hs ⊢
    omega
  | callReady answer d node rest hpc hrest hready =>
    simp only [hpc, inHand, Cursor.list, hrest, List.length_append, List.length_cons] at hs
    simp only [Scheduler.release, Scheduler.allNodes, inHand, Cursor.list, List.length_append]
      at hs ⊢
    omega
  | callRefused d node rest hpc hrest hproxy =>
    simpa only [hpc, inHand] using hs
  | run hpc => simpa only [hpc, inHand] using hs
  | testStop hpc hcount => simpa only [hpc, inHand] using hs
  | testGo hpc hcount => simpa only [hpc, inHand] using hs
  | expireNone now top expired hpc hlater =>
    simp only [hpc, inHand] at hs
    split <;> exact hs
  | expirePop now top expired node hpc hget hleast hdue =>
    obtain ⟨hlt, -⟩ := List.getElem?_eq_some_iff.mp hget
    simp only [hpc, inHand] at hs
    simp only [Scheduler.allNodes, inHand, List.length_eraseIdx_of_lt hlt] at hs ⊢
    omega
  | waitPoll now batch hpc hmore htimeout hfits => simpa only [hpc, inHand] using hs
  | waitSleep now hpc hnone => simpa only [hpc, inHand] using hs
  | takeEnd size hpc => simpa only [hpc, inHand] using hs
  | takeEntry size entry later hpc hvalid hslot =>
    have hlen := (Scheduler.allNodes_setNodes hslot []).length_eq
    simp only [List.append_nil, List.length_append] at hlen
    simp only [hpc, inHand] at hs
    simp only [inHand, Cursor.list, List.nil_append]
    simp only [Scheduler.setNodes] at hlen ⊢
    omega
  | turnEnd d sched hpc hrest hback =>
    have hlen := hback.allNodes.length_eq
    simp only [List.length_append] at hlen
    simp only [hpc, inHand, Cursor.list, hrest, List.append_nil] at hs
    simp only [inHand, hback.coroCount, hback.timeNodes, hlen]
    omega
  | turnCall d node rest hpc hrest htriggers =>
    simpa only [hpc, inHand, writeRevent_sched] using hs
  | turnPass d node rest hpc hrest htriggers =>
    simp only [hpc, inHand, Cursor.list, hrest, List.length_append, List.length_cons] at hs
    simp only [inHand, Cursor.list, List.length_append, List.length_cons, List.length_nil]
    omega

theorem run_balanced {acts : List Act} {s : State} (h : Runs.exec step init acts = some s) :
    Balanced s :=
  Runs.exec_preserves (fun _ _ _ hs hstep => step_balanced hs hstep) init_balanced h

theorem step_finished {s s' : State} {a : Act} (h : step s a = some s')
    (hpc : s'.pc = .finished) : s'.sched.coroCount = 0 := by
  cases step_cases h with
  | testStop _ hcount => exact hcount
  | postTimer _ _ hrun => simp [show s.pc = .finished from hpc, Pc.running] at hrun
  | postCoro _ _ _ _ _ hrun => simp [show s.pc = .finished from hpc, Pc.running] at hrun
  | openSocket _ hrun => simp [show s.pc = .finished from hpc, Pc.running] at hrun
  | closeSocket _ _ hrun => simp [show s.pc = .finished from hpc, Pc.running] at hrun
  | expireNone =>
    simp only at hpc
    split at hpc <;> cases hpc
  | timerResumed | callReady | callRefused | run | testGo | expirePop | waitPoll | waitSleep
  | takeEnd | takeEntry | turnEnd | turnCall | turnPass => cases hpc

theorem run_finished {acts : List Act} {s : State} (h : Runs.exec step init acts = some s) :
    s.pc = .finished → s.sched.coroCount = 0 :=
  Runs.exec_preserves (I := fun s => s.pc = .finished → s.sched.coroCount = 0)
    (fun _ _ _ _ hstep => step_finished hstep) (fun hpc => by cases hpc) h

/-- When `run` has returned, nothing is left to wait for. -/
theorem run_finished_empty {acts : List Act} {s : State}
    (h : Runs.exec step init acts = some s) (hpc : s.pc = .finished) :
    s.sched.timeNodes = [] ∧ s.sched.allNodes = [] := by
  have hcount := run_balanced h
  have hzero := run_finished h hpc
  simp only [Balanced, hpc, inHand] at hcount
  constructor
  · apply List.eq_nil_of_length_eq_zero
    omega
  · apply List.eq_nil_of_length_eq_zero
    omega

/-- In every state that `run` can reach, also while a coroutine is being
resumed, the count is exact. So it never falls below zero, the difference
that `run` looks at is the number of descriptor waiters, and `run` returns
only when there is nothing left to wait for. -/
theorem coroCount_exact {acts : List Act} {s : State}
    (h : Runs.exec step init acts = some s) :
    s.sched.coroCount = s.sched.timeNodes.length +
        (s.sched.descriptorNodes.map List.length).sum + inHand s.pc ∧
      0 ≤ s.sched.coroCount ∧
      (s.pc = .head ∨ s.pc = .idle → s.sched.coroCount - s.sched.timeNodes.length =
        (s.sched.descriptorNodes.map List.length).sum) ∧
      (s.pc = .finished → s.sched.timeNodes = [] ∧ ∀ fd, s.sched.nodesAt fd = []) := by
  have hcount := run_balanced h
  unfold Balanced at hcount
  rw [Scheduler.allNodes, List.length_flatten] at hcount
  refine ⟨hcount, by omega, ?_, ?_⟩
  · intro hpc
    rcases hpc with hpc | hpc
    · simp only [hpc, inHand] at hcount
      omega
    · simp only [hpc, inHand] at hcount
      omega
  · intro hpc
    obtain ⟨htimers, hall⟩ := run_finished_empty h hpc
    refine ⟨htimers, ?_⟩
    intro fd
    have hsub := s.sched.nodesAt_subset_allNodes fd
    rw [hall] at hsub
    exact List.subset_nil.mp hsub

theorem coroCount_exact_sample : ∃ s, Runs.exec step init sampleRun = some s ∧
    s.pc = .finished ∧ 0 ≤ s.sched.coroCount ∧ s.sched.timeNodes = [] := by
  have hrun : ((Runs.exec step init sampleRun).map fun s => s.pc) = some .finished := by
    decide +kernel
  obtain ⟨s, hs, hpc⟩ := Option.map_eq_some_iff.mp hrun
  obtain ⟨-, hcount, -, hdone⟩ := coroCount_exact hs
  exact ⟨s, hs, hpc, hcount, (hdone hpc).1⟩

end Bc.WaiterCount
