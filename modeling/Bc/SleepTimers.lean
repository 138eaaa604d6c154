import Bc.EventLoop

/-!
Coroutines that sleep. The event loop runs beside a clock that does not go back:
a sleep reads it once for its deadline and once to see whether that has passed,
and the loop over the expired timers reads it before each of them. A timer that
is posted while the loop drains the queue is not due yet, so it cannot get in
front of one that has been resumed.
-/
namespace Bc.SleepTimers

open Scheduling EventLoop

/-- `clock` is the last reading. The timers that have been posted and, with the
readings at which they were found to have expired, those that have been resumed
are recorded in their order. -/
structure Sleeper where
  loop : EventLoop.State
  clock : Time
  posted : List TimeNode
  resumed : List (Time × TimeNode)

def start (clock : Time) : Sleeper := ⟨EventLoop.init, clock, [], []⟩

/-- In `sleep` running code awaits an `async_sleep` of `period` that was made at
the reading `created` and is found to be ready or not at `checked`. -/
inductive Act
  | sleep (period created checked : Time) (coro : Frame)
  | loop (a : EventLoop.Act)
  deriving DecidableEq

def reading : EventLoop.Act → Option Time
  | .expire now _ => some now
  | .wait now _ => some now
  | _ => none

/-- The timer that a step has taken out of the queue to resume it. -/
def drawn (a : EventLoop.Act) (pc : Pc) : List (Time × TimeNode) :=
  match a with
  | .expire now _ => (poppedTimer pc).map fun node => (now, node)
  | _ => []

def isPostTimer : EventLoop.Act → Bool
  | .postTimer _ _ => true
  | _ => false

/-- Timers are posted by sleeps only. -/
def step (s : Sleeper) : Act → Option Sleeper
  | .sleep period created checked coro =>
    if s.loop.pc.running ∧ created ≤ checked ∧ s.clock ≤ checked then
      let tp := created + period
      if tp ≤ checked then some { s with clock := checked }
      else
        (EventLoop.step s.loop (.postTimer tp coro)).map fun loop =>
          { s with loop := loop, clock := checked, posted := s.posted ++ [⟨tp, coro⟩] }
    else none
  | .loop a =>
    let now := (reading a).getD s.clock
    if isPostTimer a = false ∧ s.clock ≤ now then
      (EventLoop.step s.loop a).map fun loop =>
        { s with loop := loop, clock := now, resumed := s.resumed ++ drawn a loop.pc }
    else none

section Steps

/-- What a step of the event loop does to the timers when it posts none. -/
inductive Timers (s s' : EventLoop.State) (a : EventLoop.Act) : Prop
  | kept (htimers : s'.sched.timeNodes = s.sched.timeNodes) (hdrawn : drawn a s'.pc = [])
  | popped (now : Time) (top : ℕ) (node : TimeNode) (hact : a = .expire now top)
      (hperm : (s'.sched.timeNodes ++ [node]).Perm s.sched.timeNodes)
      (hleast : ∀ other ∈ s.sched.timeNodes, node.time ≤ other.time) (hdue : node.time ≤ now)
      (hdrawn : drawn a s'.pc = [(now, node)])

theorem timers_of_step {s s' : EventLoop.State} {a : EventLoop.Act} (ha : isPostTimer a = false)
    (h : EventLoop.step s a = some s') : Timers s s' a := by
  cases step_cases h with
  | postTimer => cases ha
  | postCoro fd e frame next sched hrun hposted => exact .kept hposted.timeNodes rfl
  | expireNone now top expired hpc hlater =>
    refine .kept rfl ?_
    dsimp only [drawn]
    split <;> rfl
  | expirePop now top expired node hpc hget hleast hdue =>
    refine .popped now top node rfl ?_ hleast hdue rfl
    obtain ⟨hlt, rfl⟩ := List.getElem?_eq_some_iff.mp hget
    exact List.perm_append_comm.trans (List.getElem_cons_eraseIdx_perm hlt)
  | turnEnd d sched hpc hrest hback => exact .kept hback.timeNodes rfl
  | openSocket | closeSocket | timerResumed | callReady | callRefused | run | testStop | testGo
  | waitPoll | waitSleep | takeEnd | takeEntry | turnCall | turnPass => exact .kept rfl rfl

inductive Step (s : Sleeper) : Act → Sleeper → Prop
  | ready (period created checked : Time) (coro : Frame) (hclock : s.clock ≤ checked) :
      Step s (.sleep period created checked coro) { s with clock := checked }
  | sleep (period created checked : Time) (coro : Frame) (loop : EventLoop.State)
      (hclock : s.clock ≤ checked) (hlater : checked < created + period)
      (htimers : loop.sched.timeNodes = s.loop.sched.timeNodes ++ [⟨created + period, coro⟩]) :
      Step s (.sleep period created checked coro)
        { s with
          loop := loop
          clock := checked
          posted := s.posted ++ [⟨created + period, coro⟩] }
  | loop (a : EventLoop.Act) (now : Time) (loop : EventLoop.State)
      (hnow : now = (reading a).getD s.clock) (hclock : s.clock ≤ now)
      (htimers : Timers s.loop loop a) :
      Step s (.loop a)
        { s with loop := loop, clock := now, resumed := s.resumed ++ drawn a loop.pc }

theorem sleeper_cases {s s' : Sleeper} {a : Act} (h : step s a = some s') : Step s a s' := by
  cases a with
  | sleep period created checked coro =>
    obtain ⟨⟨-, -, hclock⟩, hrest⟩ := Option.ite_none_right_eq_some.mp h
    split at hrest
    · obtain rfl := Option.some.inj hrest
      exact .ready period created checked coro hclock
    · rename_i hlater
      obtain ⟨loop, hloop, rfl⟩ := Option.map_eq_some_iff.mp hrest
      exact .sleep period created checked coro loop hclock (not_le.mp hlater)
        (step_postTimer hloop).2
  | loop a =>
    obtain ⟨⟨hpost, hclock⟩, hrest⟩ := Option.ite_none_right_eq_some.mp h
    obtain ⟨loop, hloop, rfl⟩ := Option.map_eq_some_iff.mp hrest
    exact .loop a _ loop rfl hclock (timers_of_step hpost hloop)

end Steps

section Runs

/-- Every queued timer comes after every timer that has been resumed, and the
clock has passed all of these. -/
structure Ordered (s : Sleeper) : Prop where
  accounted : s.posted.Perm (s.loop.sched.timeNodes ++ s.resumed.map Prod.snd)
  due : ∀ r ∈ s.resumed, r.2.time ≤ r.1
  ascending : (s.resumed.map fun r => r.2.time).Pairwise (· ≤ ·)
  queued_after : ∀ r ∈ s.resumed, ∀ node ∈ s.loop.sched.timeNodes, r.2.time ≤ node.time
  passed : ∀ r ∈ s.resumed, r.2.time ≤ s.clock

theorem start_ordered (clock : Time) : Ordered (start clock) where
  accounted := List.Perm.refl _
  due := List.forall_mem_nil _
  ascending := List.Pairwise.nil
  queued_after := List.forall_mem_nil _
  passed := List.forall_mem_nil _

theorem step_ordered {s s' : Sleeper} {a : Act} (hs : Ordered s) (h : step s a = some s') :
    Ordered s' := by
  cases sleeper_cases h with
  | ready period created checked coro hclock =>
    exact { hs with passed := fun r hr => (hs.passed r hr).trans hclock }
  | sleep period created checked coro loop hclock hlater htimers =>
    refine ⟨?_, hs.due, hs.ascending, ?_, fun r hr => (hs.passed r hr).trans hclock⟩
    · simp only [htimers, List.append_assoc]
      refine (hs.accounted.append_right _).trans ?_
      rw [List.append_assoc]
      exact List.perm_append_comm.append_left _
    · intro r hr node hnode
      rw [htimers] at hnode
      rcases List.mem_append.mp hnode with hold | hnew
      · exact hs.queued_after r hr node hold
      · obtain rfl := List.mem_singleton.mp hnew
        -- A new deadline lies behind the reading that found it not to have passed.
        exact ((hs.passed r hr).trans hclock).trans hlater.le
  | loop a now loop hnow hclock htimers =>
    cases htimers with
    | kept htimers hdrawn =>
      rw [hdrawn, List.append_nil]
      refine ⟨?_, hs.due, hs.ascending, ?_, fun r hr => (hs.passed r hr).trans hclock⟩
      · simp only [htimers]
        exact hs.accounted
      · simp only [htimers]
        exact hs.queued_after
    | popped now' top node hact hperm hleast hdue hdrawn =>
      subst hact
      obtain rfl : now = now' := hnow
      have hmem : node ∈ s.loop.sched.timeNodes :=
        hperm.subset (List.mem_append_right _ List.mem_cons_self)
      have hleft : ∀ other ∈ loop.sched.timeNodes, other ∈ s.loop.sched.timeNodes :=
        fun other hother => hperm.subset (List.mem_append_left _ hother)
      have hlast : ∀ r ∈ s.resumed, r.2.time ≤ node.time := fun r hr =>
        hs.queued_after r hr node hmem
      rw [hdrawn]
      refine ⟨?_, ?_, ?_, ?_, ?_⟩
      · refine hs.accounted.trans ?_
        simp only [List.map_append, List.map_cons, List.map_nil]
        refine (hperm.symm.append_right _).trans ?_
        rw [List.append_assoc]
        exact List.perm_append_comm.append_left _
      · exact List.forall_mem_append.mpr ⟨hs.due, List.forall_mem_singleton.mpr hdue⟩
      · rw [List.map_append, List.pairwise_append]
        refine ⟨hs.ascending, List.pairwise_singleton _ _, ?_⟩
        intro time htime last hnew
        obtain ⟨r, hr, rfl⟩ := List.mem_map.mp htime
        obtain rfl := List.mem_singleton.mp hnew
        exact hlast r hr
      · refine List.forall_mem_append.mpr ⟨fun r hr other hother => ?_, ?_⟩
        · exact hs.queued_after r hr other (hleft other hother)
        · exact List.forall_mem_singleton.mpr fun other hother => hleast other (hleft other hother)
      · refine List.forall_mem_append.mpr ⟨fun r hr => (hs.passed r hr).trans hclock, ?_⟩
        exact List.forall_mem_singleton.mpr hdue

/-- Every timer that has been posted is queued or has been resumed once, not
before its deadline, and the deadlines come in order. -/
theorem sleepers_resumed_in_order {clock : Time} {acts : List Act} {s : Sleeper}
    (h : Runs.exec step (start clock) acts = some s) :
    s.posted.Perm (s.loop.sched.timeNodes ++ s.resumed.map Prod.snd) ∧
      (∀ r ∈ s.resumed, r.2.time ≤ r.1) ∧
      (s.resumed.map fun r => r.2.time).Pairwise (· ≤ ·) := by
  have hs := Runs.exec_preserves (fun _ _ _ => step_ordered) (start_ordered clock) h
  exact ⟨hs.accounted, hs.due, hs.ascending⟩

/-- Two coroutines sleep; the one that is resumed sleeps again in the middle of
the loop and is overtaken by the other. -/
def sampleRun : List Act :=
  [.sleep 10 0 1 0, .sleep 30 2 3 1, .loop .run, .loop .test, .loop (.expire 12 0),
    .sleep 20 13 14 0, .loop (.resumed true), .loop (.expire 40 0), .loop (.resumed true),
    .loop (.expire 41 0)]

theorem sleepers_resumed_in_order_sample : ∃ s, Runs.exec step (start 0) sampleRun = some s ∧
    (s.resumed.map fun r => r.2.time) = [10, 32, 33] ∧
      (s.resumed.map fun r => r.2.time).Pairwise (· ≤ ·) := by
  have hrun : ((Runs.exec step (start 0) sampleRun).map fun s => s.resumed.map fun r => r.2.time) =
      some [10, 32, 33] := by decide
  obtain ⟨s, hs, htimes⟩ := Option.map_eq_some_iff.mp hrun
  exact ⟨s, hs, htimes, (sleepers_resumed_in_order hs).2.2⟩

end Runs

end Bc.SleepTimers
