import Bc.EventLoop
import Bc.Reactors
import Bc.WaiterCount

/-!
The event loop as a reactor. The waits are timers and waiters on descriptors. What a
run posts and resumes, step by step, is a run of the reactor: nothing is resumed that
was not posted, too early or by an event that does not concern it, or once more than it
was posted; and when `run` returns, everything that was posted has been resumed.
-/
namespace Bc.ReactorLoop

open Polling Scheduling EraseLoop Dispatch EventLoop

inductive Wait
  | timer (node : TimeNode)
  | waiter (fd : ℕ) (node : DescriptorNode)
  deriving DecidableEq

/-- What the scheduler has read from the clock or got from epoll. -/
inductive Occurrence
  | time (now : Time)
  | event (fd : ℕ) (e : Event)
  deriving DecidableEq

def due : Wait → Occurrence → Bool
  | .timer node, .time now => node.time ≤ now
  | .waiter fd node, .event k e => fd = k && triggers e node
  | _, _ => false

abbrev Shown := Reactors.Act Wait Occurrence

/-- The handler's local list. A waiter that is a handle has left it when it is
resumed, a proxy when it has answered that it is ready. -/
def heldOn (pc : Pc) (fd : ℕ) : List DescriptorNode :=
  match pc with
  | .scan d => if d.entry.fd = fd then d.cursor.list else []
  | .call d =>
    if d.entry.fd = fd then
      d.cursor.kept ++ ((d.cursor.rest.take 1).filter fun node => !node.next.isHandle) ++
        d.cursor.rest.drop 1
    else []
  | _ => []

/-- What is pending. -/
def view (s : State) : Wait → ℕ
  | .timer node => s.sched.timeNodes.count node
  | .waiter fd node => (s.sched.nodesAt fd ++ heldOn s.pc fd).count node

/-- The timer that has been taken out. -/
def expires (now : Time) (pc : Pc) : List Shown :=
  (poppedTimer pc).map fun node => .fire (.timer node) (.time now)

/-- The waiter that is being called, if it is a handle or if it is a proxy. -/
def resumes (handle : Bool) : Pc → List Shown
  | .call d => ((d.cursor.rest.take 1).filter fun node => node.next.isHandle = handle).map
      fun node => .fire (.waiter d.entry.fd node) (.event d.entry.fd d.entry.events)
  | _ => []

/-- What a step posts or resumes. -/
def shows (s : State) : Act → List Shown
  | .postTimer tp coro => [.post (.timer ⟨tp, coro⟩)]
  | .postCoro fd e frame next => [.post (.waiter fd ⟨e, ⟨frame, s.socks fd⟩, next⟩)]
  | .expire now top => (step s (.expire now top)).elim [] fun s' => expires now s'.pc
  | .turn => (step s .turn).elim [] fun s' => resumes true s'.pc
  | .resumed true => resumes false s.pc
  | _ => []

section Steps

variable {s s' : State} {a : Act}

/-- Nothing is pending that was not, and everything that was. -/
theorem view_eq (htime : s'.sched.timeNodes = s.sched.timeNodes)
    (hnodes : ∀ fd, (s'.sched.nodesAt fd ++ heldOn s'.pc fd).Perm
      (s.sched.nodesAt fd ++ heldOn s.pc fd)) : view s' = view s := by
  funext w
  cases w with
  | timer node => rw [view, htime, view]
  | waiter fd node => exact (hnodes fd).count_eq node

theorem exec_nothing {f g : Wait → ℕ} {shown : List Shown} (hshown : shown = []) (h : g = f) :
    Runs.exec (Reactors.step due) f shown = some g := by
  rw [hshown, h]
  rfl

/-- One waiter of a descriptor more. -/
theorem count_waiter {list list' : List DescriptorNode} {k fd : ℕ} {node : DescriptorNode}
    (h : list'.Perm (list ++ if k = fd then [node] else [])) (other : DescriptorNode) :
    list'.count other =
      list.count other + if Wait.waiter fd other = .waiter k node then 1 else 0 := by
  rw [h.count_eq, List.count_append]
  congr 1
  by_cases hfd : k = fd
  · by_cases hother : other = node
    · simp [hfd, hother]
    · simp [hfd, hother, Ne.symm hother]
  · simp [hfd, Ne.symm hfd]

/-- A waiter of the event's descriptor has left. -/
theorem exec_waiter (d : Dispatching) (node : DescriptorNode) {shown : List Shown}
    (hshown : shown = [.fire (.waiter d.entry.fd node) (.event d.entry.fd d.entry.events)])
    (htriggers : triggers d.entry.events node = true)
    (htime : s'.sched.timeNodes = s.sched.timeNodes)
    (hnodes : ∀ fd, (s.sched.nodesAt fd ++ heldOn s.pc fd).Perm
      ((s'.sched.nodesAt fd ++ heldOn s'.pc fd) ++ if d.entry.fd = fd then [node] else [])) :
    Runs.exec (Reactors.step due) (view s) shown = some (view s') := by
  rw [hshown]
  refine Reactors.exec_fire (by simp [due, htriggers]) fun w => ?_
  cases w with
  | timer other => simp [view, htime]
  | waiter fd other => exact count_waiter (hnodes fd) other

theorem perm_of_left (front kept : List DescriptorNode) (node : DescriptorNode)
    (rest : List DescriptorNode) :
    (front ++ (kept ++ node :: rest)).Perm (front ++ (kept ++ rest) ++ [node]) := by
  rw [List.append_assoc]
  refine List.Perm.append_left front ?_
  exact List.perm_middle.trans (List.perm_append_singleton node _).symm

theorem shows_resumed (answer : Bool) (hproxy : resumes false s.pc = []) :
    shows s (.resumed answer) = [] := by
  cases answer with
  | true => exact hproxy
  | false => rfl

theorem step_shows (hs : Called s) (h : step s a = some s') :
    Runs.exec (Reactors.step due) (view s) (shows s a) = some (view s') := by
  cases step_cases h with
  | postTimer tp coro hrun =>
    refine Reactors.exec_post fun w => ?_
    cases w with
    | timer node =>
      by_cases hnode : node = ⟨tp, coro⟩
      · simp [view, Scheduler.postTimer, hnode]
      · simp [view, Scheduler.postTimer, hnode, Ne.symm hnode]
    | waiter fd node => simp [view, Scheduler.postTimer, Scheduler.nodesAt]
  | postCoro fd e frame next sched hrun hposted =>
    refine Reactors.exec_post fun w => ?_
    cases w with
    | timer node => simp [view, hposted.timeNodes]
    | waiter k node =>
      refine count_waiter ?_ node
      change (sched.nodesAt k ++ heldOn s.pc k).Perm _
      rw [hposted.nodesAt k]
      by_cases hk : fd = k
      · subst hk
        rw [if_pos rfl, if_pos rfl, List.append_assoc, List.append_assoc]
        exact List.perm_append_comm.append_left _
      · rw [if_neg (Ne.symm hk), if_neg hk, List.append_nil]
  | openSocket | closeSocket => exact exec_nothing rfl (view_eq rfl fun _ => List.Perm.refl _)
  | timerResumed answer expired node hpc =>
    refine exec_nothing (shows_resumed answer (by simp [resumes, hpc])) (view_eq rfl fun fd => ?_)
    simp [heldOn, hpc, Scheduler.release, Scheduler.nodesAt]
  | callReady answer d node rest hpc hrest hready =>
    cases hhandle : node.next.isHandle with
    | true =>
      -- It has left the list at the call.
      have hshown : resumes false s.pc = [] := by simp [resumes, hpc, hrest, hhandle]
      refine exec_nothing (shows_resumed answer hshown) (view_eq rfl fun fd => ?_)
      simp [heldOn, hpc, hrest, hhandle, Cursor.list, Scheduler.release, Scheduler.nodesAt]
    | false =>
      rw [hhandle, Bool.false_or] at hready
      subst hready
      obtain ⟨first, others, hfirst, htriggers⟩ := hs d hpc
      rw [hrest] at hfirst
      obtain ⟨rfl, rfl⟩ := List.cons.inj hfirst
      refine exec_waiter d node ?_ htriggers rfl fun fd => ?_
      · simp [shows, resumes, hpc, hrest, hhandle]
      · by_cases hfd : d.entry.fd = fd
        · have hleft := perm_of_left (s.sched.nodesAt fd) d.cursor.kept node rest
          simpa [heldOn, hpc, hrest, hhandle, hfd, Cursor.list, Scheduler.release,
            Scheduler.nodesAt] using hleft
        · simp [heldOn, hpc, hfd, Scheduler.release, Scheduler.nodesAt]
  | callRefused d node rest hpc hrest hproxy =>
    refine exec_nothing rfl (view_eq rfl fun fd => ?_)
    simp [heldOn, hpc, hrest, hproxy, Cursor.list]
  | run hpc | testStop hpc | testGo hpc | waitPoll _ _ hpc | waitSleep _ hpc | takeEnd _ hpc =>
    exact exec_nothing rfl (view_eq rfl fun fd => by simp [heldOn, hpc])
  | expireNone now top expired hpc hlater =>
    have hidle : ∀ pc : Pc, pc = .head ∨ pc = .idle →
        expires now pc = [] ∧ ∀ fd, heldOn pc fd = [] := by
      rintro pc (rfl | rfl) <;> exact ⟨rfl, fun _ => rfl⟩
    obtain ⟨hshown, hheld⟩ := hidle (if 0 < expired then .head else .idle) (by split <;> simp)
    refine exec_nothing ?_ (view_eq rfl fun fd => ?_)
    · simpa [shows, h] using hshown
    · rw [hheld fd]
      simp [heldOn, hpc]
  | expirePop now top expired node hpc hget hleast hdue =>
    obtain ⟨hlt, rfl⟩ := List.getElem?_eq_some_iff.mp hget
    have hshown : shows s (.expire now top) =
        [.fire (.timer s.sched.timeNodes[top]) (.time now)] := by
      simp [shows, h, expires, poppedTimer]
    rw [hshown]
    refine Reactors.exec_fire (decide_eq_true hdue) fun w => ?_
    cases w with
    | timer other =>
      have hcount := (List.getElem_cons_eraseIdx_perm hlt).count_eq other
      rw [List.count_cons] at hcount
      by_cases hother : other = s.sched.timeNodes[top]
      · subst hother
        simpa [view] using hcount.symm
      · simpa [view, hother, Ne.symm hother] using hcount.symm
    | waiter fd other => simp [view, heldOn, hpc, Scheduler.nodesAt]
  | takeEntry size entry later hpc hvalid hslot =>
    refine exec_nothing rfl (view_eq rfl fun fd => ?_)
    rw [Scheduler.nodesAt_setNodes hslot]
    by_cases hfd : entry.fd = fd
    · simp [heldOn, hpc, hfd, Cursor.list]
    · simp [heldOn, hpc, hfd, Ne.symm hfd]
  | turnEnd d sched hpc hrest hback =>
    refine exec_nothing ?_ (view_eq hback.timeNodes fun fd => ?_)
    · simp [shows, h, resumes]
    · rw [hback.nodesAt fd]
      by_cases hfd : d.entry.fd = fd
      · simpa [heldOn, hpc, hrest, hfd, Cursor.list] using List.perm_append_comm
      · simp [heldOn, hpc, hfd, Ne.symm hfd]
  | turnCall d node rest hpc hrest htriggers =>
    cases hhandle : node.next.isHandle with
    | true =>
      refine exec_waiter d node ?_ htriggers rfl fun fd => ?_
      · simp [shows, h, resumes, hrest, hhandle]
      · by_cases hfd : d.entry.fd = fd
        · have hleft := perm_of_left (s.sched.nodesAt fd) d.cursor.kept node rest
          simpa [heldOn, hpc, hrest, hhandle, hfd, Cursor.list] using hleft
        · simp [heldOn, hpc, hfd]
    | false =>
      refine exec_nothing ?_ (view_eq rfl fun fd => ?_)
      · simp [shows, h, resumes, hrest, hhandle]
      · simp [heldOn, hpc, hrest, hhandle, Cursor.list]
  | turnPass d node rest hpc hrest htriggers =>
    refine exec_nothing ?_ (view_eq rfl fun fd => ?_)
    · simp [shows, h, resumes]
    · simp [heldOn, hpc, hrest, Cursor.list]

end Steps

theorem view_init : view init = fun _ => 0 := by
  funext w
  cases w <;> rfl

theorem view_finished {acts : List Act} {s : State} (h : Runs.exec step init acts = some s)
    (hpc : s.pc = .finished) (w : Wait) : view s w = 0 := by
  obtain ⟨htimers, hall⟩ := WaiterCount.run_finished_empty h hpc
  cases w with
  | timer node => simp [view, htimers]
  | waiter fd node =>
    have hnodes := s.sched.nodesAt_subset_allNodes fd
    rw [hall] at hnodes
    simp [view, List.subset_nil.mp hnodes, heldOn, hpc]

/-- Every run of the event loop, whatever the resumed code does, is a run of the reactor:
what it resumes was pending, a timer is not resumed before its time and a waiter only by
an event of its own descriptor that meets its mask. At any time a wait has been resumed as
often as it was posted, but for what is still pending; and when `run` has returned,
exactly as often. -/
theorem loop_is_reactor {acts : List Act} {s : State} (h : Runs.exec step init acts = some s) :
    Runs.exec (Reactors.step due) (fun _ => 0) (Runs.trace step shows init acts) =
        some (view s) ∧
      (∀ w o, .fire w o ∈ Runs.trace step shows init acts → due w o = true) ∧
      ∀ w, Reactors.fires w (Runs.trace step shows init acts) + view s w =
          Reactors.posts w (Runs.trace step shows init acts) ∧
        (s.pc = .finished → Reactors.fires w (Runs.trace step shows init acts) =
          Reactors.posts w (Runs.trace step shows init acts)) := by
  have hrun : Runs.exec (Reactors.step due) (fun _ => 0) (Runs.trace step shows init acts) =
      some (view s) := by
    rw [← view_init]
    exact Runs.exec_trace (I := Called) (fun _ _ _ hs hstep => step_called hs hstep)
      (fun _ _ _ hs hstep => step_shows hs hstep) (fun _ hd => by cases hd) h
  refine ⟨hrun, fun w o hfire => Reactors.run_due hrun hfire, fun w => ?_⟩
  have hbalanced := Reactors.run_balanced hrun w
  rw [Nat.zero_add] at hbalanced
  refine ⟨hbalanced, fun hpc => ?_⟩
  rwa [view_finished h hpc w, Nat.add_zero] at hbalanced

/-- The coroutine that has come back as a proxy is resumed once. -/
theorem loop_is_reactor_sample : ∃ s, Runs.exec step init sampleRun = some s ∧
    s.pc = .finished ∧
      Reactors.fires (.waiter 5 ⟨Event.read, ⟨2, some 0⟩, .proxy 2⟩)
        (Runs.trace step shows init sampleRun) = 1 := by
  have hrun : ((Runs.exec step init sampleRun).map fun s => s.pc) = some .finished := by
    decide +kernel
  have hposts : Reactors.posts (.waiter 5 ⟨Event.read, ⟨2, some 0⟩, .proxy 2⟩)
      (Runs.trace step shows init sampleRun) = 1 := by
    decide +kernel
  obtain ⟨s, hs, hpc⟩ := Option.map_eq_some_iff.mp hrun
  exact ⟨s, hs, hpc, (((loop_is_reactor hs).2.2 _).2 hpc).trans hposts⟩

end Bc.ReactorLoop
