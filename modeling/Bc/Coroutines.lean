import Bc.Awaiters
import Bc.WaiterCount

/-!
Programs of coroutines over the event loop. A task starts at once and runs
until it suspends on a timer, a socket or another task; at its end it hands
over to the coroutine that awaits it. Frames are numbered and never reused.
-/
namespace Bc.Coroutines

open Scheduling EventLoop Awaiters

inductive SocketAwaiter
  | accept
  | read
  | write
  | connect
  deriving DecidableEq

namespace SocketAwaiter

def mask : SocketAwaiter → Polling.Event
  | accept => acceptMask
  | read => readMask
  | write => writeMask
  | connect => connectMask

/-- An accept posts a proxy, the others post the coroutine itself. -/
def next (coro : Frame) : SocketAwaiter → Next
  | accept => .proxy coro
  | read => .handle coro
  | write => .handle coro
  | connect => .handle coro

theorem next_frame (awaiter : SocketAwaiter) (coro : Frame) :
    (awaiter.next coro).frame = coro := by
  cases awaiter <;> rfl

end SocketAwaiter

/-- `stack` holds the coroutines that are running, each called by the next;
below them is the scheduler or `main`. A coroutine is `live` until its final
suspension. The last two fields count what has happened so far. -/
structure Runtime where
  loop : EventLoop.State
  stack : List Frame
  live : List Frame
  finished : List Frame
  destroyed : List Frame
  prev : Frame → Option Frame
  suspensions : Frame → ℕ
  resumptions : Frame → ℕ

def start : Runtime :=
  { loop := EventLoop.init
    stack := []
    live := []
    finished := []
    destroyed := []
    prev := fun _ => none
    suspensions := fun _ => 0
    resumptions := fun _ => 0 }

/-- In `awaitSocket`, `awaitTask`, `sleep` and `finish` the coroutine on top of
the stack acts. `leave` returns to the scheduler, and `refuse` is the call of
a proxy that finds nothing to accept. -/
inductive Act
  | start (coro : Frame)
  | sleep (tp : Time)
  | awaitSocket (awaiter : SocketAwaiter) (fd : ℕ)
  | awaitTask (task : Frame)
  | finish
  | destroyTask (task : Frame)
  | openSocket (fd : ℕ)
  | closeSocket (fd : ℕ)
  | leave
  | refuse
  | sched (a : EventLoop.Act)
  deriving DecidableEq

/-- One more for each of `coros`. -/
def tally (count : Frame → ℕ) (coros : List Frame) : Frame → ℕ :=
  fun coro => count coro + coros.count coro

/-- The frames that the queues of the scheduler refer to, when a waiter refers
to `framesOf` it. -/
def queued (framesOf : DescriptorNode → List Frame) (loop : EventLoop.State) : List Frame :=
  loop.sched.timeNodes.map TimeNode.next ++ (waiting loop).flatMap framesOf

/-- The frames that are referred to by what the scheduler is resuming. -/
def resumedAt (framesOf : DescriptorNode → List Frame) (pc : Pc) : List Frame :=
  (poppedTimer pc).map TimeNode.next ++ (calledNode pc).flatMap framesOf

def handleFrame (node : DescriptorNode) : List Frame := [node.next.frame]

/-- The coroutines that the scheduler resumes when it gets to `pc`. -/
def entered (pc : Pc) : List Frame := resumedAt handleFrame pc

namespace Runtime

/-- `main` or a coroutine is running. -/
def Active (s : Runtime) : Prop := s.loop.pc = .main ∨ s.stack ≠ []

instance (s : Runtime) : Decidable s.Active := inferInstanceAs (Decidable (_ ∨ _))

/-- The coroutine on top has posted itself and suspends. -/
def suspend (s : Runtime) (coro : Frame) (below : List Frame) (loop : EventLoop.State) : Runtime :=
  { s with loop := loop, stack := below, suspensions := tally s.suspensions [coro] }

def await (s : Runtime) (task coro : Frame) (below : List Frame) : Runtime :=
  { s with
    prev := Function.update s.prev task (some coro)
    stack := below
    suspensions := tally s.suspensions [coro] }

def finish (s : Runtime) (coro : Frame) (below : List Frame) : Runtime :=
  { s with
    live := s.live.erase coro
    finished := coro :: s.finished
    stack := (s.prev coro).toList ++ below
    resumptions := tally s.resumptions (s.prev coro).toList }

def destroyTask (s : Runtime) (task : Frame) : Runtime :=
  { s with
    live := s.live.erase task
    finished := s.finished.erase task
    destroyed := task :: s.destroyed }

/-- The scheduler has taken a step, and may have resumed a coroutine. -/
def enter (s : Runtime) (loop : EventLoop.State) : Runtime :=
  { s with
    loop := loop
    stack := entered loop.pc
    resumptions := tally s.resumptions (entered loop.pc) }

end Runtime

def step (s : Runtime) : Act → Option Runtime
  | .start coro =>
    if s.Active ∧ coro ∉ s.live ∧ coro ∉ s.finished ∧ coro ∉ s.destroyed then
      some { s with
        stack := coro :: s.stack
        live := coro :: s.live
        prev := Function.update s.prev coro none }
    else none
  | .sleep tp =>
    match s.stack with
    | [] => none
    | coro :: below => (EventLoop.step s.loop (.postTimer tp coro)).map (s.suspend coro below)
  | .awaitSocket awaiter fd =>
    match s.stack with
    | [] => none
    | coro :: below =>
      (EventLoop.step s.loop (.postCoro fd awaiter.mask coro (awaiter.next coro))).map
        (s.suspend coro below)
  | .awaitTask task =>
    match s.stack with
    | [] => none
    | coro :: below =>
      if task ∈ s.finished then some s
      else if task ∈ s.live then some (s.await task coro below)
      else none
  | .finish =>
    match s.stack with
    | [] => none
    | coro :: below => some (s.finish coro below)
  | .destroyTask task =>
    if s.Active ∧ (task ∈ s.live ∨ task ∈ s.finished) then some (s.destroyTask task) else none
  | .openSocket fd =>
    if s.Active then
      (EventLoop.step s.loop (.openSocket fd)).map fun loop => { s with loop := loop }
    else none
  | .closeSocket fd =>
    if s.Active then
      (EventLoop.step s.loop (.closeSocket fd)).map fun loop => { s with loop := loop }
    else none
  | .leave =>
    if s.stack = [] then
      (EventLoop.step s.loop (.resumed true)).map fun loop => { s with loop := loop }
    else none
  | .refuse =>
    if s.stack = [] then
      (EventLoop.step s.loop .turn).bind fun called =>
        if calledNode called.pc ≠ [] ∧
            ∀ node ∈ calledNode called.pc, node.next.isHandle = false then
          (EventLoop.step called (.resumed false)).map fun loop => { s with loop := loop }
        else none
    else none
  | .sched a =>
    if s.stack = [] ∧ a.scheduling = true then (EventLoop.step s.loop a).map s.enter else none

inductive Step (s : Runtime) : Act → Runtime → Prop
  | start (coro : Frame) (hactive : s.Active) (hlive : coro ∉ s.live)
      (hfinished : coro ∉ s.finished) (hdestroyed : coro ∉ s.destroyed) :
      Step s (.start coro)
        { s with
          stack := coro :: s.stack
          live := coro :: s.live
          prev := Function.update s.prev coro none }
  | sleep (tp : Time) (coro : Frame) (below : List Frame) (loop : EventLoop.State)
      (hstack : s.stack = coro :: below)
      (hpost : EventLoop.step s.loop (.postTimer tp coro) = some loop) :
      Step s (.sleep tp) (s.suspend coro below loop)
  | awaitSocket (awaiter : SocketAwaiter) (fd : ℕ) (coro : Frame) (below : List Frame)
      (loop : EventLoop.State) (hstack : s.stack = coro :: below)
      (hpost : EventLoop.step s.loop (.postCoro fd awaiter.mask coro (awaiter.next coro)) =
        some loop) :
      Step s (.awaitSocket awaiter fd) (s.suspend coro below loop)
  | awaitDone (task coro : Frame) (below : List Frame) (hstack : s.stack = coro :: below)
      (hdone : task ∈ s.finished) : Step s (.awaitTask task) s
  | awaitTask (task coro : Frame) (below : List Frame) (hstack : s.stack = coro :: below)
      (hlive : task ∈ s.live) : Step s (.awaitTask task) (s.await task coro below)
  | finish (coro : Frame) (below : List Frame) (hstack : s.stack = coro :: below) :
      Step s .finish (s.finish coro below)
  | destroyTask (task : Frame) (hactive : s.Active) (howned : task ∈ s.live ∨ task ∈ s.finished) :
      Step s (.destroyTask task) (s.destroyTask task)
  | openSocket (fd : ℕ) (loop : EventLoop.State)
      (hopen : EventLoop.step s.loop (.openSocket fd) = some loop) :
      Step s (.openSocket fd) { s with loop := loop }
  | closeSocket (fd : ℕ) (loop : EventLoop.State)
      (hclose : EventLoop.step s.loop (.closeSocket fd) = some loop) :
      Step s (.closeSocket fd) { s with loop := loop }
  | leave (loop : EventLoop.State) (hstack : s.stack = [])
      (hleave : EventLoop.step s.loop (.resumed true) = some loop) :
      Step s .leave { s with loop := loop }
  | refuse (called loop : EventLoop.State) (hstack : s.stack = [])
      (hturn : EventLoop.step s.loop .turn = some called) (hcall : calledNode called.pc ≠ [])
      (hproxy : ∀ node ∈ calledNode called.pc, node.next.isHandle = false)
      (hrefuse : EventLoop.step called (.resumed false) = some loop) :
      Step s .refuse { s with loop := loop }
  | sched (a : EventLoop.Act) (loop : EventLoop.State) (hstack : s.stack = [])
      (hsched : a.scheduling = true) (hloop : EventLoop.step s.loop a = some loop) :
      Step s (.sched a) (s.enter loop)

theorem step_cases {s s' : Runtime} {a : Act} (h : step s a = some s') : Step s a s' := by
  cases a with
  | start coro =>
    simp only [step, Option.ite_none_right_eq_some, Option.some.injEq] at h
    obtain ⟨⟨hactive, hlive, hfinished, hdestroyed⟩, rfl⟩ := h
    exact .start coro hactive hlive hfinished hdestroyed
  | sleep tp =>
    cases hstack : s.stack with
    | nil => simp [step, hstack] at h
    | cons coro below =>
      simp only [step, hstack, Option.map_eq_some_iff] at h
      obtain ⟨loop, hpost, rfl⟩ := h
      exact .sleep tp coro below loop hstack hpost
  | awaitSocket awaiter fd =>
    cases hstack : s.stack with
    | nil => simp [step, hstack] at h
    | cons coro below =>
      simp only [step, hstack, Option.map_eq_some_iff] at h
      obtain ⟨loop, hpost, rfl⟩ := h
      exact .awaitSocket awaiter fd coro below loop hstack hpost
  | awaitTask task =>
    cases hstack : s.stack with
    | nil => simp [step, hstack] at h
    | cons coro below =>
      simp only [step, hstack] at h
      split_ifs at h with hdone hlive
      · obtain rfl := Option.some.inj h
        exact .awaitDone task coro below hstack hdone
      · obtain rfl := Option.some.inj h
        exact .awaitTask task coro below hstack hlive
  | finish =>
    cases hstack : s.stack with
    | nil => simp [step, hstack] at h
    | cons coro below =>
      simp only [step, hstack, Option.some.injEq] at h
      obtain rfl := h
      exact .finish coro below hstack
  | destroyTask task =>
    simp only [step, Option.ite_none_right_eq_some, Option.some.injEq] at h
    obtain ⟨⟨hactive, howned⟩, rfl⟩ := h
    exact .destroyTask task hactive howned
  | openSocket fd =>
    simp only [step, Option.ite_none_right_eq_some, Option.map_eq_some_iff] at h
    obtain ⟨-, loop, hopen, rfl⟩ := h
    exact .openSocket fd loop hopen
  | closeSocket fd =>
    simp only [step, Option.ite_none_right_eq_some, Option.map_eq_some_iff] at h
    obtain ⟨-, loop, hclose, rfl⟩ := h
    exact .closeSocket fd loop hclose
  | leave =>
    simp only [step, Option.ite_none_right_eq_some, Option.map_eq_some_iff] at h
    obtain ⟨hstack, loop, hleave, rfl⟩ := h
    exact .leave loop hstack hleave
  | refuse =>
    simp only [step, Option.ite_none_right_eq_some, Option.bind_eq_some_iff,
      Option.map_eq_some_iff] at h
    obtain ⟨hstack, called, hturn, ⟨hcall, hproxy⟩, loop, hrefuse, rfl⟩ := h
    exact .refuse called loop hstack hturn hcall hproxy hrefuse
  | sched a =>
    simp only [step, Option.ite_none_right_eq_some, Option.map_eq_some_iff] at h
    obtain ⟨⟨hstack, hsched⟩, loop, hloop, rfl⟩ := h
    exact .sched a loop hstack hsched hloop

section Queues

variable {framesOf : DescriptorNode → List Frame} {loop loop' : EventLoop.State}

theorem queued_of_perm {timers : List TimeNode} {nodes : List DescriptorNode}
    (htimers : (loop'.sched.timeNodes ++ timers).Perm loop.sched.timeNodes)
    (hnodes : (waiting loop' ++ nodes).Perm (waiting loop)) :
    (queued framesOf loop' ++ (timers.map TimeNode.next ++ nodes.flatMap framesOf)).Perm
      (queued framesOf loop) := by
  have htimers' := htimers.map TimeNode.next
  have hnodes' := hnodes.flatMap_right framesOf
  rw [List.map_append] at htimers'
  rw [List.flatMap_append] at hnodes'
  refine List.Perm.trans ?_ (htimers'.append hnodes')
  simp only [queued, List.append_assoc]
  refine List.Perm.append_left _ ?_
  exact List.perm_append_comm_assoc _ _ _

theorem queued_of_same (hnodes : waiting loop' = waiting loop)
    (htimers : loop'.sched.timeNodes = loop.sched.timeNodes) :
    queued framesOf loop' = queued framesOf loop := by
  rw [queued, queued, hnodes, htimers]

theorem queued_openSocket {fd : ℕ} (h : EventLoop.step loop (.openSocket fd) = some loop') :
    queued framesOf loop' = queued framesOf loop := by
  obtain ⟨hnodes, htimers⟩ := step_socket (Or.inl rfl) h
  exact queued_of_same hnodes htimers

theorem queued_closeSocket {fd : ℕ} (h : EventLoop.step loop (.closeSocket fd) = some loop') :
    queued framesOf loop' = queued framesOf loop := by
  obtain ⟨hnodes, htimers⟩ := step_socket (Or.inr rfl) h
  exact queued_of_same hnodes htimers

theorem queued_resumed (h : EventLoop.step loop (.resumed true) = some loop') :
    queued framesOf loop' = queued framesOf loop := by
  obtain ⟨hnodes, htimers⟩ := step_resumed h
  exact queued_of_same hnodes htimers

theorem queued_refused {called : EventLoop.State} (hturn : EventLoop.step loop .turn = some called)
    (hproxy : ∀ node ∈ calledNode called.pc, node.next.isHandle = false)
    (hcall : calledNode called.pc ≠ [])
    (h : EventLoop.step called (.resumed false) = some loop') :
    queued framesOf loop' = queued framesOf loop := by
  obtain ⟨hnodes, htimers⟩ := step_refused hturn hproxy hcall h
  exact queued_of_same hnodes htimers

theorem queued_scheduling {a : EventLoop.Act} (h : EventLoop.step loop a = some loop')
    (ha : a.scheduling = true) :
    (queued framesOf loop' ++ resumedAt framesOf loop'.pc).Perm (queued framesOf loop) :=
  queued_of_perm (step_scheduling h ha).2 (step_scheduling h ha).1

theorem queued_postTimer {tp : Time} {coro : Frame}
    (h : EventLoop.step loop (.postTimer tp coro) = some loop') :
    (queued framesOf loop').Perm (coro :: queued framesOf loop) := by
  obtain ⟨hnodes, htimers⟩ := step_postTimer h
  rw [queued, queued, hnodes, htimers, List.map_append, List.append_assoc]
  exact List.perm_middle

theorem queued_postCoro {fd : ℕ} {e : Polling.Event} {frame : Frame} {next : Next}
    (h : EventLoop.step loop (.postCoro fd e frame next) = some loop') :
    (queued framesOf loop').Perm
      (framesOf ⟨e, ⟨frame, loop.socks fd⟩, next⟩ ++ queued framesOf loop) := by
  obtain ⟨hnodes, htimers⟩ := step_postCoro h
  have hnodes' := hnodes.flatMap_right framesOf
  rw [List.flatMap_cons] at hnodes'
  rw [queued, queued, htimers]
  refine (hnodes'.append_left _).trans ?_
  exact List.perm_append_comm_assoc _ _ _

end Queues

theorem step_loop {s s' : Runtime} {a : Act} (h : step s a = some s') :
    ∃ acts, Runs.exec EventLoop.step s.loop acts = some s'.loop := by
  cases step_cases h with
  | start | awaitDone | awaitTask | finish | destroyTask => exact ⟨[], rfl⟩
  | sleep tp coro below loop hstack hpost => exact ⟨_, Runs.exec_one hpost⟩
  | awaitSocket awaiter fd coro below loop hstack hpost => exact ⟨_, Runs.exec_one hpost⟩
  | openSocket fd loop hopen => exact ⟨_, Runs.exec_one hopen⟩
  | closeSocket fd loop hclose => exact ⟨_, Runs.exec_one hclose⟩
  | leave loop hstack hleave => exact ⟨_, Runs.exec_one hleave⟩
  | refuse called loop hstack hturn hcall hproxy hrefuse =>
    exact ⟨_, Runs.exec_cons_eq_some.mpr ⟨called, hturn, Runs.exec_one hrefuse⟩⟩
  | sched a loop hstack hsched hloop => exact ⟨_, Runs.exec_one hloop⟩

theorem run_loop {acts : List Act} {s : Runtime} (h : Runs.exec step start acts = some s) :
    ∃ acts', Runs.exec EventLoop.step EventLoop.init acts' = some s.loop :=
  Runs.exec_simulation Runtime.loop (fun _ _ _ hstep => step_loop hstep) h

/-- A coroutine awaits a task that sleeps, while another accepts a connection;
its proxy refuses once. Then the tasks that have ended are destroyed, and the
first coroutine sleeps before its own end. -/
def sampleRun : List Act :=
  [.start 0, .start 1, .sleep 5, .awaitTask 1, .openSocket 5, .start 2, .awaitSocket .accept 5,
    .sched .run, .sched .test, .sched (.expire 0 0), .sched (.wait 0 [(5, Polling.Event.read)]),
    .sched .take, .refuse, .sched .turn, .finish, .leave, .sched .turn, .sched .take,
    .sched .test, .sched (.expire 5 0), .destroyTask 2, .finish, .destroyTask 1, .sleep 6,
    .leave, .sched (.expire 5 0), .sched .test, .sched (.expire 6 0), .finish, .leave,
    .sched (.expire 6 0), .sched .test]

end Bc.Coroutines
