import Bc.CallStacks
import Bc.RunCompletion
import Bc.WaiterTables

/-!
Coroutines with their code. A call of a coroutine function whose task is awaited
at once is a procedure call: whatever else runs in between, a coroutine and
those it has called in this way do together what a program on one call stack
does, and when `run` returns they have done all of it.
-/
namespace Bc.TaskPrograms

open Scheduling Coroutines CallStacks

/-- The operations of a coroutine. `emit` is anything that it does on its own, and
`adoptSocket` makes a socket of a descriptor that a system call has opened. `done` and
`destroyTask` are `task::done` and `~task`, of a task that has been spawned. -/
inductive Operation (ε : Type*)
  | emit (event : ε)
  | sleep (period : Time)
  | awaitSocket (awaiter : SocketAwaiter) (fd : ℕ)
  | openSocket
  | adoptSocket (fd : ℕ)
  | closeSocket (fd : ℕ)
  | done (task : Frame)
  | destroyTask (task : Frame)
  deriving DecidableEq

/-- The operations that open or close a descriptor. -/
def Operation.onTable {ε : Type*} : Operation ε → Bool
  | openSocket => true
  | adoptSocket _ => true
  | closeSocket _ => true
  | _ => false

/-- What an operation yields; `received` is the result of awaiting a socket, and `task`
is what a spawn yields. -/
inductive Answer (α : Type*)
  | nothing
  | socket (fd : ℕ)
  | received (result : α)
  | flag (value : Bool)
  | task (coro : Frame)
  deriving DecidableEq

/-- `steady_clock::now() + period`, in the 64 bits of a time point. -/
def deadline (created period : Time) : Time := (created + period).bmod (2 ^ 64)

/-- Where a coroutine is. In `parked` it has left for the operation at `point`.
A call is `joining` when the task is there and not yet awaited, and `leaving`
from then on until the task is destroyed, at the end of the expression. -/
inductive Phase (σ : Type*)
  | body (point : σ)
  | parked (point : σ)
  | joining (task : Frame) (next : σ)
  | leaving (task : Frame) (next : σ)
  deriving DecidableEq

namespace Phase

variable {σ : Type*}

/-- The point at which the code goes on when its calls have returned. -/
def current : Phase σ → σ
  | body point => point
  | parked point => point
  | joining _ next => next
  | leaving _ next => next

/-- The task that a call has made. -/
def joins : Phase σ → Option Frame
  | body _ => none
  | parked _ => none
  | joining task _ => some task
  | leaving task _ => some task

end Phase

/-- The runtime with the code of its coroutines. The coroutines in one `thread`
have called each other, `calls` has those that have not returned, the innermost
first, and `log` has what they have done; a thread is named by its first
coroutine, which has begun at `bodies`. -/
structure Machine (σ ε α : Type*) where
  runtime : Runtime
  phase : Frame → Phase σ
  thread : Frame → Frame
  calls : Frame → List Frame
  log : Frame → List (Mark (Operation ε) (Answer α))
  bodies : Frame → Option σ

/-- `spawn` is a call from `main`. In `call` the coroutine on top of the stack
calls a coroutine function, with or without awaiting the task; `suspend` and
`answer` are the two sides of awaiting a socket, and a `ready` connection does
not suspend. A sleep is made at the reading `created` of the clock and looks
at it again at `checked`. With `destroyTask` a task goes whose call has ended, or one
that was spawned. -/
inductive Act (σ α : Type*)
  | spawn (coro : Frame) (body : σ)
  | emit
  | sleep (created checked : Time)
  | suspend (ready : Bool)
  | answer (result : α)
  | openSocket (fd : ℕ)
  | closeSocket
  | done
  | call (task : Frame)
  | awaitTask
  | destroyTask
  | finish
  | leave
  | refuse
  | sched (a : EventLoop.Act)

namespace Machine

variable {σ ε α : Type*}

/-- `coro` goes on to `phase` and leaves `marks` behind. -/
def advance (m : Machine σ ε α) (coro : Frame) (phase : Phase σ)
    (marks : List (Mark (Operation ε) (Answer α))) (runtime : Runtime) : Machine σ ε α :=
  { m with
    runtime := runtime
    phase := Function.update m.phase coro phase
    log := Function.update m.log (m.thread coro) (m.log (m.thread coro) ++ marks) }

def begin (m : Machine σ ε α) (coro : Frame) (body : σ) (runtime : Runtime) : Machine σ ε α :=
  { runtime := runtime
    phase := Function.update m.phase coro (.body body)
    thread := Function.update m.thread coro coro
    calls := Function.update m.calls coro [coro]
    log := Function.update m.log coro []
    bodies := Function.update m.bodies coro (some body) }

def enter (m : Machine σ ε α) (coro task : Frame) (body : σ) : Machine σ ε α :=
  { m with
    phase := Function.update m.phase task (.body body)
    thread := Function.update m.thread task (m.thread coro)
    calls := Function.update m.calls (m.thread coro) (task :: m.calls (m.thread coro)) }

def exit (m : Machine σ ε α) (coro : Frame) : Machine σ ε α :=
  { m with calls := Function.update m.calls (m.thread coro) ((m.calls (m.thread coro)).erase coro) }

end Machine

def start {σ ε α : Type*} [Inhabited σ] : Machine σ ε α :=
  { runtime := Coroutines.start
    phase := fun _ => .body default
    thread := id
    calls := fun _ => []
    log := fun _ => []
    bodies := fun _ => none }

section Steps

variable {σ ε α : Type*} (code : σ → Op σ (Operation ε) (Answer α))

/-- The coroutine on top of the stack performs `op` at `point`. A spawned task is only
destroyed when it has ended. -/
def perform (m : Machine σ ε α) (coro : Frame) (point : σ) (op : Operation ε)
    (next : Answer α → σ) : Act σ α → Option (Machine σ ε α)
  | .emit =>
    match op with
    | .emit _ =>
      some (m.advance coro (.body (next .nothing)) [.performed op .nothing] m.runtime)
    | _ => none
  | .sleep created checked =>
    match op with
    | .sleep period =>
      if deadline created period ≤ checked then
        some (m.advance coro (.body (next .nothing)) [.performed op .nothing] m.runtime)
      else
        (Coroutines.step m.runtime (.sleep (deadline created period))).map
          (m.advance coro (.body (next .nothing)) [.performed op .nothing])
    | _ => none
  | .suspend ready =>
    match op with
    | .awaitSocket awaiter fd =>
      if ready then
        if awaiter = .connect then some (m.advance coro (.parked point) [] m.runtime) else none
      else
        (Coroutines.step m.runtime (.awaitSocket awaiter fd)).map
          (m.advance coro (.parked point) [])
    | _ => none
  | .openSocket fd =>
    match op with
    | .openSocket =>
      (Coroutines.step m.runtime (.openSocket fd)).map
        (m.advance coro (.body (next (.socket fd))) [.performed op (.socket fd)])
    | .adoptSocket given =>
      if fd = given then
        (Coroutines.step m.runtime (.openSocket fd)).map
          (m.advance coro (.body (next (.socket fd))) [.performed op (.socket fd)])
      else none
    | _ => none
  | .closeSocket =>
    match op with
    | .closeSocket fd =>
      (Coroutines.step m.runtime (.closeSocket fd)).map
        (m.advance coro (.body (next .nothing)) [.performed op .nothing])
    | _ => none
  | .done =>
    match op with
    | .done task =>
      if task ∈ m.runtime.live ∨ task ∈ m.runtime.finished then
        let answer := .flag (decide (task ∈ m.runtime.finished))
        some (m.advance coro (.body (next answer)) [.performed op answer] m.runtime)
      else none
    | _ => none
  | .destroyTask =>
    match op with
    | .destroyTask task =>
      if task ∈ m.runtime.finished ∧ (m.bodies task).isSome then
        (Coroutines.step m.runtime (.destroyTask task)).map
          (m.advance coro (.body (next .nothing)) [.performed op .nothing])
      else none
    | _ => none
  | _ => none

def proceed (m : Machine σ ε α) (coro : Frame) (point : σ) (a : Act σ α) :
    Option (Machine σ ε α) :=
  match code point with
  | .perform op next => perform m coro point op next a
  | .call body next =>
    match a with
    | .call task =>
      (Coroutines.step m.runtime (.start task)).map fun runtime =>
        (m.advance coro (.joining task next) [.called] runtime).enter coro task body
    | _ => none
  | .spawn body next =>
    match a with
    | .call task =>
      (Coroutines.step m.runtime (.start task)).map fun runtime =>
        (m.advance coro (.body (next (.task task))) [.spawned (.task task)] m.runtime).begin task
          body runtime
    | _ => none
  | .ret =>
    match a with
    | .finish =>
      (Coroutines.step m.runtime .finish).map fun runtime =>
        (m.advance coro (.body point) [.returned] runtime).exit coro
    | _ => none

def turn (m : Machine σ ε α) (coro : Frame) (a : Act σ α) : Option (Machine σ ε α) :=
  match m.phase coro with
  | .body point => proceed code m coro point a
  | .parked point =>
    match code point, a with
    | .perform (.awaitSocket awaiter fd) next, .answer result =>
      some (m.advance coro (.body (next (.received result)))
        [.performed (.awaitSocket awaiter fd) (.received result)] m.runtime)
    | _, _ => none
  | .joining task next =>
    match a with
    | .awaitTask =>
      (Coroutines.step m.runtime (.awaitTask task)).map (m.advance coro (.leaving task next) [])
    | _ => none
  | .leaving task next =>
    match a with
    | .destroyTask =>
      (Coroutines.step m.runtime (.destroyTask task)).map (m.advance coro (.body next) [])
    | _ => none

def step (m : Machine σ ε α) (a : Act σ α) : Option (Machine σ ε α) :=
  match m.runtime.stack with
  | [] =>
    match a with
    | .spawn coro body => (Coroutines.step m.runtime (.start coro)).map (m.begin coro body)
    | .leave =>
      (Coroutines.step m.runtime .leave).map fun runtime => { m with runtime := runtime }
    | .refuse =>
      (Coroutines.step m.runtime .refuse).map fun runtime => { m with runtime := runtime }
    | .sched a =>
      (Coroutines.step m.runtime (.sched a)).map fun runtime => { m with runtime := runtime }
    | _ => none
  | coro :: _ => turn code m coro a

end Steps

/-- The steps of the runtime that neither begin, end, await nor destroy a task. -/
def Quiet : Coroutines.Act → Prop
  | .start _ => False
  | .awaitTask _ => False
  | .finish => False
  | .destroyTask _ => False
  | _ => True

structure SameTasks (s s' : Runtime) : Prop where
  live : s'.live = s.live
  finished : s'.finished = s.finished
  destroyed : s'.destroyed = s.destroyed
  prev : s'.prev = s.prev

theorem SameTasks.refl (s : Runtime) : SameTasks s s := ⟨rfl, rfl, rfl, rfl⟩

theorem step_quiet {s s' : Runtime} {a : Coroutines.Act} (h : Coroutines.step s a = some s')
    (ha : Quiet a) : SameTasks s s' := by
  cases Coroutines.step_cases h with
  | start | awaitDone | awaitTask | finish | destroyTask => exact ha.elim
  | sleep | awaitSocket | openSocket | closeSocket | leave | refuse | sched =>
    exact ⟨rfl, rfl, rfl, rfl⟩

/-- The runtime takes a quiet step or none. -/
def Rests (s s' : Runtime) : Prop := s' = s ∨ ∃ a, Quiet a ∧ Coroutines.step s a = some s'

theorem Rests.sameTasks {s s' : Runtime} (h : Rests s s') : SameTasks s s' := by
  rcases h with rfl | ⟨a, ha, hstep⟩
  · exact SameTasks.refl _
  · exact step_quiet hstep ha

def Untimed : Coroutines.Act → Prop
  | .sleep _ => False
  | .sched _ => False
  | _ => True

theorem step_untimed {s s' : Runtime} {a : Coroutines.Act} (h : Coroutines.step s a = some s')
    (ha : Untimed a) : s'.loop.sched.timeNodes = s.loop.sched.timeNodes := by
  cases Coroutines.step_cases h with
  | sleep | sched => exact ha.elim
  | start | awaitDone | awaitTask | finish | destroyTask => rfl
  | awaitSocket awaiter fd coro below loop hstack hpost => exact (EventLoop.step_postCoro hpost).2
  | openSocket fd loop hopen => exact (EventLoop.step_socket (Or.inl rfl) hopen).2
  | closeSocket fd loop hclose => exact (EventLoop.step_socket (Or.inr rfl) hclose).2
  | leave loop hstack hleave => exact (EventLoop.step_resumed hleave).2
  | refuse called loop hstack hturn hcall hproxy hrefuse =>
    exact (EventLoop.step_refused hturn hproxy hcall hrefuse).2

def Unopened : Coroutines.Act → Prop
  | .openSocket _ => False
  | .closeSocket _ => False
  | _ => True

theorem step_unopened {s s' : Runtime} {a : Coroutines.Act} (h : Coroutines.step s a = some s')
    (ha : Unopened a) : s'.loop.socks = s.loop.socks ∧ s'.loop.opened = s.loop.opened := by
  cases Coroutines.step_cases h with
  | openSocket | closeSocket => exact ha.elim
  | start | awaitDone | awaitTask | finish | destroyTask => exact ⟨rfl, rfl⟩
  | sleep tp coro below loop hstack hpost => exact WaiterTables.step_socks hpost nofun nofun
  | awaitSocket awaiter fd coro below loop hstack hpost =>
    exact WaiterTables.step_socks hpost nofun nofun
  | leave loop hstack hleave => exact WaiterTables.step_socks hleave nofun nofun
  | refuse called loop hstack hturn hcall hproxy hrefuse =>
    obtain ⟨hsocks, hopened⟩ := WaiterTables.step_socks hturn nofun nofun
    obtain ⟨hsocks', hopened'⟩ := WaiterTables.step_socks hrefuse nofun nofun
    exact ⟨hsocks'.trans hsocks, hopened'.trans hopened⟩
  | sched b loop hstack hsched hloop =>
    refine WaiterTables.step_socks hloop ?_ ?_
    · rintro fd rfl
      cases hsched
    · rintro fd rfl
      cases hsched

/-- What the scheduler does in a step that no coroutine takes. -/
def Act.ofLoop {σ α : Type*} : Act σ α → Option Coroutines.Act
  | .leave => some .leave
  | .refuse => some .refuse
  | .sched a => some (.sched a)
  | _ => none

def Act.starts {σ α : Type*} : Act σ α → Option Frame
  | .spawn coro _ => some coro
  | .call task => some task
  | _ => none

theorem Act.starts_ofLoop {σ α : Type*} {a : Act σ α} {ract : Coroutines.Act}
    (h : a.ofLoop = some ract) : a.starts = none := by
  cases a with
  | spawn | call => cases h
  | emit | sleep | suspend | answer | openSocket | closeSocket | done | awaitTask | destroyTask
  | finish | leave | refuse | sched => rfl

theorem Act.quiet_ofLoop {σ α : Type*} {a : Act σ α} {ract : Coroutines.Act}
    (h : a.ofLoop = some ract) : Quiet ract := by
  cases a with
  | leave | refuse | sched =>
    obtain rfl := Option.some.inj h
    trivial
  | spawn | emit | sleep | suspend | answer | openSocket | closeSocket | done | call | awaitTask
  | destroyTask | finish => cases h

section Registrations

variable {σ ε α : Type*} {code : σ → Op σ (Operation ε) (Answer α)} {m : Machine σ ε α}

/-- `node` is what a coroutine at `phase` puts on `fd` when it awaits the socket. -/
def Puts (code : σ → Op σ (Operation ε) (Answer α)) (phase : Phase σ) (fd : ℕ)
    (node : DescriptorNode) : Prop :=
  ∃ point awaiter next, phase = .parked point ∧
    code point = .perform (.awaitSocket awaiter fd) next ∧ node.ev = awaiter.mask ∧
      node.next = awaiter.next node.next.frame

/-- The coroutine on top is put where its code waits, and no other is moved. -/
structure Registers (code : σ → Op σ (Operation ε) (Answer α)) (m : Machine σ ε α)
    (coro : Frame) (phase : Phase σ) (runtime : Runtime) : Prop where
  waiters : ∀ fd, ∀ node ∈ WaiterTables.placed runtime.loop fd,
    node ∈ WaiterTables.placed m.runtime.loop fd ∨
      node.next.frame = coro ∧ Puts code phase fd node
  timers : ∀ node ∈ runtime.loop.sched.timeNodes, node ∈ m.runtime.loop.sched.timeNodes ∨
    node.next = coro ∧ ∃ point, phase = .body point

theorem Registers.same (coro : Frame) (phase : Phase σ) :
    Registers code m coro phase m.runtime :=
  ⟨fun _ _ hnode => Or.inl hnode, fun _ hnode => Or.inl hnode⟩

/-- What the step of the runtime registers is what `phase` waits for. -/
theorem Registers.step {coro : Frame} {below : List Frame} {phase : Phase σ} {runtime : Runtime}
    {a : Coroutines.Act} (hstack : m.runtime.stack = coro :: below)
    (h : Coroutines.step m.runtime a = some runtime)
    (hsocket : ∀ awaiter fd, a = .awaitSocket awaiter fd → ∃ point next, phase = .parked point ∧
      code point = .perform (.awaitSocket awaiter fd) next)
    (hsleep : ∀ tp, a = .sleep tp → ∃ point, phase = .body point) :
    Registers code m coro phase runtime := by
  constructor
  · intro fd node hnode
    refine (WaiterTables.placed_of_runtime h hnode).imp_right ?_
    rintro ⟨awaiter, runner, below', hact, hstack', hev, hnext⟩
    obtain ⟨rfl, -⟩ := List.cons.inj (hstack.symm.trans hstack')
    obtain ⟨point, next, hphase, hcode⟩ := hsocket awaiter fd hact
    have hframe : node.next.frame = coro := by rw [hnext, SocketAwaiter.next_frame]
    exact ⟨hframe, point, awaiter, next, hphase, hcode, hev, by rw [hframe, hnext]⟩
  · intro node hnode
    refine (WaiterTables.timers_of_runtime h hnode).imp_right ?_
    rintro ⟨tp, runner, below', hact, hstack', rfl⟩
    obtain ⟨rfl, -⟩ := List.cons.inj (hstack.symm.trans hstack')
    exact ⟨rfl, hsleep tp hact⟩

end Registrations

/-- A coroutine that is resumed with `result` has left for an operation on a socket. -/
theorem step_answer {σ ε α : Type*} {code : σ → Op σ (Operation ε) (Answer α)}
    {m m' : Machine σ ε α} {result : α} (h : step code m (.answer result) = some m') :
    ∃ coro below point awaiter fd next, m.runtime.stack = coro :: below ∧
      m.phase coro = .parked point ∧ code point = .perform (.awaitSocket awaiter fd) next ∧
      m' = m.advance coro (.body (next (.received result)))
        [.performed (.awaitSocket awaiter fd) (.received result)] m.runtime := by
  cases hstack : m.runtime.stack with
  | nil => simp [step, hstack] at h
  | cons coro below =>
    simp only [step, hstack] at h
    cases hphase : m.phase coro with
    | body point =>
      simp only [turn, hphase, proceed] at h
      cases hcode : code point with
      | perform op next => simp [hcode, perform] at h
      | call | spawn | ret => simp [hcode] at h
    | parked point =>
      simp only [turn, hphase] at h
      cases hcode : code point with
      | perform op next =>
        cases op with
        | awaitSocket awaiter fd =>
          simp only [hcode, Option.some.injEq] at h
          exact ⟨coro, below, point, awaiter, fd, next, rfl, hphase, hcode, h.symm⟩
        | emit | sleep | openSocket | adoptSocket | closeSocket | done | destroyTask =>
          simp [hcode] at h
      | call | spawn | ret => simp [hcode] at h
    | joining | leaving => simp [turn, hphase] at h

section Effects

variable {σ ε α : Type*} {code : σ → Op σ (Operation ε) (Answer α)} {m : Machine σ ε α}

/-- The period of the sleep that the coroutine on top is about to make. -/
def sleepPeriod (code : σ → Op σ (Operation ε) (Answer α)) (m : Machine σ ε α) : Option Time :=
  match m.runtime.stack with
  | [] => none
  | coro :: _ =>
    match code (m.phase coro).current with
    | .perform (.sleep period) _ => some period
    | _ => none

/-- The coroutine on top makes no sleep, or one that is over at once, or one that
it suspends for. -/
inductive Sleeps (code : σ → Op σ (Operation ε) (Answer α)) (m : Machine σ ε α) :
    Act σ α → List (Mark (Operation ε) (Answer α)) → Runtime → Prop
  | none (a : Act σ α) (marks : List (Mark (Operation ε) (Answer α))) (runtime : Runtime)
      (hmarks : ∀ period answer, .performed (.sleep period) answer ∉ marks)
      (htimers : runtime.loop.sched.timeNodes = m.runtime.loop.sched.timeNodes) :
      Sleeps code m a marks runtime
  | passed (created checked period : Time) (hperiod : sleepPeriod code m = some period)
      (hover : deadline created period ≤ checked) :
      Sleeps code m (.sleep created checked) [.performed (.sleep period) .nothing] m.runtime
  | posted (created checked period : Time) (runtime : Runtime)
      (hperiod : sleepPeriod code m = some period)
      (hsleep : Coroutines.step m.runtime (.sleep (deadline created period)) = some runtime) :
      Sleeps code m (.sleep created checked) [.performed (.sleep period) .nothing] runtime

/-- What a step does to the table of sockets. -/
inductive Tabled (s : EventLoop.State) :
    List (Mark (Operation ε) (Answer α)) → EventLoop.State → Prop
  | kept (marks : List (Mark (Operation ε) (Answer α))) (loop : EventLoop.State)
      (hmarks : ∀ op answer, .performed op answer ∈ marks → op.onTable = false)
      (hsocks : loop.socks = s.socks) (hopened : loop.opened = s.opened) : Tabled s marks loop
  | opened (op : Operation ε) (fd : ℕ) (loop : EventLoop.State)
      (hop : op = .openSocket ∨ op = .adoptSocket fd) (hfree : s.socks fd = none)
      (hsocks : loop.socks = Function.update s.socks fd (some s.opened))
      (hopened : loop.opened = s.opened + 1) : Tabled s [.performed op (.socket fd)] loop
  | closed (fd : ℕ) (loop : EventLoop.State) (hopen : s.socks fd ≠ none)
      (hsocks : loop.socks = Function.update s.socks fd none) (hopened : loop.opened = s.opened) :
      Tabled s [.performed (.closeSocket fd) .nothing] loop

/-- What comes with the marks that the coroutine on top leaves behind. -/
structure Effects (code : σ → Op σ (Operation ε) (Answer α)) (m : Machine σ ε α) (a : Act σ α)
    (coro : Frame) (phase : Phase σ) (marks : List (Mark (Operation ε) (Answer α)))
    (runtime : Runtime) : Prop where
  starts : a.starts = none
  marked : marks = [] ∨ ∃ op answer, marks = [.performed op answer]
  awaited : ∀ awaiter fd answer, .performed (.awaitSocket awaiter fd) answer ∈ marks →
    ∃ result, a = .answer result
  done : ∀ task answer, .performed (.done task) answer ∈ marks →
    answer = .flag (decide (task ∈ m.runtime.finished))
  destroys : ∀ task answer, .performed (.destroyTask task) answer ∉ marks
  sleeps : Sleeps code m a marks runtime
  tabled : Tabled m.runtime.loop marks runtime.loop
  registers : Registers code m coro phase runtime

theorem Effects.spawned {a : Act σ α} {coro : Frame} {phase : Phase σ}
    {marks : List (Mark (Operation ε) (Answer α))} {runtime : Runtime}
    (h : Effects code m a coro phase marks runtime) (answer : Answer α) :
    .spawned answer ∉ marks := by
  rcases h.marked with rfl | ⟨op, answer', rfl⟩ <;> simp

theorem sleepPeriod_eq {coro : Frame} {below : List Frame} {point : σ} {period : Time}
    {next : Answer α → σ} (hstack : m.runtime.stack = coro :: below)
    (hphase : m.phase coro = .body point) (hcode : code point = .perform (.sleep period) next) :
    sleepPeriod code m = some period := by
  simp only [sleepPeriod, hstack, hphase, Phase.current, hcode]

theorem tabled_of_open {op : Operation ε} {fd : ℕ} {runtime : Runtime}
    (hop : op = .openSocket ∨ op = .adoptSocket fd)
    (h : Coroutines.step m.runtime (.openSocket fd) = some runtime) :
    Tabled m.runtime.loop [.performed op (.socket fd : Answer α)] runtime.loop := by
  cases Coroutines.step_cases h with
  | openSocket _ loop hopen =>
    cases EventLoop.step_cases hopen with
    | openSocket _ hrun hpos hfree => exact .opened op fd _ hop hfree rfl rfl

theorem tabled_of_close {fd : ℕ} {runtime : Runtime}
    (h : Coroutines.step m.runtime (.closeSocket fd) = some runtime) :
    Tabled m.runtime.loop [(.performed (.closeSocket fd) .nothing : Mark (Operation ε) (Answer α))]
      runtime.loop := by
  cases Coroutines.step_cases h with
  | closeSocket _ loop hclose =>
    cases EventLoop.step_cases hclose with
    | closeSocket _ poller hrun hopen hsub => exact .closed fd _ hopen rfl rfl

theorem Tabled.of_kept {op : Operation ε} {answer : Answer α} {runtime : Runtime}
    (hop : op.onTable = false)
    (hsocks : runtime.loop.socks = m.runtime.loop.socks ∧
      runtime.loop.opened = m.runtime.loop.opened) :
    Tabled m.runtime.loop [.performed op answer] runtime.loop := by
  refine .kept _ _ ?_ hsocks.1 hsocks.2
  intro op' answer' hmem
  obtain ⟨rfl, -⟩ := Mark.performed.inj (List.mem_singleton.mp hmem)
  exact hop

end Effects

section Cases

variable {σ ε α : Type*} [DecidableEq ε]

/-- What the coroutine on top does by itself: it leaves `marks` behind and gets
to `phase`, as a program on a stack does. -/
structure Advance (code : σ → Op σ (Operation ε) (Answer α)) (m : Machine σ ε α) (coro : Frame)
    (phase : Phase σ) (marks : List (Mark (Operation ε) (Answer α))) (runtime : Runtime) :
    Prop where
  free : (m.phase coro).joins = none
  free' : phase.joins = none
  rests : Rests m.runtime runtime
  exec : ∀ below, Runs.exec (CallStacks.step code) ((m.phase coro).current :: below) marks =
    some (phase.current :: below)

/-- Everything a step can do. -/
inductive Step (code : σ → Op σ (Operation ε) (Answer α)) (m : Machine σ ε α) :
    Act σ α → Machine σ ε α → Prop
  | main (coro : Frame) (body : σ) (runtime : Runtime) (hstack : m.runtime.stack = [])
      (hstart : Coroutines.step m.runtime (.start coro) = some runtime) :
      Step code m (.spawn coro body) (m.begin coro body runtime)
  | loop (a : Act σ α) (ract : Coroutines.Act) (runtime : Runtime) (hact : a.ofLoop = some ract)
      (hstep : Coroutines.step m.runtime ract = some runtime) :
      Step code m a { m with runtime := runtime }
  | advance (a : Act σ α) (coro : Frame) (below : List Frame) (phase : Phase σ)
      (marks : List (Mark (Operation ε) (Answer α))) (runtime : Runtime)
      (hstack : m.runtime.stack = coro :: below)
      (hadvance : Advance code m coro phase marks runtime)
      (heffects : Effects code m a coro phase marks runtime) :
      Step code m a (m.advance coro phase marks runtime)
  | destroy (task coro : Frame) (below : List Frame) (point : σ) (next : Answer α → σ)
      (runtime : Runtime) (hstack : m.runtime.stack = coro :: below)
      (hphase : m.phase coro = .body point)
      (hcode : code point = .perform (.destroyTask task) next)
      (hended : task ∈ m.runtime.finished) (hbody : m.bodies task ≠ none)
      (hdestroy : Coroutines.step m.runtime (.destroyTask task) = some runtime) :
      Step code m .destroyTask
        (m.advance coro (.body (next .nothing)) [.performed (.destroyTask task) .nothing] runtime)
  | call (task coro : Frame) (below : List Frame) (point body next : σ) (runtime : Runtime)
      (hstack : m.runtime.stack = coro :: below) (hphase : m.phase coro = .body point)
      (hcode : code point = .call body next)
      (hstart : Coroutines.step m.runtime (.start task) = some runtime) :
      Step code m (.call task)
        ((m.advance coro (.joining task next) [.called] runtime).enter coro task body)
  | spawn (task coro : Frame) (below : List Frame) (point body : σ) (next : Answer α → σ)
      (runtime : Runtime) (hstack : m.runtime.stack = coro :: below)
      (hphase : m.phase coro = .body point) (hcode : code point = .spawn body next)
      (hadvance : Advance code m coro (.body (next (.task task))) [.spawned (.task task)] m.runtime)
      (hstart : Coroutines.step m.runtime (.start task) = some runtime) :
      Step code m (.call task)
        ((m.advance coro (.body (next (.task task))) [.spawned (.task task)] m.runtime).begin task
          body runtime)
  | awaitTask (task coro : Frame) (below : List Frame) (next : σ) (runtime : Runtime)
      (hstack : m.runtime.stack = coro :: below) (hphase : m.phase coro = .joining task next)
      (hawait : Coroutines.step m.runtime (.awaitTask task) = some runtime) :
      Step code m .awaitTask (m.advance coro (.leaving task next) [] runtime)
  | destroyTask (task coro : Frame) (below : List Frame) (next : σ) (runtime : Runtime)
      (hstack : m.runtime.stack = coro :: below) (hphase : m.phase coro = .leaving task next)
      (hdestroy : Coroutines.step m.runtime (.destroyTask task) = some runtime) :
      Step code m .destroyTask (m.advance coro (.body next) [] runtime)
  | finish (coro : Frame) (below : List Frame) (point : σ)
      (hstack : m.runtime.stack = coro :: below) (hphase : m.phase coro = .body point)
      (hcode : code point = .ret) :
      Step code m .finish
        ((m.advance coro (.body point) [.returned] (m.runtime.finish coro below)).exit coro)

variable {code : σ → Op σ (Operation ε) (Answer α)} {m m' : Machine σ ε α}

theorem Advance.performed {coro : Frame} {point : σ} {op : Operation ε} {next : Answer α → σ}
    {runtime : Runtime} (hphase : m.phase coro = .body point ∨ m.phase coro = .parked point)
    (hcode : code point = .perform op next) (answer : Answer α)
    (hrests : Rests m.runtime runtime) :
    Advance code m coro (.body (next answer)) [.performed op answer] runtime := by
  refine ⟨?_, rfl, hrests, ?_⟩
  · rcases hphase with hphase | hphase <;> rw [hphase] <;> rfl
  · intro below
    have hcurrent : (m.phase coro).current = point := by
      rcases hphase with hphase | hphase <;> rw [hphase] <;> rfl
    rw [hcurrent]
    exact Runs.exec_one (step_perform hcode answer)

theorem Advance.current_of_nil {coro : Frame} {phase : Phase σ} {runtime : Runtime}
    (h : Advance code m coro phase [] runtime) : phase.current = (m.phase coro).current := by
  have hexec := h.exec []
  exact (List.cons.inj (Option.some.inj hexec)).1.symm

theorem Advance.step_of_performed {coro : Frame} {phase : Phase σ} {op : Operation ε}
    {answer : Answer α} {runtime : Runtime}
    (h : Advance code m coro phase [.performed op answer] runtime) :
    CallStacks.step code [(m.phase coro).current] (.performed op answer) =
      some [phase.current] := by
  obtain ⟨points, hstep, hnil⟩ := Runs.exec_cons_eq_some.mp (h.exec [])
  rwa [← Option.some.inj hnil]

theorem step_performed {coro : Frame} {below : List Frame} {point : σ} {op : Operation ε}
    {next : Answer α → σ} {a : Act σ α} {answer : Answer α} {runtime : Runtime}
    (hstack : m.runtime.stack = coro :: below)
    (hphase : m.phase coro = .body point ∨ m.phase coro = .parked point)
    (hcode : code point = .perform op next) (hstarts : a.starts = none)
    (hawaited : ∀ awaiter fd, op = .awaitSocket awaiter fd → ∃ result, a = .answer result)
    (hdone : ∀ task, op = .done task → answer = .flag (decide (task ∈ m.runtime.finished)))
    (hdestroys : ∀ task, op ≠ .destroyTask task) (hrests : Rests m.runtime runtime)
    (hsleeps : Sleeps code m a [.performed op answer] runtime)
    (htabled : Tabled m.runtime.loop [.performed op answer] runtime.loop)
    (hregisters : Registers code m coro (.body (next answer)) runtime) :
    Step code m a (m.advance coro (.body (next answer)) [.performed op answer] runtime) := by
  refine .advance a coro below _ _ runtime hstack
    (Advance.performed hphase hcode answer hrests) ⟨hstarts, Or.inr ⟨_, _, rfl⟩, ?_, ?_, ?_,
      hsleeps, htabled, hregisters⟩
  · intro awaiter fd answer' hmem
    obtain ⟨hsame, -⟩ := Mark.performed.inj (List.mem_singleton.mp hmem)
    exact hawaited awaiter fd hsame.symm
  · intro task answer' hmem
    obtain ⟨hsame, rfl⟩ := Mark.performed.inj (List.mem_singleton.mp hmem)
    exact hdone task hsame.symm
  · intro task answer' hmem
    obtain ⟨hsame, -⟩ := Mark.performed.inj (List.mem_singleton.mp hmem)
    exact hdestroys task hsame.symm

/-- The step with which a coroutine leaves for an operation on a socket. -/
theorem step_parked {coro : Frame} {below : List Frame} {point : σ} {a : Act σ α}
    {runtime : Runtime} (hstack : m.runtime.stack = coro :: below)
    (hphase : m.phase coro = .body point) (hstarts : a.starts = none)
    (hrests : Rests m.runtime runtime)
    (htimers : runtime.loop.sched.timeNodes = m.runtime.loop.sched.timeNodes)
    (hsocks : runtime.loop.socks = m.runtime.loop.socks ∧
      runtime.loop.opened = m.runtime.loop.opened)
    (hregisters : Registers code m coro (.parked point) runtime) :
    Step code m a (m.advance coro (.parked point) [] runtime) := by
  refine .advance a coro below _ _ runtime hstack ⟨?_, rfl, hrests, ?_⟩
    ⟨hstarts, Or.inl rfl, nofun, nofun, by simp, .none a [] runtime (by simp) htimers,
      .kept [] _ nofun hsocks.1 hsocks.2, hregisters⟩
  · rw [hphase]
    rfl
  · intro below
    rw [hphase]
    rfl

theorem perform_cases {coro : Frame} {below : List Frame} {point : σ} {op : Operation ε}
    {next : Answer α → σ} {a : Act σ α} (hstack : m.runtime.stack = coro :: below)
    (hphase : m.phase coro = .body point) (hcode : code point = .perform op next)
    (h : perform m coro point op next a = some m') : Step code m a m' := by
  have hquiet : ∀ {ract runtime}, Coroutines.step m.runtime ract = some runtime → Quiet ract →
      Rests m.runtime runtime := fun hstep hact => Or.inr ⟨_, hact, hstep⟩
  cases a with
  | emit =>
    cases op with
    | emit event =>
      obtain rfl := Option.some.inj h
      exact step_performed hstack (Or.inl hphase) hcode rfl nofun nofun nofun (Or.inl rfl)
        (.none _ _ _ (by simp) rfl) (.of_kept rfl ⟨rfl, rfl⟩) (.same ..)
    | sleep | awaitSocket | openSocket | adoptSocket | closeSocket | done | destroyTask => cases h
  | sleep created checked =>
    cases op with
    | sleep period =>
      simp only [perform] at h
      have hperiod := sleepPeriod_eq hstack hphase hcode
      split_ifs at h with hready
      · obtain rfl := Option.some.inj h
        exact step_performed hstack (Or.inl hphase) hcode rfl nofun nofun nofun (Or.inl rfl)
          (.passed created checked period hperiod hready) (.of_kept rfl ⟨rfl, rfl⟩) (.same ..)
      · obtain ⟨runtime, hsleep, rfl⟩ := Option.map_eq_some_iff.mp h
        exact step_performed hstack (Or.inl hphase) hcode rfl nofun nofun nofun
          (hquiet hsleep trivial) (.posted created checked period _ hperiod hsleep)
          (.of_kept rfl (step_unopened hsleep trivial))
          (.step hstack hsleep nofun fun _ _ => ⟨_, rfl⟩)
    | emit | awaitSocket | openSocket | adoptSocket | closeSocket | done | destroyTask => cases h
  | suspend ready =>
    cases op with
    | awaitSocket awaiter fd =>
      simp only [perform] at h
      split_ifs at h with hready hconnect
      · obtain rfl := Option.some.inj h
        exact step_parked hstack hphase rfl (Or.inl rfl) rfl ⟨rfl, rfl⟩ (.same ..)
      · obtain ⟨runtime, hawait, rfl⟩ := Option.map_eq_some_iff.mp h
        refine step_parked hstack hphase rfl (hquiet hawait trivial) (step_untimed hawait trivial)
          (step_unopened hawait trivial) (.step hstack hawait ?_ nofun)
        rintro awaiter' fd' ⟨⟩
        exact ⟨point, next, rfl, hcode⟩
    | emit | sleep | openSocket | adoptSocket | closeSocket | done | destroyTask => cases h
  | openSocket fd =>
    cases op with
    | openSocket =>
      obtain ⟨runtime, hopen, rfl⟩ := Option.map_eq_some_iff.mp h
      exact step_performed hstack (Or.inl hphase) hcode rfl nofun nofun nofun
        (hquiet hopen trivial) (.none _ _ _ (by simp) (step_untimed hopen trivial))
        (tabled_of_open (Or.inl rfl) hopen) (.step hstack hopen nofun nofun)
    | adoptSocket given =>
      simp only [perform, Option.ite_none_right_eq_some] at h
      obtain ⟨rfl, h⟩ := h
      obtain ⟨runtime, hopen, rfl⟩ := Option.map_eq_some_iff.mp h
      exact step_performed hstack (Or.inl hphase) hcode rfl nofun nofun nofun
        (hquiet hopen trivial) (.none _ _ _ (by simp) (step_untimed hopen trivial))
        (tabled_of_open (Or.inr rfl) hopen) (.step hstack hopen nofun nofun)
    | emit | sleep | awaitSocket | closeSocket | done | destroyTask => cases h
  | closeSocket =>
    cases op with
    | closeSocket fd =>
      obtain ⟨runtime, hclose, rfl⟩ := Option.map_eq_some_iff.mp h
      exact step_performed hstack (Or.inl hphase) hcode rfl nofun nofun nofun
        (hquiet hclose trivial) (.none _ _ _ (by simp) (step_untimed hclose trivial))
        (tabled_of_close hclose) (.step hstack hclose nofun nofun)
    | emit | sleep | awaitSocket | openSocket | adoptSocket | done | destroyTask => cases h
  | done =>
    cases op with
    | done task =>
      simp only [perform, Option.ite_none_right_eq_some, Option.some.injEq] at h
      obtain ⟨-, rfl⟩ := h
      refine step_performed hstack (Or.inl hphase) hcode rfl nofun ?_ nofun (Or.inl rfl)
        (.none _ _ _ (by simp) rfl) (.of_kept rfl ⟨rfl, rfl⟩) (.same ..)
      rintro task' ⟨⟩
      rfl
    | emit | sleep | awaitSocket | openSocket | adoptSocket | closeSocket | destroyTask => cases h
  | destroyTask =>
    cases op with
    | destroyTask task =>
      simp only [perform, Option.ite_none_right_eq_some, Option.map_eq_some_iff] at h
      obtain ⟨⟨hended, hbody⟩, runtime, hdestroy, rfl⟩ := h
      exact .destroy task coro below point next runtime hstack hphase hcode hended
        (Option.isSome_iff_ne_none.mp hbody) hdestroy
    | emit | sleep | awaitSocket | openSocket | adoptSocket | closeSocket | done => cases h
  | spawn | answer | call | awaitTask | finish | leave | refuse | sched => cases h

theorem proceed_cases {coro : Frame} {below : List Frame} {point : σ} {a : Act σ α}
    (hstack : m.runtime.stack = coro :: below) (hphase : m.phase coro = .body point)
    (h : proceed code m coro point a = some m') : Step code m a m' := by
  cases hcode : code point with
  | perform op next =>
    simp only [proceed, hcode] at h
    exact perform_cases hstack hphase hcode h
  | call body next =>
    cases a with
    | call task =>
      simp only [proceed, hcode, Option.map_eq_some_iff] at h
      obtain ⟨runtime, hstart, rfl⟩ := h
      exact .call task coro below point body next runtime hstack hphase hcode hstart
    | spawn | emit | sleep | suspend | answer | openSocket | closeSocket | done | awaitTask
    | destroyTask | finish | leave | refuse | sched => simp [proceed, hcode] at h
  | spawn body next =>
    cases a with
    | call task =>
      simp only [proceed, hcode, Option.map_eq_some_iff] at h
      obtain ⟨runtime, hstart, rfl⟩ := h
      refine .spawn task coro below point body next runtime hstack hphase hcode
        ⟨?_, rfl, Or.inl rfl, ?_⟩ hstart
      · rw [hphase]
        rfl
      · intro below
        rw [hphase]
        exact Runs.exec_one (step_spawn hcode _)
    | spawn | emit | sleep | suspend | answer | openSocket | closeSocket | done | awaitTask
    | destroyTask | finish | leave | refuse | sched => simp [proceed, hcode] at h
  | ret =>
    cases a with
    | finish =>
      simp only [proceed, hcode, Option.map_eq_some_iff] at h
      obtain ⟨runtime, hfinish, rfl⟩ := h
      simp only [Coroutines.step, hstack, Option.some.injEq] at hfinish
      obtain rfl := hfinish
      exact .finish coro below point hstack hphase hcode
    | spawn | emit | sleep | suspend | answer | openSocket | closeSocket | done | call | awaitTask
    | destroyTask | leave | refuse | sched => simp [proceed, hcode] at h

theorem turn_cases {coro : Frame} {below : List Frame} {a : Act σ α}
    (hstack : m.runtime.stack = coro :: below) (h : turn code m coro a = some m') :
    Step code m a m' := by
  cases hphase : m.phase coro with
  | body point =>
    simp only [turn, hphase] at h
    exact proceed_cases hstack hphase h
  | parked point =>
    simp only [turn, hphase] at h
    cases hcode : code point with
    | perform op next =>
      cases op with
      | awaitSocket awaiter fd =>
        cases a with
        | answer result =>
          simp only [hcode, Option.some.injEq] at h
          obtain rfl := h
          exact step_performed hstack (Or.inr hphase) hcode rfl (fun _ _ _ => ⟨result, rfl⟩) nofun
            nofun (Or.inl rfl) (.none _ _ _ (by simp) rfl) (.of_kept rfl ⟨rfl, rfl⟩) (.same ..)
        | spawn | emit | sleep | suspend | openSocket | closeSocket | done | call | awaitTask
        | destroyTask | finish | leave | refuse | sched => simp [hcode] at h
      | emit | sleep | openSocket | adoptSocket | closeSocket | done | destroyTask =>
        simp [hcode] at h
    | call | spawn | ret => simp [hcode] at h
  | joining task next =>
    cases a with
    | awaitTask =>
      simp only [turn, hphase, Option.map_eq_some_iff] at h
      obtain ⟨runtime, hawait, rfl⟩ := h
      exact .awaitTask task coro below next runtime hstack hphase hawait
    | spawn | emit | sleep | suspend | answer | openSocket | closeSocket | done | call | destroyTask
    | finish | leave | refuse | sched => simp [turn, hphase] at h
  | leaving task next =>
    cases a with
    | destroyTask =>
      simp only [turn, hphase, Option.map_eq_some_iff] at h
      obtain ⟨runtime, hdestroy, rfl⟩ := h
      exact .destroyTask task coro below next runtime hstack hphase hdestroy
    | spawn | emit | sleep | suspend | answer | openSocket | closeSocket | done | call | awaitTask
    | finish | leave | refuse | sched => simp [turn, hphase] at h

theorem step_cases {a : Act σ α} (h : step code m a = some m') : Step code m a m' := by
  cases hstack : m.runtime.stack with
  | nil =>
    cases a with
    | spawn coro body =>
      simp only [step, hstack, Option.map_eq_some_iff] at h
      obtain ⟨runtime, hstart, rfl⟩ := h
      exact .main coro body runtime hstack hstart
    | leave | refuse | sched =>
      simp only [step, hstack, Option.map_eq_some_iff] at h
      obtain ⟨runtime, hloop, rfl⟩ := h
      exact .loop _ _ runtime rfl hloop
    | emit | sleep | suspend | answer | openSocket | closeSocket | done | call | awaitTask
    | destroyTask | finish => simp [step, hstack] at h
  | cons coro below =>
    simp only [step, hstack] at h
    exact turn_cases hstack h

end Cases

/-- From `0` the code awaits a call that sleeps and emits, and emits itself. -/
def sampleCode : ℕ → Op ℕ (Operation ℕ) (Answer Unit)
  | 0 => .call 2 1
  | 1 => .perform (.emit 7) fun _ => 4
  | 2 => .perform (.sleep 1) fun _ => 3
  | 3 => .perform (.emit 5) fun _ => 4
  | _ => .ret

def sampleRun : List (Act ℕ Unit) :=
  [.spawn 0 0, .call 1, .sleep 0 0, .awaitTask, .spawn 2 2, .sleep 0 0, .sched .run, .sched .test,
    .sched (.expire 1 0), .emit, .finish, .destroyTask, .emit, .finish, .leave,
    .sched (.expire 1 0), .emit, .finish, .leave, .sched (.expire 2 0), .sched .test]

/-- The same code once more, by itself, with a sleep that is over at once. -/
def sampleRun' : List (Act ℕ Unit) :=
  [.spawn 5 0, .call 6, .sleep 0 3, .emit, .finish, .awaitTask, .destroyTask, .emit, .finish]

end Bc.TaskPrograms
