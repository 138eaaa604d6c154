import Bc.EchoConnections
import Bc.SessionSockets

/-!
The echo service as a whole: the servers on their event loop and any number of clients of
`client.cxx`. At the other end of each socket is a client; what a coroutine reads and
writes goes over the wire of the socket which its descriptor stands for at the time. In
whatever order all of them go on, a connection runs as it would if there were no other.
-/
namespace Bc.EchoService

open Polling Awaiters Scheduling TaskThreads SpawnedThreads EchoServers ServedClients
open SessionSockets
open TaskPrograms hiding step start Act
open EchoConnections hiding Act step Step step_cases start Client
open CallStacks hiding step Step step_cases

/-- The socket with each number has a client at its other end. -/
structure Service where
  machine : Server
  wires : ℕ → Wire Byte

def start : Service := ⟨TaskPrograms.start, fun _ => ⟨⟨.typing, [], []⟩, [], []⟩⟩

inductive Act
  | server (a : TaskPrograms.Act ServerPoint Received)
  | client (sock : ℕ) (a : ClientAct)

/-- What epoll and the system calls can answer to a coroutine that stands at `point`. -/
def Given (point : ServerPoint) (received : Received) : Prop :=
  match point, received with
  | .listening _ _, .accepted _ => True
  | .reading _, received => Reads (.received received)
  | .writing _ bytes, received => Writes bytes (.received received)
  | _, _ => False

instance (point : ServerPoint) (received : Received) : Decidable (Given point received) :=
  match point, received with
  | .listening _ _, .accepted _ => inferInstanceAs (Decidable True)
  | .reading _, received => inferInstanceAs (Decidable (Reads (.received received)))
  | .writing _ bytes, received => inferInstanceAs (Decidable (Writes bytes (.received received)))
  | .listening _ _, .read _ _ | .listening _ _, .write _ _ | .starting, _ | .accepted _ _ _, _
  | .adding _ _ _, _ | .sweeping _ _ _ _, _ | .erasing _ _ _ _, _ | .closing _ _ _ _, _
  | .leaving _ _, _ | .stopped _, _ | .session _, _ | .ended, _ =>
    inferInstanceAs (Decidable False)

/-- What a coroutine that goes on at `point` takes off a wire and puts on it: the bytes of
its buffer. -/
def transfer (point : ServerPoint) (received : Received) (w : Wire Byte) : Option (Wire Byte) :=
  match point, received with
  | .reading _, .read revent outcome =>
    match readResume revent outcome with
    | some (.ok bytes) =>
      if bytes <+: w.up then some { w with up := w.up.drop bytes.length } else none
    | _ => some w
  | .writing _ bytes, .write revent outcome =>
    match writeResume revent outcome with
    | .ok n => some { w with down := w.down ++ bytes.take n }
    | .error _ => some w
  | _, _ => some w

def awaited (point : ServerPoint) : Option ℕ :=
  match serverCode point with
  | .perform (.awaitSocket _ fd) _ => some fd
  | _ => none

/-- Where the coroutine on top is, with the socket that it awaits. -/
def asked (m : Server) : Option (ServerPoint × ℕ) :=
  m.runtime.stack.head?.bind fun coro =>
    (awaited (m.phase coro).current).bind fun fd =>
      (m.runtime.loop.socks fd).map fun sock => ((m.phase coro).current, sock)

def Service.serve (s : Service) (a : TaskPrograms.Act ServerPoint Received) : Option Service :=
  (EchoServers.step s.machine a).bind fun machine =>
    match a with
    | .answer received =>
      (asked s.machine).bind fun (point, sock) =>
        if Given point received then
          (transfer point received (s.wires sock)).map fun wire =>
            ⟨machine, Function.update s.wires sock wire⟩
        else none
    | _ => some { s with machine := machine }

def step (s : Service) : Act → Option Service
  | .server a => s.serve a
  | .client sock a =>
    ((s.wires sock).step id a).map fun wire =>
      { s with wires := Function.update s.wires sock wire }

/-- What an answer is to the session at the end of a connection. -/
def moves : Received → List EchoConnections.Act
  | .accepted _ => []
  | .read revent outcome => [.session (.read revent outcome)]
  | .write revent outcome => [.session (.write revent outcome)]

/-- What a step is for the connection of one socket. -/
def onLink (sock : ℕ) (s : Service) : Act → List EchoConnections.Act
  | .client other a => if other = sock then [.client a] else []
  | .server (.answer received) =>
    (asked s.machine).elim [] fun (_, other) => if other = sock then moves received else []
  | .server _ => []

def joined (s : Service) : Act → List (Frame × ℕ)
  | .server a => attends s.machine a
  | .client _ _ => []

inductive Step (s : Service) : Act → Service → Prop
  | client (sock : ℕ) (a : ClientAct) (wire : Wire Byte)
      (hwire : (s.wires sock).step id a = some wire) :
      Step s (.client sock a) { s with wires := Function.update s.wires sock wire }
  | quiet (a : TaskPrograms.Act ServerPoint Received) (machine : Server)
      (ha : ∀ received, a ≠ .answer received)
      (hstep : EchoServers.step s.machine a = some machine) :
      Step s (.server a) { s with machine := machine }
  | answer (received : Received) (coro : Frame) (below : List Frame) (fd sock : ℕ)
      (machine : Server) (wire : Wire Byte) (hstack : s.machine.runtime.stack = coro :: below)
      (hawaited : awaited (s.machine.phase coro).current = some fd)
      (hsock : s.machine.runtime.loop.socks fd = some sock)
      (hgiven : Given (s.machine.phase coro).current received)
      (hstep : EchoServers.step s.machine (.answer received) = some machine)
      (hwire : transfer (s.machine.phase coro).current received (s.wires sock) = some wire) :
      Step s (.server (.answer received)) ⟨machine, Function.update s.wires sock wire⟩

section Steps

variable {s s' : Service}

theorem asked_eq_some {m : Server} {point : ServerPoint} {sock : ℕ} :
    asked m = some (point, sock) ↔ ∃ coro below fd, m.runtime.stack = coro :: below ∧
      (m.phase coro).current = point ∧ awaited point = some fd ∧
        m.runtime.loop.socks fd = some sock := by
  cases hstack : m.runtime.stack with
  | nil => simp [asked, hstack]
  | cons coro below =>
    simp only [asked, hstack, List.head?_cons, Option.bind_some, Option.bind_eq_some_iff,
      Option.map_eq_some_iff, Prod.mk.injEq, List.cons.injEq]
    constructor
    · rintro ⟨fd, hawaited, sock, hsock, rfl, rfl⟩
      exact ⟨coro, below, fd, ⟨rfl, rfl⟩, rfl, hawaited, hsock⟩
    · rintro ⟨coro, below, fd, ⟨rfl, rfl⟩, rfl, hawaited, hsock⟩
      exact ⟨fd, hawaited, sock, hsock, rfl, rfl⟩

theorem step_cases {a : Act} (h : step s a = some s') : Step s a s' := by
  cases a with
  | client sock a =>
    obtain ⟨wire, hwire, rfl⟩ := Option.map_eq_some_iff.mp h
    exact .client sock a wire hwire
  | server a =>
    obtain ⟨machine, hstep, h⟩ := Option.bind_eq_some_iff.mp h
    cases a with
    | answer received =>
      obtain ⟨⟨point, sock⟩, hasked, h⟩ := Option.bind_eq_some_iff.mp h
      obtain ⟨coro, below, fd, hstack, rfl, hawaited, hsock⟩ := asked_eq_some.mp hasked
      obtain ⟨hgiven, h⟩ := Option.ite_none_right_eq_some.mp h
      obtain ⟨wire, hwire, rfl⟩ := Option.map_eq_some_iff.mp h
      exact .answer received coro below fd sock machine wire hstack hawaited hsock hgiven hstep
        hwire
    | spawn | emit | sleep | suspend | openSocket | closeSocket | done | call | awaitTask
    | destroyTask | finish | leave | refuse | sched =>
      obtain rfl := Option.some.inj h
      exact .quiet _ machine nofun hstep

theorem onLink_quiet {a : TaskPrograms.Act ServerPoint Received}
    (ha : ∀ received, a ≠ .answer received) (sock : ℕ) : onLink sock s (.server a) = [] := by
  cases a with
  | answer received => exact absurd rfl (ha received)
  | spawn | emit | sleep | suspend | openSocket | closeSocket | done | call | awaitTask
  | destroyTask | finish | leave | refuse | sched => rfl

end Steps

section Links

variable {link : Connection} {point : ServerPoint} {received : Received}

def plain (link : Connection) : Wire Byte := link.toWire.map Prod.fst

theorem linked_of_client {wire : Wire Byte} {a : ClientAct}
    (h : (plain link).step id a = some wire) :
    ∃ link', EchoConnections.step link (.client a) = some link' ∧ plain link' = wire ∧
      link'.session = link.session := by
  rw [plain, Wire.step_map] at h
  obtain ⟨wire', hwire, rfl⟩ := Option.map_eq_some_iff.mp h
  exact ⟨{ link with toWire := wire' }, Option.map_eq_some_iff.mpr ⟨wire', hwire, rfl⟩, rfl, rfl⟩

theorem session_of_moves {link' : Connection} {op : Operation Empty}
    (h : Runs.exec EchoConnections.step link (moves received) = some link') :
    Runs.exec EchoSessions.step link.session (shows (.performed op (.received received))) =
      some link'.session := by
  have hsession : ∀ b, Runs.exec EchoConnections.step link [.session b] = some link' →
      Runs.exec EchoSessions.step link.session [b] = some link'.session := by
    intro b hb
    obtain ⟨link₁, hstep, hnil⟩ := Runs.exec_cons_eq_some.mp hb
    obtain rfl := Option.some.inj hnil
    cases EchoConnections.step_cases hstep with
    | session _ session bytes rest hup hread hsession => exact Runs.exec_one hsession
  cases received with
  | accepted =>
    obtain rfl := Option.some.inj h
    rfl
  | read revent outcome => exact hsession _ h
  | write revent outcome => exact hsession _ h

theorem possible_of_given (h : Given point received) (op : Operation Empty)
    (below : List ServerPoint) :
    Possible (point :: below) (.performed op (.received received)) := by
  cases point with
  | reading | writing => cases received <;> exact h
  | starting | listening | accepted | adding | sweeping | erasing | closing | leaving | stopped
  | session | ended => trivial

theorem moves_of_run (hpoint : OfRun point) (hgiven : Given point received) (w : Wire Byte) :
    moves received = [] ∧ transfer point received w = some w := by
  cases point with
  | listening =>
    cases received with
    | accepted => exact ⟨rfl, rfl⟩
    | read | write => exact hgiven.elim
  | session | reading | writing | ended => exact hpoint.elim
  | starting | accepted | adding | sweeping | erasing | closing | leaving | stopped =>
    exact hgiven.elim

/-- The echo session reads what the coroutine takes off the wire. -/
theorem linked_of_read {fd : ℕ} {revent : Event} {outcome : Except Errno (List Byte)}
    {wire : Wire Byte} (hphase : link.session.phase = .reading)
    (hgiven : Reads (.received (.read revent outcome)))
    (hwire : transfer (.reading fd) (.read revent outcome) (plain link) = some wire) :
    ∃ link', EchoConnections.step link (.session (.read revent outcome)) = some link' ∧
      plain link' = wire := by
  have hstep : EchoSessions.step link.session (.read revent outcome) =
      (readResume revent outcome).bind link.session.afterRead := by
    simp only [EchoSessions.step, hphase]
  obtain ⟨result, hresult⟩ := result_of_reads hgiven
  simp only [transfer, hresult] at hwire
  rw [hresult, Option.bind_some] at hstep
  cases result with
  | error code =>
    obtain rfl := Option.some.inj hwire
    refine ⟨{ link with session.phase := .finished }, ?_, rfl⟩
    simp [EchoConnections.step, hstep, EchoSessions.Session.afterRead, Connection.afterSession]
  | ok bytes =>
    obtain ⟨hup, hwire⟩ := Option.ite_none_right_eq_some.mp hwire
    obtain rfl := Option.some.inj hwire
    rw [EchoSessions.Session.afterRead, if_pos (length_of_read hgiven hresult)] at hstep
    rw [EchoConnections.step, hstep, Option.bind_some, Connection.afterSession, List.drop_left]
    exact ⟨_, if_pos hup, by simp [plain, Wire.map]⟩

/-- The echo session writes what the coroutine puts on the wire. -/
theorem linked_of_write {fd : ℕ} {revent : Event} {outcome : Except Errno ℕ}
    {buffer : List (Byte × ℕ)} {wire : Wire Byte} (hphase : link.session.phase = .writing buffer)
    (hgiven : Writes (buffer.map Prod.fst) (.received (.write revent outcome)))
    (hwire : transfer (.writing fd (buffer.map Prod.fst)) (.write revent outcome) (plain link) =
      some wire) :
    ∃ link', EchoConnections.step link (.session (.write revent outcome)) = some link' ∧
      plain link' = wire := by
  have hstep : EchoSessions.step link.session (.write revent outcome) =
      link.session.afterWrite buffer (writeResume revent outcome) := by
    simp only [EchoSessions.step, hphase]
  simp only [transfer] at hwire
  cases hresult : writeResume revent outcome with
  | error code =>
    rw [hresult] at hwire hstep
    obtain rfl := Option.some.inj hwire
    refine ⟨{ link with session.phase := .finished }, ?_, rfl⟩
    simp [EchoConnections.step, hstep, EchoSessions.Session.afterWrite, Connection.afterSession]
  | ok n =>
    rw [hresult] at hwire hstep
    obtain rfl := Option.some.inj hwire
    have hn := length_of_write hgiven hresult
    rw [List.length_map] at hn
    rw [EchoSessions.Session.afterWrite, if_pos hn] at hstep
    rw [EchoConnections.step, hstep, Option.bind_some, Connection.afterSession]
    exact ⟨_, if_pos (by simp), by simp [plain, Wire.map]⟩

theorem linked_of_answer {fd : ℕ} {below : List ServerPoint} {wire : Wire Byte}
    (hserves : Serves fd (point :: below) link.session) (hgiven : Given point received)
    (hwire : transfer point received (plain link) = some wire) :
    ∃ link', Runs.exec EchoConnections.step link (moves received) = some link' ∧
      plain link' = wire := by
  generalize hpoints : point :: below = points at hserves
  generalize hsession : link.session = t at hserves
  cases hserves with
  | begun =>
    obtain ⟨rfl, -⟩ := List.cons.inj hpoints
    exact hgiven.elim
  | reading _ hphase =>
    subst hsession
    obtain ⟨rfl, -⟩ := List.cons.inj hpoints
    cases received with
    | read revent outcome =>
      obtain ⟨link', hstep, hplain⟩ := linked_of_read hphase hgiven hwire
      exact ⟨link', Runs.exec_one hstep, hplain⟩
    | accepted | write => exact hgiven.elim
  | writing _ buffer hphase =>
    subst hsession
    obtain ⟨rfl, -⟩ := List.cons.inj hpoints
    cases received with
    | write revent outcome =>
      obtain ⟨link', hstep, hplain⟩ := linked_of_write hphase hgiven hwire
      exact ⟨link', Runs.exec_one hstep, hplain⟩
    | accepted | read => exact hgiven.elim
  | ended _ _ hphase hended =>
    have hmem : point ∈ points := hpoints ▸ List.mem_cons_self
    obtain rfl : point = .ended := by simpa using hended.subset hmem
    exact hgiven.elim

/-- The session goes on as its coroutine does. -/
theorem serves_of_answer {fd : ℕ} {op : Operation Empty} {below points : List ServerPoint}
    {link' : Connection} (hserves : Serves fd (point :: below) link.session)
    (hgiven : Given point received)
    (hmark : CallStacks.step serverCode (point :: below) (.performed op (.received received)) =
      some points)
    (hlink : Runs.exec EchoConnections.step link (moves received) = some link') :
    Serves fd points link'.session := by
  obtain ⟨t, ht, hserves'⟩ := step_serves hserves (possible_of_given hgiven op below) hmark
  rw [session_of_moves hlink] at ht
  rwa [Option.some.inj ht]

end Links

/-- The points at which the coroutines of a thread go on. -/
def Service.points (s : Service) (thread : Frame) : List ServerPoint :=
  (s.machine.calls thread).map fun coro => (s.machine.phase coro).current

/-- The coroutines of a session stand where the session on the connection of its socket
does, and the wires have what is left on these connections. -/
structure Attended (s : Service) (links : ℕ → Connection) (born : List (Birth ServerPoint))
    (pairs : List (Frame × ℕ)) : Prop where
  tended : Tended s.machine born
  paired : Paired s.machine pairs
  wires : ∀ sock, s.wires sock = plain (links sock)
  fresh : ∀ sock, sock ∉ pairs.map Prod.snd → (links sock).session = EchoSessions.start
  serves : ∀ pair ∈ pairs, ∀ fd, s.machine.bodies pair.1 = some (.session fd) →
    Serves fd (s.points pair.1) (links pair.2).session

section Attendance

variable {s s' : Service} {links : ℕ → Connection} {born : List (Birth ServerPoint)}
  {pairs : List (Frame × ℕ)} {sock : ℕ}

/-- A session that is not resumed stays where it is, whatever calls return in its thread. -/
theorem serves_of_quiet {fd : ℕ} {points points' : List ServerPoint} {t : EchoSessions.Session}
    {marks : List ServerMark}
    (hmarks : ∀ awaiter fd answer, .performed (.awaitSocket awaiter fd) answer ∉ marks)
    (ht : Serves fd points t)
    (h : Runs.exec (CallStacks.step serverCode) points marks = some points') :
    Serves fd points' t := by
  induction marks generalizing points with
  | nil =>
    obtain rfl := Option.some.inj h
    exact ht
  | cons mark rest ih =>
    obtain ⟨points₁, hstep, hrest⟩ := Runs.exec_cons_eq_some.mp h
    have hnone : shows mark = [] ∧ Possible points mark := by
      have hsocket := step_onSocket ht.stands hstep
      cases mark with
      | performed op answer =>
        obtain ⟨awaiter, rfl⟩ := hsocket
        exact absurd List.mem_cons_self (hmarks awaiter fd answer)
      | called | spawned | returned =>
        refine ⟨rfl, ?_⟩
        cases points with
        | nil => trivial
        | cons point => cases point <;> trivial
    obtain ⟨t', hshows, ht'⟩ := step_serves ht hnone.2 hstep
    rw [hnone.1] at hshows
    obtain rfl := Option.some.inj hshows
    exact ih (fun awaiter fd answer hmem => hmarks awaiter fd answer (List.mem_cons_of_mem _ hmem))
      ht' hrest

theorem wires_update {link : Connection} (h : ∀ sock, s.wires sock = plain (links sock))
    (sock other : ℕ) : Function.update s.wires sock (plain link) other =
      plain (Function.update links sock link other) := by
  by_cases heq : other = sock
  · rw [heq, Function.update_self, Function.update_self]
  · rw [Function.update_of_ne heq, Function.update_of_ne heq, h]

theorem Attended.client {link : Connection} (hs : Attended s links born pairs)
    (hlink : link.session = (links sock).session) :
    Attended { s with wires := Function.update s.wires sock (plain link) }
      (Function.update links sock link) born pairs := by
  have hsession : ∀ other, (Function.update links sock link other).session =
      (links other).session := by
    intro other
    by_cases heq : other = sock
    · rw [heq, Function.update_self, hlink]
    · rw [Function.update_of_ne heq]
  refine ⟨hs.tended, hs.paired, wires_update hs.wires sock, ?_, ?_⟩
  · intro other hother
    rw [hsession]
    exact hs.fresh other hother
  · intro pair hpair fd hbody
    rw [hsession]
    exact hs.serves pair hpair fd hbody

theorem Attended.serves_old {a : TaskPrograms.Act ServerPoint Received} {machine : Server}
    (hs : Attended s links born pairs) (ha : ∀ received, a ≠ .answer received)
    (hstep : EchoServers.step s.machine a = some machine) {pair : Frame × ℕ} (hpair : pair ∈ pairs)
    {fd : ℕ} (hbody' : machine.bodies pair.1 = some (.session fd)) :
    Serves fd (({ s with machine := machine } : Service).points pair.1)
      (links pair.2).session := by
  obtain ⟨k, hbody⟩ := hs.paired.sessions pair hpair
  obtain rfl : fd = k := by
    have hsame := hbody'.symm.trans (step_session hs.tended hstep hbody).1
    exact ServerPoint.session.inj (Option.some.inj hsame)
  have hturn := (Option.ite_none_right_eq_some.mp hstep).2
  have hexec := (step_threaded hs.tended.threaded hturn).2.exec pair.1 _ hbody'
  rcases log_of_step hturn pair.1 with ⟨-, runtime, hstart⟩ | ⟨-, marks, hlog, hmarks⟩
  · exact absurd (hs.tended.threaded.roots pair.1 (by simp [hbody])) (started hstart).1
  · rw [hlog, Runs.exec_append, hs.tended.threaded.exec pair.1 _ hbody] at hexec
    refine serves_of_quiet ?_ (hs.serves pair hpair fd hbody) hexec
    intro awaiter k answer hmem
    obtain ⟨received, hreceived⟩ := hmarks awaiter k answer hmem
    exact ha received hreceived

theorem Attended.quiet {a : TaskPrograms.Act ServerPoint Received} {machine : Server}
    (hs : Attended s links born pairs) (ha : ∀ received, a ≠ .answer received)
    (hstep : EchoServers.step s.machine a = some machine) :
    Attended { s with machine := machine } links (born ++ births serverCode s.machine a)
      (pairs ++ attends s.machine a) := by
  have htended := step_tended hs.tended hstep
  have hpaired := step_paired hs.tended hs.paired hstep
  refine ⟨htended, hpaired, hs.wires, ?_, ?_⟩
  · intro sock hsock
    rw [List.map_append, List.mem_append, not_or] at hsock
    exact hs.fresh sock hsock.1
  · intro pair hpair fd hbody
    rcases List.mem_append.mp hpair with hpair | hpair
    · exact hs.serves_old ha hstep hpair hbody
    · rcases attends_cases hs.tended hstep with ⟨hnone, -⟩ |
        ⟨coro, task, listener, conn, clients, sock, -, hpoint, -, hfresh, hsock, hone⟩
      · rw [hnone] at hpair
        cases hpair
      · rw [hone, List.mem_singleton] at hpair
        subst hpair
        have hturn := (Option.ite_none_right_eq_some.mp hstep).2
        have hexec := htended.threaded.exec task _ hbody
        rcases log_of_step hturn task with ⟨hlog, -⟩ | ⟨hsame, -⟩
        · rw [hlog] at hexec
          rw [Service.points, ← Option.some.inj hexec,
            hs.fresh sock (hs.paired.adding coro listener conn clients hpoint sock hsock)]
          exact .begun
        · rw [hsame, hs.tended.recorded.unused hfresh] at hbody
          cases hbody

/-- The coroutine that awaits the socket under `fd` is a `run_`, or of the session that
was given this socket. -/
def Owns (s : Service) (pairs : List (Frame × ℕ)) (coro : Frame) (fd sock : ℕ) : Prop :=
  s.machine.bodies (s.machine.thread coro) = some .starting ∧
      OfRun (s.machine.phase coro).current ∨
    s.machine.bodies (s.machine.thread coro) = some (.session fd) ∧
      (s.machine.thread coro, sock) ∈ pairs

theorem Attended.owns {received : Received} {coro : Frame} {below : List Frame} {fd : ℕ}
    {machine : Server} (hs : Attended s links born pairs)
    (hstack : s.machine.runtime.stack = coro :: below)
    (hawaited : awaited (s.machine.phase coro).current = some fd)
    (hsock : s.machine.runtime.loop.socks fd = some sock)
    (hgiven : Given (s.machine.phase coro).current received)
    (hstep : EchoServers.step s.machine (.answer received) = some machine) :
    Owns s pairs coro fd sock := by
  unfold Owns
  have hturn := (Option.ite_none_right_eq_some.mp hstep).2
  obtain ⟨coro', below', point, awaiter, k, next, hstack', hphase, -⟩ := step_answer hturn
  obtain ⟨rfl, -⟩ := List.cons.inj (hstack.symm.trans hstack')
  obtain ⟨body, rest, hbody, hcalls, hstands⟩ := hs.tended.running hstack (by rw [hphase]; rfl)
  have hthread := hs.tended.undestroyed hstack (by rw [hphase]; rfl)
  have hpair : s.machine.bodies (s.machine.thread coro) = some (.session fd) →
      (s.machine.thread coro, sock) ∈ pairs := by
    intro hbody
    obtain ⟨other, hpair⟩ := hs.paired.every _ fd hbody
    have hother := hs.paired.opened _ hpair fd hbody hthread
    rwa [Option.some.inj (hsock.symm.trans hother)]
  generalize (s.machine.phase coro).current = point' at hstands hawaited hgiven ⊢
  rcases stands_cons hstands with ⟨rfl, hpoint, -⟩ | ⟨conn, rfl, rfl | rfl | ⟨bytes, rfl⟩ | rfl⟩
  · exact Or.inl ⟨hbody, hpoint⟩
  · exact hgiven.elim
  · obtain rfl := Option.some.inj hawaited
    exact Or.inr ⟨hbody, hpair hbody⟩
  · obtain rfl := Option.some.inj hawaited
    exact Or.inr ⟨hbody, hpair hbody⟩
  · exact hgiven.elim

/-- The connection of the socket takes what the coroutine is answered. -/
theorem Attended.linked {received : Received} {coro : Frame} {below : List Frame} {fd : ℕ}
    {machine : Server} {wire : Wire Byte} (hs : Attended s links born pairs)
    (hstack : s.machine.runtime.stack = coro :: below)
    (hown : Owns s pairs coro fd sock)
    (hgiven : Given (s.machine.phase coro).current received)
    (hstep : EchoServers.step s.machine (.answer received) = some machine)
    (hwire : transfer (s.machine.phase coro).current received (s.wires sock) = some wire) :
    ∃ link, Runs.exec EchoConnections.step (links sock) (moves received) = some link ∧
      plain link = wire ∧ (link = links sock ∨ (s.machine.thread coro, sock) ∈ pairs) := by
  rcases hown with ⟨-, hrun⟩ | ⟨hbody, hpair⟩
  · obtain ⟨hnone, hsame⟩ := moves_of_run hrun hgiven (s.wires sock)
    obtain rfl := Option.some.inj (hsame.symm.trans hwire)
    exact ⟨links sock, by rw [hnone]; rfl, (hs.wires sock).symm, Or.inl rfl⟩
  · obtain ⟨coro', below', point, awaiter, k, next, hstack', hphase, -⟩ :=
      step_answer (Option.ite_none_right_eq_some.mp hstep).2
    obtain ⟨rfl, -⟩ := List.cons.inj (hstack.symm.trans hstack')
    obtain ⟨-, rest, -, hcalls, -⟩ := hs.tended.running hstack (by rw [hphase]; rfl)
    have hserves := hs.serves _ hpair fd hbody
    rw [Service.points, hcalls, List.map_cons] at hserves
    rw [hs.wires sock] at hwire
    obtain ⟨link, hlink, hplain⟩ := linked_of_answer hserves hgiven hwire
    exact ⟨link, hlink, hplain, Or.inr hpair⟩

theorem Attended.answer {received : Received} {coro : Frame} {below : List Frame}
    {machine : Server} {link : Connection} (hs : Attended s links born pairs)
    (hstack : s.machine.runtime.stack = coro :: below)
    (hgiven : Given (s.machine.phase coro).current received)
    (hstep : EchoServers.step s.machine (.answer received) = some machine)
    (hlink : Runs.exec EchoConnections.step (links sock) (moves received) = some link)
    (hown : s.machine.bodies (s.machine.thread coro) = some .starting ∧ link = links sock ∨
      (s.machine.thread coro, sock) ∈ pairs) :
    Attended ⟨machine, Function.update s.wires sock (plain link)⟩
      (Function.update links sock link) born pairs := by
  have htended := step_tended hs.tended hstep
  have hpaired := step_paired hs.tended hs.paired hstep
  rw [births_of_starts rfl, List.append_nil] at htended
  rw [attends, births_of_starts rfl, List.filterMap_nil, List.append_nil] at hpaired
  have hturn := (Option.ite_none_right_eq_some.mp hstep).2
  obtain ⟨coro', below', point, awaiter, k, next, hstack', hphase, -, rfl⟩ := step_answer hturn
  obtain ⟨rfl, -⟩ := List.cons.inj (hstack.symm.trans hstack')
  obtain ⟨body, rest, -, hcalls, -⟩ := hs.tended.running hstack (by rw [hphase]; rfl)
  have hsame : ∀ other, (∀ pair ∈ pairs, pair.1 = s.machine.thread coro → pair.2 ≠ other) →
      Function.update links sock link other = links other := by
    intro other hother
    rcases hown with ⟨-, rfl⟩ | hmem
    · rw [Function.update_eq_self]
    · exact Function.update_of_ne (hother _ hmem rfl).symm ..
  refine ⟨htended, hpaired, wires_update hs.wires sock, ?_, ?_⟩
  · intro other hother
    rw [hsame other fun pair hpair _ heq => hother (heq ▸ List.mem_map_of_mem hpair)]
    exact hs.fresh other hother
  · intro pair hpair fd hbody
    have hexec := htended.threaded.exec pair.1 _ hbody
    have hbefore := hs.tended.threaded.exec pair.1 _ hbody
    have hserves := hs.serves pair hpair fd hbody
    simp only [Machine.advance] at hexec ⊢
    by_cases heq : pair.1 = s.machine.thread coro
    · have hmem : (s.machine.thread coro, sock) ∈ pairs := by
        refine hown.resolve_left fun hrun => ?_
        rw [← heq] at hrun
        cases hrun.1.symm.trans hbody
      obtain rfl := List.inj_on_of_nodup_map hs.paired.threads hpair hmem heq
      rw [Function.update_self, Runs.exec_append, hbefore] at hexec
      obtain ⟨points, hmark, hnil⟩ := Runs.exec_cons_eq_some.mp hexec
      rw [Service.points, hcalls, List.map_cons] at hserves
      rw [hcalls, List.map_cons] at hmark
      have hserves' := serves_of_answer hserves hgiven hmark hlink
      rw [Option.some.inj hnil] at hserves'
      rwa [Function.update_self]
    · rw [Function.update_of_ne heq, hbefore] at hexec
      rw [Service.points, Option.some.inj hexec] at hserves
      rw [hsame pair.2 fun other hother hthread hsock => heq ?_]
      · exact hserves
      · rw [← hthread]
        exact congrArg Prod.fst
          (List.inj_on_of_nodup_map hs.paired.socks hpair hother hsock.symm)

/-- Each connection takes the steps that are its own. -/
theorem step_attended {a : Act} (hs : Attended s links born pairs) (h : step s a = some s') :
    ∃ links' born', Attended s' links' born' (pairs ++ joined s a) ∧
      ∀ sock, Runs.exec EchoConnections.step (links sock) (onLink sock s a) =
        some (links' sock) := by
  have hupdate : ∀ {sock acts link}, Runs.exec EchoConnections.step (links sock) acts = some link →
      ∀ other, Runs.exec EchoConnections.step (links other) (if sock = other then acts else []) =
        some (Function.update links sock link other) := by
    intro sock acts link hlink other
    split_ifs with heq
    · subst heq
      rw [Function.update_self]
      exact hlink
    · rw [Function.update_of_ne (Ne.symm heq)]
      rfl
  cases step_cases h with
  | client sock a wire hwire =>
    rw [hs.wires sock] at hwire
    obtain ⟨link, hlink, rfl, hsession⟩ := linked_of_client hwire
    rw [joined, List.append_nil]
    exact ⟨_, born, hs.client hsession, hupdate (Runs.exec_one hlink)⟩
  | quiet a machine ha hstep =>
    exact ⟨links, _, hs.quiet ha hstep, fun sock => by rw [onLink_quiet ha]; rfl⟩
  | answer received coro below fd sock machine wire hstack hawaited hsock hgiven hstep hwire =>
    have hown := hs.owns hstack hawaited hsock hgiven hstep
    obtain ⟨link, hlink, rfl, hcase⟩ := hs.linked hstack hown hgiven hstep hwire
    rw [joined, attends, births_of_starts rfl, List.filterMap_nil, List.append_nil]
    refine ⟨_, born, hs.answer hstack hgiven hstep hlink ?_, ?_⟩
    · rcases hown with ⟨hbody, -⟩ | ⟨-, hpair⟩
      · exact hcase.imp_left fun hsame => ⟨hbody, hsame⟩
      · exact Or.inr hpair
    · intro other
      rw [onLink, asked_eq_some.mpr ⟨coro, below, fd, hstack, rfl, hawaited, hsock⟩]
      exact hupdate hlink other

theorem start_attended : Attended start (fun _ => EchoConnections.start) [] [] :=
  ⟨start_tended, start_paired, fun _ => rfl, fun _ _ => rfl, by simp⟩

theorem run_attended {acts : List Act} (hs : Attended s links born pairs)
    (h : Runs.exec step s acts = some s') :
    ∃ links' born', Attended s' links' born' (pairs ++ Runs.trace step joined s acts) ∧
      ∀ sock, Runs.exec EchoConnections.step (links sock)
        (Runs.trace step (onLink sock) s acts) = some (links' sock) := by
  induction acts generalizing s links born pairs with
  | nil =>
    obtain rfl := Option.some.inj h
    rw [Runs.trace, List.append_nil]
    exact ⟨links, born, hs, fun _ => rfl⟩
  | cons a rest ih =>
    obtain ⟨u, hstep, hrest⟩ := Runs.exec_cons_eq_some.mp h
    obtain ⟨links₁, born₁, hs₁, hfirst⟩ := step_attended hs hstep
    obtain ⟨links', born', hs', hlater⟩ := ih hs₁ hrest
    refine ⟨links', born', ?_, fun sock => ?_⟩
    · rwa [Runs.trace, hstep, Option.elim_some, ← List.append_assoc]
    · rw [Runs.trace, hstep, Option.elim_some, Runs.exec_append, hfirst sock, Option.bind_some]
      exact hlater sock

end Attendance

section Answers

def Arrived (w : Wire Byte) : Received → Prop
  | .read revent outcome =>
    ∀ bytes, readResume revent outcome = some (.ok bytes) → bytes <+: w.up
  | _ => True

theorem transfer_of_arrived (point : ServerPoint) {received : Received} {w : Wire Byte}
    (h : Arrived w received) : ∃ wire, transfer point received w = some wire := by
  cases received with
  | accepted => cases point <;> exact ⟨_, rfl⟩
  | read revent outcome =>
    cases point with
    | reading fd =>
      simp only [transfer]
      split
      · rename_i bytes hbytes
        exact ⟨_, if_pos (h bytes hbytes)⟩
      · exact ⟨_, rfl⟩
    | starting | listening | accepted | adding | sweeping | erasing | closing | leaving | stopped
    | session | writing | ended => exact ⟨_, rfl⟩
  | write revent outcome =>
    cases point with
    | writing fd bytes =>
      simp only [transfer]
      split <;> exact ⟨_, rfl⟩
    | starting | listening | accepted | adding | sweeping | erasing | closing | leaving | stopped
    | session | reading | ended => exact ⟨_, rfl⟩

/-- The coroutines of the thread, when they are resumed, go on with whatever epoll and the
system calls give them: their socket is there. -/
def Attentive (thread : Frame) (sock : ℕ) (s : Service) : Prop :=
  ∀ coro below point received, s.machine.runtime.stack = coro :: below →
    s.machine.thread coro = thread → s.machine.phase coro = .parked point →
    Given point received → Arrived (s.wires sock) received →
    ∃ s', step s (.server (.answer received)) = some s'

theorem Attended.attentive {s : Service} {links : ℕ → Connection}
    {born : List (Birth ServerPoint)} {pairs : List (Frame × ℕ)} {thread : Frame} {sock fd : ℕ}
    (hs : Attended s links born pairs) (hpair : (thread, sock) ∈ pairs)
    (hbody : s.machine.bodies thread = some (.session fd)) : Attentive thread sock s := by
  rintro coro below point received hstack rfl hphase hgiven harrived
  have hthread := hs.tended.undestroyed hstack (by rw [hphase]; rfl)
  have hsock := hs.paired.opened _ hpair fd hbody hthread
  obtain ⟨body, rest, hbody', -, hstands⟩ := hs.tended.running hstack (by rw [hphase]; rfl)
  obtain rfl := Option.some.inj (hbody.symm.trans hbody')
  rw [hphase, Phase.current] at hstands
  have hawaited : awaited point = some fd ∧
      ∃ machine, EchoServers.step s.machine (.answer received) = some machine := by
    simp only [EchoServers.step, ByMain, if_true, TaskPrograms.step, hstack, turn, hphase]
    rcases stands_cons hstands with ⟨hrun, -⟩ | ⟨k, hk, rfl | rfl | ⟨bytes, rfl⟩ | rfl⟩
    · cases hrun
    · exact hgiven.elim
    · obtain rfl := ServerPoint.session.inj hk
      exact ⟨rfl, _, rfl⟩
    · obtain rfl := ServerPoint.session.inj hk
      exact ⟨rfl, _, rfl⟩
    · exact hgiven.elim
  obtain ⟨hawaited, machine, hstep⟩ := hawaited
  have hasked := asked_eq_some.mpr
    ⟨coro, below, fd, hstack, by rw [hphase]; rfl, hawaited, hsock⟩
  obtain ⟨wire, hwire⟩ := transfer_of_arrived point harrived
  refine ⟨⟨machine, Function.update s.wires sock wire⟩, ?_⟩
  simp only [step, Service.serve, hstep, Option.bind_some, hasked, if_pos hgiven, hwire,
    Option.map_some]

end Answers

/-- The sessions of a run with the sockets that they were given. -/
def served (acts : List Act) : List (Frame × ℕ) := Runs.trace step joined start acts

/-- What happens on the connection of one socket. -/
def connectionRun (sock : ℕ) (acts : List Act) : List EchoConnections.Act :=
  Runs.trace step (onLink sock) start acts

/-- However many clients there are, and in whatever order they and the coroutines of the
servers go on, each session is given a socket of its own, which its descriptor stands for
until the client is destroyed. What happens on the connection of this socket is a run of
it alone: the wire has what this run leaves there, and the coroutines of the session,
which go on with whatever they are answered, are where its echo session stands, at its
end when their thread has ended. So what has been written back to the client, read by it
or on its way there, is where its bytes begin, none of them skipped or another's, in
exactly the runs in which this session writes nothing more once one of its writes was
short. -/
theorem service_echoes {acts : List Act} {s : Service}
    (h : Runs.exec step start acts = some s) :
    ((served acts).map Prod.fst).Nodup ∧ ((served acts).map Prod.snd).Nodup ∧
      (∀ thread fd, s.machine.bodies thread = some (.session fd) →
        ∃ sock, (thread, sock) ∈ served acts) ∧
      ∀ thread sock, (thread, sock) ∈ served acts → ∃ fd link,
        s.machine.bodies thread = some (.session fd) ∧
          (thread ∉ s.machine.runtime.destroyed →
            s.machine.runtime.loop.socks fd = some sock) ∧
          Runs.exec EchoConnections.step EchoConnections.start (connectionRun sock acts) =
            some link ∧
          s.wires sock = plain link ∧ Serves fd (s.points thread) link.session ∧
          (thread ∉ s.machine.runtime.live → link.session.phase = .finished) ∧
          Attentive thread sock s ∧
          (Returned link ↔ Runs.Along EchoConnections.step SessionComplete EchoConnections.start
            (connectionRun sock acts)) ∧
          (Returned link → (s.wires sock).client.received ++ (s.wires sock).down <+:
            (s.wires sock).client.sent) := by
  obtain ⟨links, born, hs, hlinks⟩ := run_attended start_attended h
  refine ⟨hs.paired.threads, hs.paired.socks, hs.paired.every, ?_⟩
  intro thread sock hpair
  obtain ⟨fd, hbody⟩ := hs.paired.sessions _ hpair
  have hserves := hs.serves _ hpair fd hbody
  refine ⟨fd, links sock, hbody, hs.paired.opened _ hpair fd hbody, hlinks sock, hs.wires sock,
    hserves, fun hended => ?_, hs.attentive hpair hbody, returned_iff_along (hlinks sock),
    fun hreturned => ?_⟩
  · have hexec := hs.tended.threaded.exec thread _ hbody
    have hdone := hexec.symm.trans (hs.tended.threaded.done hbody hended)
    rw [Service.points, Option.some.inj hdone] at hserves
    cases hserves with
    | ended _ _ hphase => exact hphase
  · rw [hs.wires sock]
    have hbytes := hreturned.map Prod.fst
    rwa [List.map_append, List.zipIdx_map_fst] at hbytes

/-- The run of the two clients with what the first of them does: it has sent two bytes of
a line, and one of them has come back. -/
def echoRun : List Act :=
  [.client 1 (.getline [97, 98, 99]), .client 1 (.write Event.write (.ok 2))] ++
    twoClients.map .server ++ [.client 1 (.read Event.read (.ok [97]))]

theorem service_echoes_echoRun : ∃ s, Runs.exec step start echoRun = some s ∧
    (s.wires 1).client.received = [97] ∧ (s.wires 1).up = [98] ∧
      (∃ link, Runs.exec EchoConnections.step EchoConnections.start (connectionRun 1 echoRun) =
        some link ∧ Returned link) ∧
      ∃ link, Runs.exec EchoConnections.step EchoConnections.start (connectionRun 2 echoRun) =
        some link ∧ link.session.phase = .finished := by
  have hrun : ((Runs.exec step start echoRun).map fun s =>
      ((s.wires 1).client.received, (s.wires 1).up, decide (3 ∈ s.machine.runtime.live))) =
        some ([97], [98], false) := by
    decide +kernel
  have hserved : served echoRun = [(1, 1), (3, 2)] := by decide +kernel
  obtain ⟨s, hs, heq⟩ := Option.map_eq_some_iff.mp hrun
  simp only [Prod.mk.injEq, decide_eq_false_iff_not] at heq
  obtain ⟨hreceived, hup, hended⟩ := heq
  obtain ⟨-, -, -, hpairs⟩ := service_echoes hs
  obtain ⟨-, first, -, -, hfirst, -, -, -, -, hreturned, -⟩ := hpairs 1 1 (by simp [hserved])
  obtain ⟨-, second, -, -, hsecond, -, -, hfinished, -⟩ := hpairs 3 2 (by simp [hserved])
  exact ⟨s, hs, hreceived, hup, ⟨first, hfirst, hreturned.mpr (by decide +kernel)⟩, second,
    hsecond, hfinished hended⟩

end Bc.EchoService
