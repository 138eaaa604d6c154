import Bc.EchoSessions
import Bc.SpawnedThreads

/-!
The echo server of `main` as a program of coroutines. `run_` listens, accepts
connections, starts a session for each and sweeps out the clients whose sessions have
ended; a session awaits the handler. This module has what one thread does by itself.
-/
namespace Bc.EchoServers

open Scheduling Polling Awaiters SpawnedThreads EchoSessions
open TaskPrograms hiding step
open EchoSessions hiding Act step Step step_cases start
open CallStacks hiding step Step step_cases

/-- An element of `clients_`. -/
structure Client where
  sock : ℕ
  task : Frame
  deriving DecidableEq

/-- Where the coroutines are. `run_` is at its first nine points, with the descriptor it
listens on and its clients: before `listen`, before and behind `async_accept`, in
`add_client_`, in the sweep at a client, before and in the destruction of one, and
behind its loop. Then come `async_session_`, the handler before its `async_read` and
before its `async_write`, and any of them at its end. -/
inductive ServerPoint
  | starting
  | listening (fd : ℕ) (clients : List Client)
  | accepted (fd conn : ℕ) (clients : List Client)
  | adding (fd conn : ℕ) (clients : List Client)
  | sweeping (fd : ℕ) (kept : List Client) (client : Client) (rest : List Client)
  | erasing (fd : ℕ) (kept : List Client) (client : Client) (rest : List Client)
  | closing (fd sock : ℕ) (kept rest : List Client)
  | leaving (fd : ℕ) (clients : List Client)
  | stopped (clients : List Client)
  | session (fd : ℕ)
  | reading (fd : ℕ)
  | writing (fd : ℕ) (bytes : List Byte)
  | ended
  deriving DecidableEq

instance : Inhabited ServerPoint := ⟨.ended⟩

/-- What a coroutine is resumed with: the result of the proxy, or the event with the
outcome of the system call. -/
inductive Received
  | accepted (result : Except ErrorCode ℕ)
  | read (revent : Event) (outcome : Except Errno (List Byte))
  | write (revent : Event) (outcome : Except Errno ℕ)

abbrev ServerMark := Mark (Operation Empty) (Answer Received)

abbrev Server := Machine ServerPoint Empty Received

def afterSocket : Answer Received → ServerPoint
  | .socket fd => .listening fd []
  | _ => .stopped []

def afterAccept (fd : ℕ) (clients : List Client) : Answer Received → ServerPoint
  | .received (.accepted (.ok conn)) => .accepted fd conn clients
  | _ => .leaving fd clients

/-- The test of the sweep's loop, with the clients that are behind its iterator. -/
def swept (fd : ℕ) (kept : List Client) : List Client → ServerPoint
  | [] => .listening fd kept
  | client :: rest => .sweeping fd kept client rest

def afterAdd (fd conn : ℕ) (clients : List Client) : Answer Received → ServerPoint
  | .task task => swept fd [] (clients ++ [⟨conn, task⟩])
  | _ => .leaving fd clients

def afterDone (fd : ℕ) (kept : List Client) (client : Client) (rest : List Client) :
    Answer Received → ServerPoint
  | .flag true => .erasing fd kept client rest
  | _ => swept fd (kept ++ [client]) rest

def afterRead (fd : ℕ) : Answer Received → ServerPoint
  | .received (.read revent outcome) =>
    match readResume revent outcome with
    | some (.ok bytes) => .writing fd bytes
    | _ => .ended
  | _ => .ended

def afterWrite (fd : ℕ) : Answer Received → ServerPoint
  | .received (.write revent outcome) =>
    match writeResume revent outcome with
    | .ok _ => .reading fd
    | .error _ => .ended
  | _ => .ended

/-- `server::run_`, `async_session_` and the handler of `main`. A client is destroyed
with its task first. -/
def serverCode : ServerPoint → Op ServerPoint (Operation Empty) (Answer Received)
  | .starting => .perform .openSocket afterSocket
  | .listening fd clients => .perform (.awaitSocket .accept fd) (afterAccept fd clients)
  | .accepted fd conn clients => .perform (.adoptSocket conn) fun _ => .adding fd conn clients
  | .adding fd conn clients => .spawn (.session conn) (afterAdd fd conn clients)
  | .sweeping fd kept client rest => .perform (.done client.task) (afterDone fd kept client rest)
  | .erasing fd kept client rest =>
    .perform (.destroyTask client.task) fun _ => .closing fd client.sock kept rest
  | .closing fd sock kept rest => .perform (.closeSocket sock) fun _ => swept fd kept rest
  | .leaving fd clients => .perform (.closeSocket fd) fun _ => .stopped clients
  | .stopped _ => .ret
  | .session fd => .call (.reading fd) .ended
  | .reading fd => .perform (.awaitSocket .read fd) (afterRead fd)
  | .writing fd _ => .perform (.awaitSocket .write fd) (afterWrite fd)
  | .ended => .ret

/-- `main` starts servers only. -/
def ByMain : Act ServerPoint Received → Prop
  | .spawn _ body => body = .starting
  | _ => True

instance : DecidablePred ByMain
  | .spawn _ body => inferInstanceAs (Decidable (body = .starting))
  | .emit | .sleep _ _ | .suspend _ | .answer _ | .openSocket _ | .closeSocket | .done | .call _
  | .awaitTask | .destroyTask | .finish | .leave | .refuse | .sched _ =>
    inferInstanceAs (Decidable True)

def step (m : Server) (a : Act ServerPoint Received) : Option Server :=
  if ByMain a then TaskPrograms.step serverCode m a else none

/-- What the code does at each point. -/
inductive Moves : List ServerPoint → ServerMark → List ServerPoint → Prop
  | listen (below : List ServerPoint) (answer : Answer Received) :
      Moves (.starting :: below) (.performed .openSocket answer) (afterSocket answer :: below)
  | accept (fd : ℕ) (clients : List Client) (below : List ServerPoint)
      (answer : Answer Received) :
      Moves (.listening fd clients :: below) (.performed (.awaitSocket .accept fd) answer)
        (afterAccept fd clients answer :: below)
  | adopt (fd conn : ℕ) (clients : List Client) (below : List ServerPoint)
      (answer : Answer Received) :
      Moves (.accepted fd conn clients :: below) (.performed (.adoptSocket conn) answer)
        (.adding fd conn clients :: below)
  | add (fd conn : ℕ) (clients : List Client) (below : List ServerPoint)
      (answer : Answer Received) :
      Moves (.adding fd conn clients :: below) (.spawned answer)
        (afterAdd fd conn clients answer :: below)
  | done (fd : ℕ) (kept : List Client) (client : Client) (rest : List Client)
      (below : List ServerPoint) (answer : Answer Received) :
      Moves (.sweeping fd kept client rest :: below) (.performed (.done client.task) answer)
        (afterDone fd kept client rest answer :: below)
  | erase (fd : ℕ) (kept : List Client) (client : Client) (rest : List Client)
      (below : List ServerPoint) (answer : Answer Received) :
      Moves (.erasing fd kept client rest :: below) (.performed (.destroyTask client.task) answer)
        (.closing fd client.sock kept rest :: below)
  | close (fd sock : ℕ) (kept rest : List Client) (below : List ServerPoint)
      (answer : Answer Received) :
      Moves (.closing fd sock kept rest :: below) (.performed (.closeSocket sock) answer)
        (swept fd kept rest :: below)
  | leave (fd : ℕ) (clients : List Client) (below : List ServerPoint)
      (answer : Answer Received) :
      Moves (.leaving fd clients :: below) (.performed (.closeSocket fd) answer)
        (.stopped clients :: below)
  | stop (clients : List Client) (below : List ServerPoint) :
      Moves (.stopped clients :: below) .returned below
  | call (fd : ℕ) (below : List ServerPoint) :
      Moves (.session fd :: below) .called (.reading fd :: .ended :: below)
  | read (fd : ℕ) (below : List ServerPoint) (answer : Answer Received) :
      Moves (.reading fd :: below) (.performed (.awaitSocket .read fd) answer)
        (afterRead fd answer :: below)
  | write (fd : ℕ) (bytes : List Byte) (below : List ServerPoint) (answer : Answer Received) :
      Moves (.writing fd bytes :: below) (.performed (.awaitSocket .write fd) answer)
        (afterWrite fd answer :: below)
  | ret (below : List ServerPoint) : Moves (.ended :: below) .returned below

theorem moves_of_step {points points' : List ServerPoint} {mark : ServerMark}
    (h : CallStacks.step serverCode points mark = some points') : Moves points mark points' := by
  cases CallStacks.step_cases h with
  | perform point below op next answer hcode =>
    cases point with
    | starting | listening | accepted | sweeping | erasing | closing | leaving | reading
    | writing =>
      obtain ⟨rfl, rfl⟩ := Op.perform.inj hcode
      constructor
    | adding | stopped | session | ended => cases hcode
  | call point below body next hcode =>
    cases point with
    | session =>
      obtain ⟨rfl, rfl⟩ := Op.call.inj hcode
      constructor
    | starting | listening | accepted | adding | sweeping | erasing | closing | leaving | stopped
    | reading | writing | ended => cases hcode
  | spawn point below body next answer hcode =>
    cases point with
    | adding =>
      obtain ⟨rfl, rfl⟩ := Op.spawn.inj hcode
      constructor
    | starting | listening | accepted | sweeping | erasing | closing | leaving | stopped | session
    | reading | writing | ended => cases hcode
  | ret point below hcode =>
    cases point with
    | stopped | ended => constructor
    | starting | listening | accepted | adding | sweeping | erasing | closing | leaving | session
    | reading | writing => cases hcode

section Answers

variable (fd conn : ℕ) (clients kept rest : List Client) (client : Client)
  (answer : Answer Received)

theorem afterSocket_cases :
    (∃ fd, answer = .socket fd ∧ afterSocket answer = .listening fd []) ∨
      afterSocket answer = .stopped [] := by
  cases answer with
  | socket fd => exact Or.inl ⟨fd, rfl, rfl⟩
  | nothing | received | flag | task => exact Or.inr rfl

theorem afterAccept_cases :
    (∃ conn, answer = .received (.accepted (.ok conn)) ∧
        afterAccept fd clients answer = .accepted fd conn clients) ∨
      (∀ conn, answer ≠ .received (.accepted (.ok conn))) ∧
        afterAccept fd clients answer = .leaving fd clients := by
  match answer with
  | .received (.accepted (.ok conn)) => exact Or.inl ⟨conn, rfl, rfl⟩
  | .received (.accepted (.error _)) | .received (.read _ _) | .received (.write _ _) | .nothing
  | .socket _ | .flag _ | .task _ => exact Or.inr ⟨nofun, rfl⟩

theorem afterAdd_cases :
    (∃ task, answer = .task task ∧
        afterAdd fd conn clients answer = swept fd [] (clients ++ [⟨conn, task⟩])) ∨
      afterAdd fd conn clients answer = .leaving fd clients := by
  cases answer with
  | task task => exact Or.inl ⟨task, rfl, rfl⟩
  | nothing | socket | received | flag => exact Or.inr rfl

theorem afterDone_cases :
    answer = .flag true ∧ afterDone fd kept client rest answer = .erasing fd kept client rest ∨
      afterDone fd kept client rest answer = swept fd (kept ++ [client]) rest := by
  match answer with
  | .flag true => exact Or.inl ⟨rfl, rfl⟩
  | .flag false | .nothing | .socket _ | .received _ | .task _ => exact Or.inr rfl

end Answers

/-- A read is resumed with an event and gets no more than the buffer holds. -/
def Reads : Answer Received → Prop
  | .received (.read revent (.ok bytes)) => revent ≠ Event.none ∧ bytes.length ≤ bufferSize
  | .received (.read revent (.error _)) => revent ≠ Event.none
  | _ => False

/-- A write takes no more than it is asked to. -/
def Writes (bytes : List Byte) : Answer Received → Prop
  | .received (.write _ (.ok n)) => n ≤ bytes.length
  | .received (.write _ (.error _)) => True
  | _ => False

/-- The answers that epoll and the system calls can give. -/
def Possible : List ServerPoint → ServerMark → Prop
  | .reading _ :: _, .performed _ answer => Reads answer
  | .writing _ bytes :: _, .performed _ answer => Writes bytes answer
  | _, _ => True

instance : DecidablePred Reads
  | .received (.read _ (.ok _)) => inferInstanceAs (Decidable (_ ≠ _ ∧ _ ≤ _))
  | .received (.read _ (.error _)) => inferInstanceAs (Decidable (_ ≠ _))
  | .received (.accepted _) | .received (.write _ _) | .nothing | .socket _ | .flag _ | .task _ =>
    inferInstanceAs (Decidable False)

instance (bytes : List Byte) : DecidablePred (Writes bytes)
  | .received (.write _ (.ok _)) => inferInstanceAs (Decidable (_ ≤ _))
  | .received (.write _ (.error _)) => inferInstanceAs (Decidable True)
  | .received (.accepted _) | .received (.read _ _) | .nothing | .socket _ | .flag _ | .task _ =>
    inferInstanceAs (Decidable False)

instance (points : List ServerPoint) (mark : ServerMark) : Decidable (Possible points mark) :=
  match points, mark with
  | .reading _ :: _, .performed _ answer => inferInstanceAs (Decidable (Reads answer))
  | .writing _ bytes :: _, .performed _ answer => inferInstanceAs (Decidable (Writes bytes answer))
  | [], _ | .starting :: _, _ | .listening _ _ :: _, _ | .accepted _ _ _ :: _, _
  | .adding _ _ _ :: _, _ | .sweeping _ _ _ _ :: _, _ | .erasing _ _ _ _ :: _, _
  | .closing _ _ _ _ :: _, _ | .leaving _ _ :: _, _ | .stopped _ :: _, _ | .session _ :: _, _
  | .ended :: _, _ | .reading _ :: _, .called | .reading _ :: _, .spawned _
  | .reading _ :: _, .returned | .writing _ _ :: _, .called | .writing _ _ :: _, .spawned _
  | .writing _ _ :: _, .returned => inferInstanceAs (Decidable True)

/-- What a mark says of the echo session. -/
def shows : ServerMark → List EchoSessions.Act
  | .performed _ (.received (.read revent outcome)) => [.read revent outcome]
  | .performed _ (.received (.write revent outcome)) => [.write revent outcome]
  | _ => []

/-- The points of `run_`. -/
def OfRun : ServerPoint → Prop
  | .session _ | .reading _ | .writing _ _ | .ended => False
  | _ => True

/-- Where the coroutines of a thread can be that has begun at `body`. -/
inductive Stands : ServerPoint → List ServerPoint → Prop
  | run (point : ServerPoint) (hpoint : OfRun point) : Stands .starting [point]
  | stopped : Stands .starting []
  | begun (fd : ℕ) : Stands (.session fd) [.session fd]
  | reading (fd : ℕ) : Stands (.session fd) [.reading fd, .ended]
  | writing (fd : ℕ) (bytes : List Byte) : Stands (.session fd) [.writing fd bytes, .ended]
  | ended (fd : ℕ) (points : List ServerPoint) (hpoints : points <:+ [.ended, .ended]) :
      Stands (.session fd) points

/-- The calls of a session stand at the same place as the echo session. -/
inductive Serves (fd : ℕ) : List ServerPoint → Session → Prop
  | begun : Serves fd [.session fd] EchoSessions.start
  | reading (s : Session) (hphase : s.phase = .reading) : Serves fd [.reading fd, .ended] s
  | writing (s : Session) (buffer : List (Byte × ℕ)) (hphase : s.phase = .writing buffer) :
      Serves fd [.writing fd (buffer.map Prod.fst), .ended] s
  | ended (points : List ServerPoint) (s : Session) (hphase : s.phase = .finished)
      (hpoints : points <:+ [.ended, .ended]) : Serves fd points s

section Runs

variable {body : ServerPoint} {points points' : List ServerPoint} {mark : ServerMark}
  {log : List ServerMark} {fd : ℕ}

theorem ofRun_swept (fd : ℕ) (kept rest : List Client) : OfRun (swept fd kept rest) := by
  cases rest <;> trivial

theorem ofRun_of_moves {point : ServerPoint} (hpoint : OfRun point)
    (h : Moves [point] mark points') : Stands .starting points' := by
  cases h with
  | listen _ answer =>
    rcases afterSocket_cases answer with ⟨fd, -, h⟩ | h <;> exact .run _ (h ▸ trivial)
  | accept fd clients _ answer =>
    rcases afterAccept_cases fd clients answer with ⟨conn, -, h⟩ | ⟨-, h⟩ <;>
      exact .run _ (h ▸ trivial)
  | adopt | erase | leave => exact .run _ trivial
  | add fd conn clients _ answer =>
    rcases afterAdd_cases fd conn clients answer with ⟨task, -, h⟩ | h
    · exact .run _ (h ▸ ofRun_swept ..)
    · exact .run _ (h ▸ trivial)
  | done fd kept client rest _ answer =>
    rcases afterDone_cases fd kept rest client answer with ⟨-, h⟩ | h
    · exact .run _ (h ▸ trivial)
    · exact .run _ (h ▸ ofRun_swept ..)
  | close => exact .run _ (ofRun_swept ..)
  | stop => exact .stopped
  | call | read | write | ret => exact hpoint.elim

theorem stands_afterRead (fd : ℕ) (answer : Answer Received) :
    Stands (.session fd) [afterRead fd answer, .ended] := by
  unfold afterRead
  split
  · split
    · exact .writing fd _
    · exact .ended fd _ (List.suffix_refl _)
  · exact .ended fd _ (List.suffix_refl _)

theorem stands_afterWrite (fd : ℕ) (answer : Answer Received) :
    Stands (.session fd) [afterWrite fd answer, .ended] := by
  unfold afterWrite
  split
  · split
    · exact .reading fd
    · exact .ended fd _ (List.suffix_refl _)
  · exact .ended fd _ (List.suffix_refl _)

/-- Only the return of a coroutine is left where all of them have ended. -/
theorem moves_of_ended (hpoints : points <:+ [.ended, .ended]) (h : Moves points mark points') :
    mark = .returned ∧ points' <:+ [.ended, .ended] := by
  have hended : ∀ point ∈ points, point = .ended :=
    fun point hpoint => by simpa using hpoints.subset hpoint
  cases h with
  | ret => exact ⟨rfl, (List.suffix_cons _ _).trans hpoints⟩
  | _ => cases hended _ List.mem_cons_self

/-- Where the coroutine is that runs in a thread. -/
theorem stands_cons {point : ServerPoint} {below : List ServerPoint}
    (h : Stands body (point :: below)) :
    body = .starting ∧ OfRun point ∧ below = [] ∨ ∃ fd, body = .session fd ∧
      (point = .session fd ∨ point = .reading fd ∨ (∃ bytes, point = .writing fd bytes) ∨
        point = .ended) := by
  generalize hpoints : point :: below = points at h
  cases h with
  | run _ hpoint =>
    obtain ⟨rfl, rfl⟩ := List.cons.inj hpoints
    exact Or.inl ⟨rfl, hpoint, rfl⟩
  | stopped => cases hpoints
  | begun fd =>
    obtain ⟨rfl, -⟩ := List.cons.inj hpoints
    exact Or.inr ⟨fd, rfl, Or.inl rfl⟩
  | reading fd =>
    obtain ⟨rfl, -⟩ := List.cons.inj hpoints
    exact Or.inr ⟨fd, rfl, Or.inr (Or.inl rfl)⟩
  | writing fd bytes =>
    obtain ⟨rfl, -⟩ := List.cons.inj hpoints
    exact Or.inr ⟨fd, rfl, Or.inr (Or.inr (Or.inl ⟨bytes, rfl⟩))⟩
  | ended fd _ hended =>
    have hmem : point ∈ points := hpoints ▸ List.mem_cons_self
    exact Or.inr ⟨fd, rfl, Or.inr (Or.inr (Or.inr (by simpa using hended.subset hmem)))⟩

/-- The operation of a mark is on this socket. -/
def OnSocket (fd : ℕ) : ServerMark → Prop
  | .performed op _ => ∃ awaiter, op = .awaitSocket awaiter fd
  | _ => True

theorem step_stands (hs : Stands body points)
    (h : CallStacks.step serverCode points mark = some points') : Stands body points' := by
  have hmoves := moves_of_step h
  cases hs with
  | run point hpoint => exact ofRun_of_moves hpoint hmoves
  | stopped => cases hmoves
  | begun fd =>
    cases hmoves
    exact .reading fd
  | reading fd =>
    cases hmoves
    exact stands_afterRead fd _
  | writing fd bytes =>
    cases hmoves
    exact stands_afterWrite fd _
  | ended fd points hpoints => exact .ended fd _ (moves_of_ended hpoints hmoves).2

theorem step_onSocket (hs : Stands (.session fd) points)
    (h : CallStacks.step serverCode points mark = some points') : OnSocket fd mark := by
  have hmoves := moves_of_step h
  cases hs with
  | begun =>
    cases hmoves
    trivial
  | reading | writing =>
    cases hmoves
    exact ⟨_, rfl⟩
  | ended _ _ hpoints =>
    rw [(moves_of_ended hpoints hmoves).1]
    trivial

theorem run_stands (hs : Stands body points)
    (h : Runs.exec (CallStacks.step serverCode) points log = some points') :
    Stands body points' :=
  Runs.exec_preserves (fun _ _ _ hs hstep => step_stands hs hstep) hs h

theorem run_onSocket (hs : Stands (.session fd) points)
    (h : Runs.exec (CallStacks.step serverCode) points log = some points') :
    ∀ mark ∈ log, OnSocket fd mark := by
  induction log generalizing points with
  | nil => simp
  | cons mark rest ih =>
    obtain ⟨points₁, hstep, hrest⟩ := Runs.exec_cons_eq_some.mp h
    exact List.forall_mem_cons.mpr ⟨step_onSocket hs hstep, ih (step_stands hs hstep) hrest⟩

end Runs

section Sessions

variable {fd : ℕ} {s : Session}

theorem Serves.stands {points : List ServerPoint} (h : Serves fd points s) :
    Stands (.session fd) points := by
  cases h with
  | begun => exact .begun fd
  | reading => exact .reading fd
  | writing => exact .writing fd _
  | ended _ _ _ hpoints => exact .ended fd points hpoints

theorem length_of_read {revent : Event} {outcome : Except Errno (List Byte)} {bytes : List Byte}
    (hanswer : Reads (.received (.read revent outcome)))
    (h : readResume revent outcome = some (.ok bytes)) : bytes.length ≤ bufferSize := by
  cases readResume_cases h with
  | negligible => exact Nat.zero_le _
  | bytes _ hquiet hread =>
    subst hread
    exact hanswer.2

theorem length_of_write {revent : Event} {outcome : Except Errno ℕ} {bytes : List Byte} {n : ℕ}
    (hanswer : Writes bytes (.received (.write revent outcome)))
    (h : writeResume revent outcome = .ok n) : n ≤ bytes.length := by
  unfold writeResume transferResume at h
  split_ifs at h
  cases outcome with
  | error errno =>
    simp only at h
    split_ifs at h
    obtain rfl := Except.ok.inj h
    exact Nat.zero_le _
  | ok m =>
    obtain rfl := Except.ok.inj h
    exact hanswer

theorem result_of_reads {revent : Event} {outcome : Except Errno (List Byte)}
    (h : Reads (.received (.read revent outcome))) :
    ∃ result, readResume revent outcome = some result := by
  have hevent : revent ≠ Event.none := by
    cases outcome with
    | error => exact h
    | ok => exact h.1
  rw [readResume_eq, if_neg hevent]
  exact ⟨_, rfl⟩

theorem serves_read {op : Operation Empty} {answer : Answer Received} (hphase : s.phase = .reading)
    (hanswer : Reads answer) :
    ∃ s', Runs.exec EchoSessions.step s (shows (.performed op answer)) = some s' ∧
      Serves fd [afterRead fd answer, .ended] s' := by
  match answer with
  | .received (.read revent outcome) =>
    have hstep : EchoSessions.step s (.read revent outcome) =
        (readResume revent outcome).bind s.afterRead := by
      simp only [EchoSessions.step, hphase]
    obtain ⟨result, hresult⟩ := result_of_reads hanswer
    rw [hresult] at hstep
    rw [afterRead, hresult]
    cases result with
    | error code =>
      exact ⟨_, Runs.exec_one hstep, .ended _ _ rfl (List.suffix_refl _)⟩
    | ok bytes =>
      rw [Option.bind_some, Session.afterRead, if_pos (length_of_read hanswer hresult)] at hstep
      refine ⟨_, Runs.exec_one hstep, ?_⟩
      have hserves : Serves fd [.writing fd ((bytes.zipIdx s.read.length).map Prod.fst), .ended]
          { s with phase := .writing (bytes.zipIdx s.read.length), read := s.read ++ bytes } :=
        .writing _ _ rfl
      rwa [List.zipIdx_map_fst] at hserves

theorem serves_write {op : Operation Empty} {answer : Answer Received} {buffer : List (Byte × ℕ)}
    (hphase : s.phase = .writing buffer) (hanswer : Writes (buffer.map Prod.fst) answer) :
    ∃ s', Runs.exec EchoSessions.step s (shows (.performed op answer)) = some s' ∧
      Serves fd [afterWrite fd answer, .ended] s' := by
  match answer with
  | .received (.write revent outcome) =>
    have hstep : EchoSessions.step s (.write revent outcome) =
        s.afterWrite buffer (writeResume revent outcome) := by
      simp only [EchoSessions.step, hphase]
    rw [afterWrite]
    cases hresult : writeResume revent outcome with
    | error code =>
      rw [hresult] at hstep
      exact ⟨_, Runs.exec_one hstep, .ended _ _ rfl (List.suffix_refl _)⟩
    | ok n =>
      have hn := length_of_write hanswer hresult
      rw [List.length_map] at hn
      rw [hresult, Session.afterWrite, if_pos hn] at hstep
      exact ⟨_, Runs.exec_one hstep, .reading _ rfl⟩

theorem step_serves {points points' : List ServerPoint} {mark : ServerMark}
    (hs : Serves fd points s) (hpossible : Possible points mark)
    (h : CallStacks.step serverCode points mark = some points') :
    ∃ s', Runs.exec EchoSessions.step s (shows mark) = some s' ∧ Serves fd points' s' := by
  have hmoves := moves_of_step h
  cases hs with
  | begun =>
    cases hmoves
    exact ⟨_, rfl, .reading _ rfl⟩
  | reading _ hphase =>
    cases hmoves
    exact serves_read hphase hpossible
  | writing _ buffer hphase =>
    cases hmoves
    exact serves_write hphase hpossible
  | ended _ _ hphase hpoints =>
    obtain ⟨rfl, hpoints'⟩ := moves_of_ended hpoints hmoves
    exact ⟨s, rfl, .ended _ _ hphase hpoints'⟩

theorem run_serves {points points' : List ServerPoint} {log : List ServerMark}
    (hs : Serves fd points s)
    (hpossible : Runs.Along (CallStacks.step serverCode) Possible points log)
    (h : Runs.exec (CallStacks.step serverCode) points log = some points') :
    ∃ s', Runs.exec EchoSessions.step s (log.flatMap shows) = some s' ∧ Serves fd points' s' := by
  induction log generalizing points s with
  | nil =>
    obtain rfl := Option.some.inj h
    exact ⟨s, rfl, hs⟩
  | cons mark rest ih =>
    obtain ⟨points₁, hstep, hrest⟩ := Runs.exec_cons_eq_some.mp h
    obtain ⟨hfirst, hlater⟩ := Runs.along_cons.mp hpossible
    obtain ⟨s₁, hshows, hs₁⟩ := step_serves hs hfirst hstep
    obtain ⟨s', hrun, hs'⟩ := ih hs₁ (hlater points₁ hstep) hrest
    refine ⟨s', ?_, hs'⟩
    rw [List.flatMap_cons, Runs.exec_append, hshows]
    exact hrun

/-- What the session has written is where its bytes begin, unless a write was short. -/
theorem step_echoes {s' : Session} {a : EchoSessions.Act}
    (hs : Ordered s ∧ (s.short = false → Echoed s)) (h : EchoSessions.step s a = some s') :
    Ordered s' ∧ (s'.short = false → Echoed s') := by
  refine ⟨step_ordered hs.1 h, fun hfull => ?_⟩
  have hshort : s.short = false := by
    cases EchoSessions.step_cases h with
    | read | finish => exact hfull
    | write => exact (Bool.or_eq_false_iff.mp hfull).1
  refine (step_echoed_iff hs.1 (hs.2 hshort) h).mpr fun htrue => ?_
  rw [hshort] at htrue
  cases htrue

end Sessions

section Connections

/-- The connection that `async_accept` has answered with. -/
def connection : ServerMark → Option ℕ
  | .performed (.awaitSocket .accept _) (.received (.accepted (.ok conn))) => some conn
  | _ => none

/-- The session that `run_` is about to start. -/
def inHand : ServerPoint → List ServerPoint
  | .accepted _ conn _ => [.session conn]
  | .adding _ conn _ => [.session conn]
  | _ => []

variable {points points' : List ServerPoint}

theorem inHand_swept (fd : ℕ) (kept rest : List Client) : inHand (swept fd kept rest) = [] := by
  cases rest <;> rfl

/-- Whatever `run_` accepts it has in hand until it starts a session for it. -/
theorem accepts_of_moves {point : ServerPoint} {mark : ServerMark} (hpoint : OfRun point)
    (h : Moves [point] mark points') :
    inHand point ++ (connection mark).toList.map .session =
      spawnAt serverCode [point] mark ++ points'.flatMap inHand := by
  cases h with
  | listen _ answer =>
    rw [List.flatMap_singleton]
    rcases afterSocket_cases answer with ⟨fd, -, h⟩ | h <;> rw [h] <;> rfl
  | accept fd clients _ answer =>
    rw [List.flatMap_singleton]
    rcases afterAccept_cases fd clients answer with ⟨conn, rfl, -⟩ | ⟨hnone, h⟩
    · rfl
    · rw [h]
      simp [connection, hnone, inHand, spawnAt]
  | adopt | erase | leave | stop => rfl
  | add fd conn clients _ answer =>
    rw [List.flatMap_singleton]
    rcases afterAdd_cases fd conn clients answer with ⟨task, -, h⟩ | h
    · rw [h, inHand_swept]
      rfl
    · rw [h]
      rfl
  | done fd kept client rest _ answer =>
    rw [List.flatMap_singleton]
    rcases afterDone_cases fd kept rest client answer with ⟨-, h⟩ | h
    · rw [h]
      rfl
    · rw [h, inHand_swept]
      rfl
  | close =>
    rw [List.flatMap_singleton, inHand_swept]
    rfl
  | call | read | write | ret => exact hpoint.elim

theorem step_accepts {mark : ServerMark} (hs : Stands .starting points)
    (h : CallStacks.step serverCode points mark = some points') :
    points.flatMap inHand ++ (connection mark).toList.map .session =
      spawnAt serverCode points mark ++ points'.flatMap inHand := by
  have hmoves := moves_of_step h
  cases hs with
  | run point hpoint =>
    rw [List.flatMap_singleton]
    exact accepts_of_moves hpoint hmoves
  | stopped => cases hmoves

theorem run_accepts {log : List ServerMark} (hs : Stands .starting points)
    (h : Runs.exec (CallStacks.step serverCode) points log = some points') :
    points.flatMap inHand ++ (log.filterMap connection).map .session =
      Runs.trace (CallStacks.step serverCode) (spawnAt serverCode) points log ++
        points'.flatMap inHand := by
  induction log generalizing points with
  | nil =>
    obtain rfl := Option.some.inj h
    exact List.append_nil _
  | cons mark rest ih =>
    obtain ⟨points₁, hstep, hrest⟩ := Runs.exec_cons_eq_some.mp h
    have hfirst := step_accepts hs hstep
    have hlater := ih (step_stands hs hstep) hrest
    have hcons : (mark :: rest).filterMap connection =
        (connection mark).toList ++ rest.filterMap connection := by
      rw [List.filterMap_cons]
      cases connection mark <;> rfl
    rw [hcons, List.map_append, ← List.append_assoc, hfirst, List.append_assoc, hlater,
      Runs.trace, hstep, Option.elim_some, List.append_assoc]

end Connections

end Bc.EchoServers
