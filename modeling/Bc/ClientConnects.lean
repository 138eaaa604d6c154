import Bc.Connecting
import Bc.SocketObjects

/-!
Clients. A client connects its socket and then calls the user's handler on it. What
the connecting yields is not looked at, so the handler is started on the socket of
any attempt that does not end the process.
-/
namespace Bc.ClientConnects

open Texts AddressParsing Polling Awaiters Addresses SocketObjects Connecting

structure Client (Handler Task : Type) where
  sock : Socket
  handler : Option Handler
  task : Option Task

/-- What the system does while a client connects: the outcome of `::socket`, the
attempt, and the event that a suspended awaiter is resumed with. -/
structure Connection where
  socket : Except Errno ℕ
  interruptions : ℕ
  attempt : Attempt
  revent : Event

/-- How `async_connect` ends. Failed assertions and exceptions in the coroutine end
the process; the last assertion is made when the handler has been called. -/
inductive Outcome (Handler Task : Type)
  | starts (on : Socket) (left : Option (Client Handler Task))
  | terminates

variable {Handler Task : Type}

/-- The end of `async_connect`, behind its `co_await`. A task that is there cannot
be assigned to. -/
def Client.handle (start : Handler → Socket → Task) (f : Handler) (sock : Socket)
    (c : Client Handler Task) : Outcome Handler Task :=
  .starts sock
    (if c.task.isSome then none
    else some { c with sock := sock, handler := some f, task := some (start f sock) })

def Client.connectTo (start : Handler → Socket → Task) (f : Handler) (k : Connection)
    (address : Address) (c : Client Handler Task) : Option (Outcome Handler Task) :=
  match c.sock.asyncConnect k.socket address with
  | .fault => some .terminates
  | .thrown _ _ => some .terminates
  | .returned sock =>
    (Connecting.asyncConnect k.interruptions k.attempt k.revent).map fun
      | .terminates => .terminates
      | .yields _ => c.handle start f sock

/-- `client::async_connect`. `none` is left to what an address is read with. -/
def Client.asyncConnect (start : Handler → Socket → Task) (host : ByteOrder) (hostname : Text)
    (port : Word) (f : Handler) (k : Connection) (c : Client Handler Task) :
    Option (Outcome Handler Task) :=
  (fromHostname host hostname port).bind fun
    | .error _ => some .terminates
    | .ok address => c.connectTo start f k address

namespace Connection

def Quiet (k : Connection) : Prop :=
  Event.meets k.revent Event.error = false ∧ hangsUp k.revent = false

def Succeeds (k : Connection) : Prop :=
  match k.attempt with
  | .connected => True
  | .refused _ _ => False
  | .established => k.Quiet
  | .failed _ => False

def FailsLater (k : Connection) : Prop :=
  match k.attempt with
  | .connected => False
  | .refused _ _ => False
  | .established => ¬k.Quiet
  | .failed _ => True

end Connection

section Starts

variable {start : Handler → Socket → Task} {host : ByteOrder} {hostname : Text} {port : Word}
variable {f : Handler} {k : Connection} {c : Client Handler Task}

def Outcome.Starts : Outcome Handler Task → Prop
  | .starts _ _ => True
  | .terminates => False

/-- The socket is new and obtains a descriptor, or it was bound to an address of the
same domain. -/
def Client.Connectable (k : Connection) (address : Address) (c : Client Handler Task) : Prop :=
  if c.sock.fd = 0 then ∃ fd, k.socket = .ok fd
  else c.sock.domain = some address.domain ∧ c.sock.role = .undetermined

/-- The client can make the attempt: the host name is an address that its socket can
be connected to. -/
def Client.Attempts (host : ByteOrder) (hostname : Text) (port : Word) (k : Connection)
    (c : Client Handler Task) : Prop :=
  ∃ address, fromHostname host hostname port = some (.ok address) ∧ c.Connectable k address

theorem connectable_iff {address : Address} :
    (∃ t, c.sock.asyncConnect k.socket address = .returned t) ↔ c.Connectable k address := by
  unfold Socket.asyncConnect Socket.useDomain Client.Connectable
  split_ifs with hfd hsame
  · cases k.socket with
    | error errno => exact iff_of_false nofun nofun
    | ok fd => exact iff_of_true ⟨_, rfl⟩ ⟨fd, rfl⟩
  · exact iff_of_true ⟨_, rfl⟩ hsame
  · exact iff_of_false nofun hsame

theorem yields_iff :
    (∃ connected, Connecting.asyncConnect k.interruptions k.attempt k.revent =
      some (.yields connected)) ↔ k.Succeeds ∨ k.FailsLater := by
  rw [asyncConnect_eq]
  unfold Connection.Succeeds Connection.FailsLater
  cases k.attempt with
  | connected => exact iff_of_true ⟨false, rfl⟩ (.inl trivial)
  | refused errno hend => exact iff_of_false nofun nofun
  | established => exact iff_of_true ⟨_, rfl⟩ (Classical.em _)
  | failed errno => exact iff_of_true ⟨false, rfl⟩ (.inr trivial)

theorem none_not_starts : ¬∃ o : Outcome Handler Task, none = some o ∧ o.Starts := by
  rintro ⟨o, ho, -⟩
  cases ho

theorem terminates_not_starts :
    ¬∃ o : Outcome Handler Task, some .terminates = some o ∧ o.Starts := by
  rintro ⟨o, ho, hstarts⟩
  obtain rfl := Option.some.inj ho
  exact hstarts

theorem connectTo_starts_iff {address : Address} :
    (∃ o, c.connectTo start f k address = some o ∧ o.Starts) ↔
      c.Connectable k address ∧ (k.Succeeds ∨ k.FailsLater) := by
  rw [← yields_iff, ← connectable_iff]
  unfold Client.connectTo
  cases c.sock.asyncConnect k.socket address with
  | fault => exact iff_of_false terminates_not_starts nofun
  | thrown t code => exact iff_of_false terminates_not_starts nofun
  | returned sock =>
    rcases Connecting.asyncConnect k.interruptions k.attempt k.revent with _ | (connected | _)
    · refine iff_of_false none_not_starts ?_
      rintro ⟨-, connected, hyields⟩
      cases hyields
    · exact iff_of_true ⟨_, rfl, trivial⟩ ⟨⟨_, rfl⟩, _, rfl⟩
    · refine iff_of_false terminates_not_starts ?_
      rintro ⟨-, connected, hyields⟩
      cases hyields

/-- The handler is started by every attempt that the client can make and that is not
refused at once. -/
theorem starts_iff (start : Handler → Socket → Task) (f : Handler) :
    (∃ o, c.asyncConnect start host hostname port f k = some o ∧ o.Starts) ↔
      c.Attempts host hostname port k ∧ (k.Succeeds ∨ k.FailsLater) := by
  unfold Client.asyncConnect Client.Attempts
  rcases fromHostname host hostname port with _ | (code | address)
  · exact iff_of_false none_not_starts nofun
  · exact iff_of_false terminates_not_starts nofun
  · have hmade : (∃ made, some (.ok address) = some (Except.ok (ε := ErrorCode) made) ∧
        c.Connectable k made) ↔ c.Connectable k address := by simp
    rw [hmade]
    exact connectTo_starts_iff

/-- The handler is kept from failed attempts unless one fails behind
`EINPROGRESS`. -/
theorem handler_waits_iff (start : Handler → Socket → Task) (host : ByteOrder) (hostname : Text)
    (port : Word) (f : Handler) (k : Connection) (c : Client Handler Task) :
    (∀ o, c.asyncConnect start host hostname port f k = some o → o.Starts → k.Succeeds) ↔
      ¬(c.Attempts host hostname port k ∧ k.FailsLater) := by
  have hexclusive : k.FailsLater → ¬k.Succeeds := by
    unfold Connection.Succeeds Connection.FailsLater
    cases k.attempt with
    | connected => exact False.elim
    | refused errno hend => exact False.elim
    | established => exact id
    | failed errno => exact fun _ => id
  constructor
  · rintro h ⟨hattempts, hfails⟩
    obtain ⟨o, ho, hstarts⟩ := (starts_iff start f).mpr ⟨hattempts, .inr hfails⟩
    exact hexclusive hfails (h o ho hstarts)
  · intro h o ho hstarts
    obtain ⟨hattempts, hsucceeds | hfails⟩ := (starts_iff start f).mp ⟨o, ho, hstarts⟩
    · exact hsucceeds
    · exact absurd ⟨hattempts, hfails⟩ h

end Starts

def Client.new : Client Handler Task := ⟨.empty, none, none⟩

/-- Nobody listens at the port, which the first call does not know yet. -/
def nobodyListens : Connection := ⟨.ok 3, 0, .failed 111, Event.write ||| Event.error⟩

theorem refused_connection_starts_handler :
    (¬∀ (c : Client Unit Unit) (hostname : Text) (port : Word) (k : Connection) o,
      c.asyncConnect (fun _ _ => ()) .little hostname port () k = some o → o.Starts →
        k.Succeeds) ∧
      ∃ o, Client.new.asyncConnect (fun (_ : Unit) _ => ()) .little "127.0.0.1".toList 12345 ()
        nobodyListens = some o ∧ o.Starts ∧ ¬nobodyListens.Succeeds := by
  have hattempts : (Client.new : Client Unit Unit).Attempts .little "127.0.0.1".toList 12345
      nobodyListens := ⟨_, rfl, ⟨3, rfl⟩⟩
  obtain ⟨o, ho, hstarts⟩ :=
    (starts_iff (fun (_ : Unit) _ => ()) ()).mpr ⟨hattempts, .inr trivial⟩
  exact ⟨fun h => h _ _ _ _ o ho hstarts, o, ho, hstarts, id⟩

end Bc.ClientConnects
