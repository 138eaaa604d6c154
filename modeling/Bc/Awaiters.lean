import Bc.Polling

/-!
The awaiters of sockets: the masks they wait for, what an accept does when it is
called, and what a read and a write make of the event they are resumed with.
-/
namespace Bc.Awaiters

open Polling

abbrev Byte := BitVec 8

/-- The value of an `errno`. -/
abbrev Errno := ℕ

namespace Errno

def eintr : Errno := 4
def eagain : Errno := 11
def ewouldblock : Errno := eagain
def eisconn : Errno := 106
def einprogress : Errno := 115

/-- The errors that a transfer takes for a call to be repeated. -/
def negligible (errno : Errno) : Bool :=
  errno = eagain || errno = ewouldblock || errno = eintr

end Errno

/-- The value inside an `error_code`; `trans_error_code` leaves it alone. -/
abbrev ErrorCode := ℕ

namespace ErrorCode

def epollError : ErrorCode := 200
def closedByPeer : ErrorCode := 201
def invalidAddress : ErrorCode := 202

end ErrorCode

def acceptMask : Event := Event.read
def readMask : Event := Event.read ||| Event.error ||| Event.hangup ||| Event.rdhangup
def writeMask : Event := Event.write ||| Event.error ||| Event.hangup
def connectMask : Event := Event.write ||| Event.error ||| Event.hangup

/-- The test for a peer that is gone. -/
def hangsUp (revent : Event) : Bool := Event.meets revent (Event.hangup ||| Event.rdhangup)

/-- `async_read_awaiter::await_resume`, where `read` is the outcome of the call
of `::read`, made only if it is needed. `none` is the failed assertion. -/
def readResume (revent : Event) (read : Except Errno (List Byte)) :
    Option (Except ErrorCode (List Byte)) :=
  if revent = Event.none then none
  else if Event.meets revent Event.error then some (.error ErrorCode.epollError)
  else if hangsUp revent then some (.error ErrorCode.closedByPeer)
  else
    match read with
    | .error errno => if errno.negligible then some (.ok []) else some (.error errno)
    | .ok bytes => some (.ok bytes)

/-- What a resumed transfer makes of its event and of the outcome of its system
call; `nothing` is what it yields for a call to be repeated. -/
def transferResume {α : Type} (nothing : α) (revent : Event) (outcome : Except Errno α) :
    Except ErrorCode α :=
  if Event.meets revent Event.error then .error ErrorCode.epollError
  else if hangsUp revent then .error ErrorCode.closedByPeer
  else
    match outcome with
    | .error errno => if errno.negligible then .ok nothing else .error errno
    | .ok result => .ok result

/-- `async_write_awaiter::await_resume`, where `write` is the outcome of the call
of `::write`, made only if it is needed. -/
def writeResume (revent : Event) (write : Except Errno ℕ) : Except ErrorCode ℕ :=
  transferResume 0 revent write

/-- A read does the same, behind its assertion. -/
theorem readResume_eq (revent : Event) (read : Except Errno (List Byte)) :
    readResume revent read =
      if revent = Event.none then none else some (transferResume [] revent read) := by
  unfold readResume transferResume
  split_ifs
  · rfl
  · rfl
  · rfl
  · cases read with
    | error errno =>
      simp only
      split_ifs <;> rfl
    | ok bytes => rfl

/-- The result that an accept's proxy resumes its coroutine with, where `accept`
is the outcome of the call of `::accept4`. It does not resume it on a negligible
error. -/
def acceptProxy (accept : Except Errno ℕ) : Option (Except ErrorCode ℕ) :=
  match accept with
  | .error errno => if errno.negligible then none else some (.error errno)
  | .ok fd => some (.ok fd)

/-- The ways in which a resumed read ends, in the order of the tests. -/
inductive ReadEnd (revent : Event) (read : Except Errno (List Byte)) :
    Except ErrorCode (List Byte) → Prop
  | error (herror : Event.meets revent Event.error = true) :
      ReadEnd revent read (.error ErrorCode.epollError)
  | hangup (hhangup : hangsUp revent = true) :
      ReadEnd revent read (.error ErrorCode.closedByPeer)
  | negligible (errno : Errno) (hread : read = .error errno)
      (hagain : errno.negligible = true) : ReadEnd revent read (.ok [])
  | failed (errno : Errno) (hread : read = .error errno)
      (hagain : errno.negligible = false) : ReadEnd revent read (.error errno)
  | bytes (bytes : List Byte) (hquiet : hangsUp revent = false) (hread : read = .ok bytes) :
      ReadEnd revent read (.ok bytes)

theorem readResume_cases {revent : Event} {read : Except Errno (List Byte)}
    {result : Except ErrorCode (List Byte)} (h : readResume revent read = some result) :
    ReadEnd revent read result := by
  unfold readResume at h
  split_ifs at h with hnone herror hhangup
  · obtain rfl := Option.some.inj h
    exact .error herror
  · obtain rfl := Option.some.inj h
    exact .hangup hhangup
  · split at h
    · rename_i errno
      split_ifs at h with hagain
      · obtain rfl := Option.some.inj h
        exact .negligible errno rfl hagain
      · obtain rfl := Option.some.inj h
        exact .failed errno rfl (by simpa using hagain)
    · rename_i bytes
      obtain rfl := Option.some.inj h
      exact .bytes bytes (by simpa using hhangup) rfl

end Bc.Awaiters
