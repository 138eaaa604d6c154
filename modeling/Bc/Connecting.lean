import Bc.Awaiters
import Mathlib.Data.List.Basic

/-!
Connecting a socket. The awaiter calls `::connect` once or more before it
suspends and once more when it is resumed, also where it did not suspend. What
the calls yield depends on what has become of the attempt.
-/
namespace Bc.Connecting

open Polling Awaiters

/-- How `await_ready` ends. Its `throw` has nothing to throw again and ends the
process. -/
inductive Readiness
  | ready
  | suspends
  | terminates
  deriving DecidableEq

/-- `async_connect_awaiter::await_ready` on the outcomes of its calls. -/
def awaitReady : List (Except Errno Unit) → Option Readiness
  | [] => none
  | .error errno :: rest =>
    if errno = Errno.eintr then awaitReady rest
    else if errno = Errno.einprogress then some .suspends
    else some .terminates
  | .ok () :: _ => some .ready

/-- `async_connect_awaiter::await_resume`, where `connect` is the outcome of the
call of `::connect`, made only if it is needed. -/
def awaitResume (revent : Event) (connect : Except Errno Unit) : Bool :=
  if Event.meets revent Event.error then false
  else if hangsUp revent then false
  else
    match connect with
    | .error _ => false
    | .ok () => true

/-- What becomes of an attempt in the kernel: it is over at once, or it goes on
behind `EINPROGRESS`. -/
inductive Attempt
  | connected
  | refused (errno : Errno) (hend : errno ≠ Errno.eintr ∧ errno ≠ Errno.einprogress)
  | established
  | failed (errno : Errno)

namespace Attempt

def succeeds : Attempt → Bool
  | connected => true
  | refused _ _ => false
  | established => true
  | failed _ => false

def firstCall : Attempt → Except Errno Unit
  | connected => .ok ()
  | refused errno _ => .error errno
  | established => .error Errno.einprogress
  | failed _ => .error Errno.einprogress

def laterCall : Attempt → Except Errno Unit
  | connected => .error Errno.eisconn
  | refused errno _ => .error errno
  | established => .ok ()
  | failed errno => .error errno

end Attempt

inductive Result
  | yields (connected : Bool)
  | terminates
  deriving DecidableEq

/-- `interruptions` calls fail with `EINTR` before the attempt begins, and
`revent` is the event that a suspended awaiter is resumed with. -/
def asyncConnect (interruptions : ℕ) (attempt : Attempt) (revent : Event) : Option Result :=
  (awaitReady (List.replicate interruptions (.error Errno.eintr) ++ [attempt.firstCall])).map
    fun
      | .ready => .yields (awaitResume Event.none attempt.laterCall)
      | .suspends => .yields (awaitResume revent attempt.laterCall)
      | .terminates => .terminates

/-- The attempt is not over at once, and an established connection is reported
without an error or a hang-up. -/
def Reported (revent : Event) : Attempt → Prop
  | .connected => False
  | .refused _ _ => False
  | .established => Event.meets revent Event.error = false ∧ hangsUp revent = false
  | .failed _ => True

instance (revent : Event) : DecidablePred (Reported revent)
  | .connected => inferInstanceAs (Decidable False)
  | .refused _ _ => inferInstanceAs (Decidable False)
  | .established => inferInstanceAs (Decidable (_ ∧ _))
  | .failed _ => inferInstanceAs (Decidable True)

theorem awaitReady_interrupted (interruptions : ℕ) (rest : List (Except Errno Unit)) :
    awaitReady (List.replicate interruptions (.error Errno.eintr) ++ rest) = awaitReady rest := by
  induction interruptions with
  | zero => rfl
  | succ n ih =>
    rw [List.replicate_succ, List.cons_append, awaitReady, if_pos rfl, ih]

theorem awaitResume_eq (revent : Event) (connect : Except Errno Unit) :
    awaitResume revent connect = true ↔
      (Event.meets revent Event.error = false ∧ hangsUp revent = false) ∧ connect = .ok () := by
  unfold awaitResume
  cases connect with
  | error errno => split_ifs <;> simp
  | ok _ => split_ifs with herror hhangup <;> simp_all

theorem asyncConnect_eq (interruptions : ℕ) (attempt : Attempt) (revent : Event) :
    asyncConnect interruptions attempt revent = some (match attempt with
      | .connected => .yields false
      | .refused _ _ => .terminates
      | .established => .yields (awaitResume revent (.ok ()))
      | .failed _ => .yields false) := by
  rw [asyncConnect, awaitReady_interrupted]
  cases attempt with
  | connected => rfl
  | refused errno hend =>
    rw [Attempt.firstCall, awaitReady, if_neg hend.1, if_neg hend.2]
    rfl
  | established => rfl
  | failed errno =>
    have hfalse : awaitResume revent (.error errno) = false := by
      rw [← Bool.not_eq_true, awaitResume_eq]
      exact fun h => nomatch h.2
    rw [← hfalse]
    rfl

/-- A connection that is established at once is reported as failed and a failure
at once ends the process; of the others just the established ones that have an
error or a hang-up reported are taken for failed. -/
theorem connect_reported_iff (interruptions : ℕ) (attempt : Attempt) (revent : Event) :
    asyncConnect interruptions attempt revent = some (.yields attempt.succeeds) ↔
      Reported revent attempt := by
  rw [asyncConnect_eq]
  cases attempt with
  | connected => exact ⟨nofun, nofun⟩
  | refused errno hend => exact ⟨nofun, nofun⟩
  | established =>
    have hyields := awaitResume_eq revent (.ok ())
    constructor
    · intro h
      exact (hyields.mp (Result.yields.inj (Option.some.inj h))).1
    · intro h
      rw [hyields.mpr ⟨h, rfl⟩]
      rfl
  | failed errno => exact ⟨fun _ => trivial, fun _ => rfl⟩

/-- A connection over the loopback interface can be established at once; a
network that is down is an error at once. -/
theorem immediate_success_fails :
    (¬∀ interruptions attempt revent,
      asyncConnect interruptions attempt revent = some (.yields attempt.succeeds)) ∧
      asyncConnect 0 .connected Event.none = some (.yields false) ∧
      asyncConnect 0 (.refused 101 (by decide)) Event.none = some .terminates := by
  refine ⟨fun h => ?_, rfl, rfl⟩
  exact absurd (h 0 .connected Event.none) (by decide)

end Bc.Connecting
