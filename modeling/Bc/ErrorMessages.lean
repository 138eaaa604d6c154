import Bc.Awaiters
import Bc.Runs

/-!
The texts of error codes and the code that asks for them: the accept loop of the
server and the echo sessions. A code without a text ends the process, and the
codes come from the kernel.
-/
namespace Bc.ErrorMessages

open Polling Awaiters

/-- `errc` with the texts of `bc_error_category::message`. -/
def texts : List (ErrorCode × String) :=
  [(1, "operation not permitted"),
    (2, "no such file or directory"),
    (4, "interrupted system call"),
    (5, "input/output error"),
    (9, "bad file descriptor"),
    (12, "cannot allocate memory"),
    (13, "permission denied"),
    (14, "bad address"),
    (17, "file exists"),
    (20, "not a directory"),
    (22, "invalid argument"),
    (24, "too many open files"),
    (27, "file too large"),
    (28, "no space left on device"),
    (30, "read-only file system"),
    (32, "broken pipe"),
    (36, "name too long"),
    (40, "too many levels of symbolic links"),
    (88, "socket operation on non-socket"),
    (89, "destination address required"),
    (92, "protocol not available"),
    (95, "operation not supported"),
    (98, "address already in use"),
    (99, "cannot assign requested address"),
    (122, "quota exceeded"),
    (ErrorCode.epollError, "epoll error"),
    (ErrorCode.closedByPeer, "closed by peer"),
    (ErrorCode.invalidAddress, "invalid address")]

/-- `bc_error_category::message`. `none` is `abort()`. -/
def message (condition : ErrorCode) : Option String := texts.lookup condition

def codes : List ErrorCode :=
  [1, 2, 4, 5, 9, 12, 13, 14, 17, 20, 22, 24, 27, 28, 30, 32, 36, 40, 88, 89, 92, 95, 98, 99, 122,
    200, 201, 202]

theorem message_isSome_iff (code : ErrorCode) : (message code).isSome = true ↔ code ∈ codes := by
  have hkeys : codes = texts.map Prod.fst := rfl
  rw [message, List.lookup_isSome_iff, hkeys, List.mem_map]
  exact exists_congr fun entry => and_congr_right fun _ => by rw [beq_iff_eq, eq_comm]

section Process

/-- What a session awaits next; `ended` is the end of its handler. -/
inductive Session
  | reading
  | writing
  | ended
  deriving DecidableEq

/-- `accepting` is the accept loop of the server. -/
structure Process where
  accepting : Bool
  sessions : List Session
  aborted : Bool
  deriving DecidableEq

def start : Process := ⟨true, [], false⟩

/-- An awaiter of the accept loop or of the session `i` is called, with the
outcome of its system call. -/
inductive Act
  | accept (outcome : Except Errno ℕ)
  | read (i : ℕ) (revent : Event) (outcome : Except Errno (List Byte))
  | write (i : ℕ) (revent : Event) (outcome : Except Errno ℕ)
  deriving DecidableEq

/-- The evaluation of `message()` of an error for the log. -/
def Process.report (s : Process) (code : ErrorCode) : Process :=
  { s with aborted := s.aborted || (message code).isNone }

def Process.setSession (s : Process) (i : ℕ) (session : Session) : Process :=
  { s with sessions := s.sessions.set i session }

def Process.accepted (s : Process) : Except ErrorCode ℕ → Process
  | .ok _ => { s with sessions := s.sessions ++ [.reading] }
  | .error code => { s with accepting := false }.report code

def Process.transferred {α : Type} (s : Process) (i : ℕ) (next : Session) :
    Except ErrorCode α → Process
  | .ok _ => s.setSession i next
  | .error code => (s.setSession i .ended).report code

/-- There is no step after an abort, and none from a failed assertion. -/
def step (s : Process) : Act → Option Process
  | .accept outcome =>
    if s.aborted = false ∧ s.accepting = true then
      some ((acceptProxy outcome).elim s s.accepted)
    else none
  | .read i revent outcome =>
    if s.aborted = false ∧ s.sessions[i]? = some .reading then
      (readResume revent outcome).map (s.transferred i .writing)
    else none
  | .write i revent outcome =>
    if s.aborted = false ∧ s.sessions[i]? = some .writing then
      some (s.transferred i .reading (writeResume revent outcome))
    else none

/-- The outcome of a transfer's system call does not count, is none, is taken
for a call to be repeated, or is an error with a text. -/
def TransferTabled {α : Type} (revent : Event) : Except Errno α → Prop
  | .ok _ => True
  | .error errno => Event.meets revent Event.error = true ∨ hangsUp revent = true ∨
      errno.negligible = true ∨ errno ∈ codes

/-- What the kernel leaves has a text where it is reported. -/
def Tabled : Act → Prop
  | .accept (.ok _) => True
  | .accept (.error errno) => errno.negligible = true ∨ errno ∈ codes
  | .read _ revent outcome => TransferTabled revent outcome
  | .write _ revent outcome => TransferTabled revent outcome

instance {α : Type} (revent : Event) (outcome : Except Errno α) :
    Decidable (TransferTabled revent outcome) :=
  match outcome with
  | .ok _ => inferInstanceAs (Decidable True)
  | .error _ => inferInstanceAs (Decidable (_ ∨ _ ∨ _ ∨ _))

instance : DecidablePred Tabled
  | .accept (.ok _) => inferInstanceAs (Decidable True)
  | .accept (.error _) => inferInstanceAs (Decidable (_ ∨ _))
  | .read _ revent outcome => inferInstanceAs (Decidable (TransferTabled revent outcome))
  | .write _ revent outcome => inferInstanceAs (Decidable (TransferTabled revent outcome))

/-- A result of an awaiter is an error only with a text. -/
def Reportable {α : Type} (result : Except ErrorCode α) : Prop :=
  ∀ code, result = .error code → code ∈ codes

variable {s s' : Process} {a : Act}

theorem reportable_error {α : Type} {code : ErrorCode} :
    Reportable (.error code : Except ErrorCode α) ↔ code ∈ codes :=
  ⟨fun h => h code rfl, fun h _ heq => Except.error.inj heq ▸ h⟩

theorem reportable_ok {α : Type} (a : α) : Reportable (.ok a : Except ErrorCode α) := nofun

theorem report_aborted (h : s.aborted = false) (code : ErrorCode) :
    (s.report code).aborted = false ↔ code ∈ codes := by
  rw [← message_isSome_iff, Process.report, h, Bool.false_or]
  cases message code <;> simp

theorem accepted_aborted (h : s.aborted = false) (result : Except ErrorCode ℕ) :
    (s.accepted result).aborted = false ↔ Reportable result := by
  cases result with
  | ok fd => exact ⟨fun _ => reportable_ok fd, fun _ => h⟩
  | error code =>
    rw [reportable_error]
    exact @report_aborted { s with accepting := false } h code

theorem transferred_aborted {α : Type} (h : s.aborted = false) (i : ℕ) (next : Session)
    (result : Except ErrorCode α) :
    (s.transferred i next result).aborted = false ↔ Reportable result := by
  cases result with
  | ok size => exact ⟨fun _ => reportable_ok size, fun _ => h⟩
  | error code =>
    rw [reportable_error]
    exact @report_aborted (s.setSession i .ended) h code

theorem reportable_negligible {α : Type} (errno : Errno) (nothing : α) :
    Reportable (if errno.negligible then .ok nothing else .error errno : Except ErrorCode α) ↔
      errno.negligible = true ∨ errno ∈ codes := by
  split_ifs with hagain
  · exact ⟨fun _ => .inl hagain, fun _ => reportable_ok nothing⟩
  · rw [reportable_error]
    exact ⟨.inr, fun h => h.resolve_left hagain⟩

theorem reportable_transferResume {α : Type} (nothing : α) (revent : Event)
    (outcome : Except Errno α) :
    Reportable (transferResume nothing revent outcome) ↔ TransferTabled revent outcome := by
  unfold transferResume
  split_ifs with herror hhangup
  · rw [reportable_error]
    refine ⟨fun _ => ?_, fun _ => by decide⟩
    cases outcome with
    | ok result => trivial
    | error errno => exact .inl herror
  · rw [reportable_error]
    refine ⟨fun _ => ?_, fun _ => by decide⟩
    cases outcome with
    | ok result => trivial
    | error errno => exact .inr (.inl hhangup)
  · cases outcome with
    | ok result => exact ⟨fun _ => trivial, fun _ => reportable_ok result⟩
    | error errno =>
      have htabled : TransferTabled revent (.error errno : Except Errno α) ↔
          errno.negligible = true ∨ errno ∈ codes :=
        ⟨fun h => (h.resolve_left herror).resolve_left hhangup, fun h => .inr (.inr h)⟩
      rw [htabled]
      exact reportable_negligible errno nothing

theorem step_aborted (hs : s.aborted = false) (h : step s a = some s') :
    s'.aborted = false ↔ Tabled a := by
  cases a with
  | accept outcome =>
    obtain ⟨-, hs'⟩ := Option.ite_none_right_eq_some.mp h
    obtain rfl := Option.some.inj hs'
    cases outcome with
    | ok fd => exact ⟨fun _ => trivial, fun _ => hs⟩
    | error errno =>
      simp only [Tabled, acceptProxy]
      split_ifs with hagain
      · exact ⟨fun _ => .inl hagain, fun _ => hs⟩
      · rw [Option.elim_some, accepted_aborted hs, reportable_error]
        exact ⟨.inr, fun h => h.resolve_left hagain⟩
  | read i revent outcome =>
    obtain ⟨-, hread⟩ := Option.ite_none_right_eq_some.mp h
    obtain ⟨result, hresult, rfl⟩ := Option.map_eq_some_iff.mp hread
    rw [readResume_eq] at hresult
    obtain ⟨-, heq⟩ := Option.ite_none_left_eq_some.mp hresult
    obtain rfl := Option.some.inj heq
    rw [transferred_aborted hs]
    exact reportable_transferResume [] revent outcome
  | write i revent outcome =>
    obtain ⟨-, hs'⟩ := Option.ite_none_right_eq_some.mp h
    obtain rfl := Option.some.inj hs'
    rw [transferred_aborted hs]
    exact reportable_transferResume 0 revent outcome

/-- Just the codes of `errc` have a text, and the server and its sessions stay
clear of an abort just in the runs in which the kernel leaves no other error to
report. -/
theorem never_aborts_iff {acts : List Act} {s : Process}
    (h : Runs.exec step start acts = some s) :
    (∀ errno, (message errno).isSome = true ↔ errno ∈ codes) ∧
      (Runs.Throughout step (fun s => s.aborted = false) start acts ↔
        Runs.Along step (fun _ a => Tabled a) start acts) :=
  ⟨message_isSome_iff, Runs.throughout_iff_along (I := fun _ => True) (fun _ _ _ _ _ => trivial)
    (fun _ _ _ _ hs hstep => step_aborted hs hstep) trivial rfl h⟩

/-- A connection is accepted and reads some bytes; the peer resets it. -/
def sampleRun (errno : Errno) : List Act :=
  [.accept (.ok 7), .read 0 Event.read (.ok [1]), .write 0 Event.write (.ok 1),
    .read 0 Event.read (.error errno)]

/-- With `EBADF` the session ends and the process goes on. -/
theorem never_aborts_iff_sample :
    Runs.Throughout step (fun s => s.aborted = false) start (sampleRun 9) := by
  have hsome : (Runs.exec step start (sampleRun 9)).isSome = true := by decide
  obtain ⟨s, h⟩ := Option.isSome_iff_exists.mp hsome
  exact (never_aborts_iff h).2.mpr (by decide)

theorem reset_aborts :
    (¬∀ errno, 0 < errno → (message errno).isSome = true) ∧
      (Runs.exec step start (sampleRun 104)).map Process.aborted = some true := by
  refine ⟨fun h => ?_, by decide⟩
  exact absurd (h 104 (by decide)) (by decide)

end Process

end Bc.ErrorMessages
