import Bc.Addresses

/-!
Socket objects: the descriptor, the domain and the role that one keeps, and what
the calls that obtain a descriptor leave in them. The outcomes of the system
calls are parameters; each is used where its call is made.
-/
namespace Bc.SocketObjects

open Awaiters Addresses

inductive Role
  | undetermined
  | server
  | peer
  deriving DecidableEq

/-- The descriptor 0 stands for none. The domain is `none` until it is written. -/
structure Socket where
  fd : ℤ
  domain : Option Domain
  role : Role
  deriving DecidableEq

/-- How a call on a socket ends. An exception leaves the socket as it is at the
throw, and `fault` is a failed assertion. -/
inductive Call
  | returned (s : Socket)
  | thrown (s : Socket) (code : ErrorCode)
  | fault
  deriving DecidableEq

namespace Call

def bind (x : Call) (f : Socket → Call) : Call :=
  match x with
  | returned s => f s
  | thrown s code => thrown s code
  | fault => fault

def object? : Call → Option Socket
  | returned s => some s
  | thrown s _ => some s
  | fault => none

end Call

structure Kernel where
  socket : Except Errno ℕ
  setsockopt : Except Errno Unit
  bind : Except Errno Unit
  listen : Except Errno Unit

namespace Socket

def empty : Socket := ⟨0, none, .undetermined⟩

def wrap (fd : ℤ) (domain : Domain) (role : Role) : Socket := ⟨fd, some domain, role⟩

def clear (s : Socket) : Socket := { s with fd := 0, role := .undetermined }

/-- `use_domain_`. The value that `::socket` fails with is stored before it is
tested. -/
def useDomain (socket : Except Errno ℕ) (domain : Domain) (s : Socket) : Call :=
  if s.fd = 0 then
    match socket with
    | .error errno => .thrown { s with fd := -1 } errno
    | .ok fd => .returned { s with fd := fd, domain := some domain }
  else .fault

/-- A system call on the descriptor, whose error is thrown. -/
def check (outcome : Except Errno Unit) (s : Socket) : Call :=
  match outcome with
  | .error errno => .thrown s errno
  | .ok () => .returned s

def bind (kernel : Kernel) (address : Address) (s : Socket) : Call :=
  (useDomain kernel.socket address.domain s).bind fun s =>
    (check kernel.setsockopt s).bind (check kernel.bind)

def listen (outcome : Except Errno Unit) (s : Socket) : Call :=
  if s.role = .undetermined then
    (check outcome s).bind fun s => .returned { s with role := .server }
  else .fault

/-- `listen` with an address. -/
def listenOn (kernel : Kernel) (address : Address) (s : Socket) : Call :=
  (s.bind kernel address).bind (listen kernel.listen)

/-- A domain that was never written cannot be relied on to pass the assertion. -/
def asyncConnect (socket : Except Errno ℕ) (address : Address) (s : Socket) : Call :=
  Call.bind
    (if s.fd = 0 then s.useDomain socket address.domain
    else if s.domain = some address.domain ∧ s.role = .undetermined then .returned s
    else .fault)
    fun s => .returned { s with role := .peer }

end Socket

/-- The calls that can obtain a descriptor or that work on the one obtained. -/
inductive Op
  | bind (kernel : Kernel) (address : Address)
  | listen (outcome : Except Errno Unit)
  | listenOn (kernel : Kernel) (address : Address)
  | asyncConnect (socket : Except Errno ℕ) (address : Address)

namespace Op

def run : Op → Socket → Call
  | bind kernel address => Socket.bind kernel address
  | listen outcome => Socket.listen outcome
  | listenOn kernel address => Socket.listenOn kernel address
  | asyncConnect socket address => Socket.asyncConnect socket address

def socket? : Op → Option (Except Errno ℕ)
  | bind kernel _ => some kernel.socket
  | listen _ => none
  | listenOn kernel _ => some kernel.socket
  | asyncConnect socket _ => some socket

def socketCall (op : Op) (s : Socket) : Option (Except Errno ℕ) :=
  if s.fd = 0 then op.socket? else none

end Op

def fdAfter : Except Errno ℕ → ℤ
  | .error _ => -1
  | .ok fd => fd

section Descriptors

variable {s t : Socket} {socket : Except Errno ℕ} {outcome : Except Errno Unit}
variable {kernel : Kernel} {address : Address} {domain : Domain}

theorem Call.bind_object {x : Call} {f : Socket → Call} (h : (x.bind f).object? = some t) :
    x.object? = some t ∨ ∃ s, x.object? = some s ∧ (f s).object? = some t := by
  cases x with
  | returned s => exact .inr ⟨s, rfl, h⟩
  | thrown s code => exact .inl h
  | fault => cases h

/-- What holds of any end of the first call holds. -/
theorem Call.of_bind {x : Call} {f : Socket → Call} {p : Prop}
    (hx : ∀ s, x.object? = some s → p) (h : (x.bind f).object? = some t) : p := by
  rcases Call.bind_object h with hthrown | ⟨s, hs, -⟩
  · exact hx t hthrown
  · exact hx s hs

/-- A continuation that keeps the descriptor does not change what is left in it. -/
theorem Call.bind_fd {x : Call} {f : Socket → Call} {fd : ℤ}
    (hx : ∀ s, x.object? = some s → s.fd = fd)
    (hf : ∀ s t, (f s).object? = some t → t.fd = s.fd)
    (h : (x.bind f).object? = some t) : t.fd = fd := by
  rcases Call.bind_object h with hthrown | ⟨s, hs, ht⟩
  · exact hx t hthrown
  · rw [hf s t ht, hx s hs]

theorem Socket.useDomain_fd (h : (s.useDomain socket domain).object? = some t) :
    s.fd = 0 ∧ t.fd = fdAfter socket := by
  unfold Socket.useDomain at h
  split at h
  · rename_i hfd
    refine ⟨hfd, ?_⟩
    cases socket with
    | error errno =>
      obtain rfl := Option.some.inj h
      rfl
    | ok fd =>
      obtain rfl := Option.some.inj h
      rfl
  · cases h

theorem Socket.check_object (h : (s.check outcome).object? = some t) : t = s := by
  cases outcome <;> exact (Option.some.inj h).symm

theorem Socket.bind_fd (h : (s.bind kernel address).object? = some t) :
    s.fd = 0 ∧ t.fd = fdAfter kernel.socket := by
  have hempty : s.fd = 0 := Call.of_bind (fun u hu => (Socket.useDomain_fd hu).1) h
  refine ⟨hempty, Call.bind_fd (fun u hu => (Socket.useDomain_fd hu).2) ?_ h⟩
  intro u v hv
  refine Call.bind_fd (fun w hw => congrArg Socket.fd (Socket.check_object hw)) ?_ hv
  exact fun w z hz => congrArg Socket.fd (Socket.check_object hz)

theorem Socket.listen_fd (h : (s.listen outcome).object? = some t) : t.fd = s.fd := by
  unfold Socket.listen at h
  split at h
  · refine Call.bind_fd (fun u hu => congrArg Socket.fd (Socket.check_object hu)) ?_ h
    intro u v hv
    obtain rfl := Option.some.inj hv
    rfl
  · cases h

theorem Socket.listenOn_fd (h : (s.listenOn kernel address).object? = some t) :
    s.fd = 0 ∧ t.fd = fdAfter kernel.socket := by
  have hempty : s.fd = 0 := Call.of_bind (fun u hu => (Socket.bind_fd hu).1) h
  refine ⟨hempty, Call.bind_fd (fun u hu => (Socket.bind_fd hu).2) ?_ h⟩
  exact fun u v hv => Socket.listen_fd hv

theorem Socket.asyncConnect_fd (h : (s.asyncConnect socket address).object? = some t) :
    t.fd = if s.fd = 0 then fdAfter socket else s.fd := by
  refine Call.bind_fd ?_ ?_ h
  · intro u hu
    split at hu
    · rename_i hfd
      rw [if_pos hfd]
      exact (Socket.useDomain_fd hu).2
    · rename_i hfd
      rw [if_neg hfd]
      split at hu
      · obtain rfl := Option.some.inj hu
        rfl
      · cases hu
  · intro u v hv
    obtain rfl := Option.some.inj hv
    rfl

/-- All that an operation does to `fd_`. -/
theorem Op.run_fd {op : Op} (h : (op.run s).object? = some t) :
    t.fd = (op.socketCall s).elim s.fd fdAfter := by
  unfold Op.socketCall
  cases op with
  | bind kernel address =>
    obtain ⟨hempty, ht⟩ := Socket.bind_fd h
    rw [if_pos hempty]
    exact ht
  | listen outcome =>
    rw [Socket.listen_fd h]
    split <;> rfl
  | listenOn kernel address =>
    obtain ⟨hempty, ht⟩ := Socket.listenOn_fd h
    rw [if_pos hempty]
    exact ht
  | asyncConnect socket address =>
    rw [Socket.asyncConnect_fd h]
    split <;> rfl

theorem Op.socketCall_empty {op : Op} {call : Except Errno ℕ} (h : op.socketCall s = some call) :
    s.fd = 0 := by
  unfold Op.socketCall at h
  split at h
  · assumption
  · cases h

end Descriptors

end Bc.SocketObjects
