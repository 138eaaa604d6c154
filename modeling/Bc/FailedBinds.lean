import Bc.DescriptorOwnership

/-!
Binding an empty socket where one of the system calls fails. What was done before
the failure stays in the object: the value that `::socket` fails with, or the
descriptor that it obtained.
-/
namespace Bc.FailedBinds

open Awaiters Addresses SocketObjects DescriptorOwnership

def Empty (s : Socket) : Prop := s.fd = 0 ∧ s.role = .undetermined

def Binding : Op → Prop
  | .bind _ _ => True
  | .listen _ => False
  | .listenOn _ _ => True
  | .asyncConnect _ _ => False

def Binds (kernel : Kernel) : Prop :=
  (∃ fd, kernel.socket = .ok fd) ∧ kernel.setsockopt = .ok () ∧ kernel.bind = .ok ()

def Succeeds : Op → Prop
  | .bind kernel _ => Binds kernel
  | .listen _ => False
  | .listenOn kernel _ => Binds kernel ∧ kernel.listen = .ok ()
  | .asyncConnect _ _ => False

/-- The socket in `x` is empty and can be bound, and no other descriptor is open than
before. -/
structure Undone (w w' : World) (x : ℕ) : Prop where
  empty : ∃ t, w'.objects x = some (.socket t) ∧ Empty t ∧
    ∀ kernel address, t.bind kernel address ≠ .fault
  openFds : w'.openFds = w.openFds

section Calls

variable {w w' : World} {x : ℕ} {s t : Socket} {op : Op} {kernel : Kernel} {address : Address}

theorem bind_cases (hs : s.fd = 0) (kernel : Kernel) (address : Address) :
    (Binds kernel ∧ ∃ t, s.bind kernel address = .returned t ∧ t.role = s.role) ∨
      (¬Binds kernel ∧ ∃ t code, s.bind kernel address = .thrown t code) := by
  unfold Socket.bind Socket.useDomain Binds
  rw [if_pos hs]
  cases kernel.socket with
  | error errno => exact .inr ⟨nofun, _, _, rfl⟩
  | ok fd =>
    cases kernel.setsockopt with
    | error errno => exact .inr ⟨nofun, _, _, rfl⟩
    | ok u =>
      cases kernel.bind with
      | error errno => exact .inr ⟨nofun, _, _, rfl⟩
      | ok u => exact .inl ⟨⟨⟨fd, rfl⟩, rfl, rfl⟩, _, rfl, rfl⟩

/-- A socket with a descriptor, or with the value that `::socket` failed with, cannot
be bound again. -/
theorem bind_fault_iff : s.bind kernel address = .fault ↔ s.fd ≠ 0 := by
  constructor
  · intro h hs
    rcases bind_cases hs kernel address with ⟨-, t, hbound, -⟩ | ⟨-, t, code, hthrown⟩
    · exact absurd (h.symm.trans hbound) nofun
    · exact absurd (h.symm.trans hthrown) nofun
  · intro hs
    unfold Socket.bind Socket.useDomain
    rw [if_neg hs]
    rfl

theorem listenOn_cases (hs : Empty s) (kernel : Kernel) (address : Address) :
    ((Binds kernel ∧ kernel.listen = .ok ()) ∧ ∃ t, s.listenOn kernel address = .returned t) ∨
      (¬(Binds kernel ∧ kernel.listen = .ok ()) ∧
        ∃ t code, s.listenOn kernel address = .thrown t code) := by
  unfold Socket.listenOn
  rcases bind_cases hs.1 kernel address with ⟨hbinds, t, h, hrole⟩ | ⟨hbinds, t, code, h⟩
  · rw [h, Call.bind, Socket.listen, if_pos (hrole.trans hs.2)]
    cases kernel.listen with
    | error errno => exact .inr ⟨fun hall => (nomatch hall.2), _, _, rfl⟩
    | ok u => exact .inl ⟨⟨hbinds, rfl⟩, _, rfl⟩
  · rw [h]
    exact .inr ⟨fun hall => hbinds hall.1, t, code, rfl⟩

/-- The operation throws just where one of its system calls fails. -/
theorem throws_iff (hbinding : Binding op) (hs : Empty s) :
    (∃ t code, op.run s = .thrown t code) ↔ ¬Succeeds op := by
  cases op with
  | bind kernel address =>
    rcases bind_cases hs.1 kernel address with ⟨hbinds, t, h, -⟩ | ⟨hbinds, hthrown⟩
    · refine iff_of_false ?_ (not_not_intro hbinds)
      rintro ⟨u, code, hthrown⟩
      exact Call.noConfusion (h.symm.trans hthrown)
    · exact iff_of_true hthrown hbinds
  | listen outcome => exact hbinding.elim
  | listenOn kernel address =>
    rcases listenOn_cases hs kernel address with ⟨hall, t, h⟩ | ⟨hall, hthrown⟩
    · refine iff_of_false ?_ (not_not_intro hall)
      rintro ⟨u, code, hthrown⟩
      exact Call.noConfusion (h.symm.trans hthrown)
    · exact iff_of_true hthrown hall
  | asyncConnect socket address => exact hbinding.elim

theorem socketCall_isSome (hbinding : Binding op) (hs : Empty s) :
    ∃ outcome, op.socketCall s = some outcome := by
  unfold Op.socketCall
  rw [if_pos hs.1]
  cases op with
  | bind kernel address => exact ⟨_, rfl⟩
  | listen outcome => exact hbinding.elim
  | listenOn kernel address => exact ⟨_, rfl⟩
  | asyncConnect socket address => exact hbinding.elim

/-- Whatever happens, the object keeps what `::socket` yields: it is no longer empty,
or another descriptor is open. -/
theorem not_undone (hbinding : Binding op) (hx : w.objects x = some (.socket s)) (hs : Empty s)
    (h : w.call x op = some w') : ¬Undone w w' x := by
  rintro ⟨⟨t, ht, hempty, -⟩, hopen⟩
  unfold World.call at h
  rw [hx] at h
  obtain ⟨u, hu, hput⟩ := Option.bind_eq_some_iff.mp h
  have hfd := Op.run_fd hu
  obtain ⟨outcome, hcall⟩ := socketCall_isSome hbinding hs
  rw [hcall] at hfd hput
  cases outcome with
  | error errno =>
    obtain rfl := Option.some.inj hput
    obtain rfl : u = t := by
      simpa [World.put] using ht
    have hrefused : u.fd = -1 := hfd
    exact absurd (hrefused.symm.trans hempty.1) (by decide)
  | ok fd =>
    obtain ⟨v, hv, rfl⟩ := Option.map_eq_some_iff.mp hput
    obtain ⟨-, hv⟩ := Option.ite_none_left_eq_some.mp hv
    obtain rfl := Option.some.inj hv
    have hlength := congrArg List.length hopen
    exact absurd hlength (Nat.succ_ne_self _)

/-- A call that throws never undoes what it did. -/
theorem undone_iff (hbinding : Binding op) (hx : w.objects x = some (.socket s)) (hs : Empty s)
    (h : w.call x op = some w') :
    ((∃ t code, op.run s = .thrown t code) → Undone w w' x) ↔ Succeeds op := by
  rw [throws_iff hbinding hs]
  constructor
  · intro hundone
    by_contra hsucceeds
    exact not_undone hbinding hx hs h (hundone hsucceeds)
  · exact fun hsucceeds hfails => absurd hsucceeds hfails

end Calls

def oneSocket : World := start.put 0 (some (.socket Socket.empty))

def localhost (port : ℕ) : Address := .ipv4 ⟨BitVec.ofNat 16 port, 0x0100007f⟩

theorem undone_iff_listen :
    ((∃ t code, (Op.listenOn ⟨.ok 3, .ok (), .ok (), .ok ()⟩ (localhost 80)).run Socket.empty =
      .thrown t code) →
        Undone oneSocket ((oneSocket.gain 3).put 0 (some (.socket ⟨3, some .ipv4, .server⟩))) 0) ↔
      Succeeds (.listenOn ⟨.ok 3, .ok (), .ok (), .ok ()⟩ (localhost 80)) :=
  undone_iff (w := oneSocket) trivial rfl ⟨rfl, rfl⟩ rfl

def portInUse : Kernel := ⟨.ok 3, .ok (), .error 98, .ok ()⟩

/-- The object keeps its descriptor, and another port cannot be tried. -/
theorem port_in_use_keeps_descriptor :
    (¬∀ (w w' : World) x s op, Binding op → w.objects x = some (.socket s) → Empty s →
      w.call x op = some w' → (∃ t code, op.run s = .thrown t code) → Undone w w' x) ∧
      ∃ w t, oneSocket.call 0 (.bind portInUse (localhost 80)) = some w ∧
        w.objects 0 = some (.socket t) ∧ w.openFds = [3] ∧
          ∀ kernel, t.bind kernel (localhost 81) = .fault := by
  refine ⟨fun h => ?_, _, ⟨3, some .ipv4, .undetermined⟩, rfl, rfl, rfl, fun _ => ?_⟩
  · have hundone := h oneSocket _ 0 Socket.empty (.bind portInUse (localhost 80)) trivial rfl
      ⟨rfl, rfl⟩ rfl ⟨_, _, rfl⟩
    exact absurd hundone.openFds (by decide)
  · exact bind_fault_iff.mpr (by decide)

end Bc.FailedBinds
