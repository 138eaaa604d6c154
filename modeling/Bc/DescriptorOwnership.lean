import Bc.Ownership
import Bc.Runs
import Bc.SocketObjects

/-!
The descriptors that a program's sockets own, over sequences of operations on
socket objects: plain ones, and those inside an `expected`, which holds a socket
or an error code.
-/
namespace Bc.DescriptorOwnership

open Awaiters Addresses SocketObjects Ownership

inductive Object
  | socket (s : Socket)
  | error (code : ErrorCode)
  deriving DecidableEq

/-- What an object owns; nothing for a socket whose `fd_` is 0. -/
def Object.owned : Object → Option ℤ
  | .socket s => if s.fd = 0 then none else some s.fd
  | .error _ => none

/-- `released` are the descriptors that destructors gave to `unsubscribe` and
`close`, and `stray` those of them that were not open. The assertion of
`unsubscribe` has failed where the process is `aborted`. -/
structure World where
  objects : ℕ → Option Object
  openFds : List ℤ
  obtained : List ℤ
  released : List ℤ
  stray : List ℤ
  aborted : Bool

def start : World := ⟨fun _ => none, [], [], [], [], false⟩

/-- `wrap` is what an accept's proxy does with the descriptor from `::accept4`.
An `expected` gets a socket by `moveAssign` and is moved by `moveConstruct`. -/
inductive Act
  | construct (x : ℕ)
  | wrap (x fd : ℕ) (domain : Domain)
  | moveConstruct (x y : ℕ)
  | moveAssign (x y : ℕ)
  | assignError (x : ℕ) (code : ErrorCode)
  | call (x : ℕ) (op : Op)
  | destroy (x : ℕ)

namespace World

def put (w : World) (x : ℕ) (object : Option Object) : World :=
  { w with objects := Function.update w.objects x object }

def gain (w : World) (fd : ℤ) : World :=
  { w with openFds := fd :: w.openFds, obtained := fd :: w.obtained }

/-- The kernel gives out descriptors that are not open. -/
def obtain? (w : World) (fd : ℤ) : Option World :=
  if fd ∈ w.openFds then none else some (w.gain fd)

/-- `~socket` where `x` has one, and what `x` is afterwards. An exception from
`unsubscribe` would end the process here, and a descriptor whose `close` fails is
not open afterwards either. -/
def replace (w : World) (x : ℕ) (object : Option Object) : World :=
  match (w.objects x).bind Object.owned with
  | none => w.put x object
  | some fd =>
    { w.put x object with
      openFds := w.openFds.erase fd
      released := fd :: w.released
      stray := if fd ∈ w.openFds then w.stray else fd :: w.stray
      aborted := fd < 0 }

/-- The move of `s`, the socket in `y`, into `x`. -/
def transfer (w : World) (x y : ℕ) (s : Socket) : World :=
  (w.put x (some (.socket s))).put y (some (.socket s.clear))

/-- Move assignment, with the assertions of `operator=`; an `expected` that holds
an error gets a new socket. -/
def moveAssign (w : World) (x y : ℕ) : Option World :=
  match w.objects x, w.objects y with
  | some (.socket target), some (.socket s) =>
    if x = y then some w
    else if target.fd = 0 ∧ target.role = .undetermined then some (w.transfer x y s)
    else none
  | some (.error _), some (.socket s) => some (w.transfer x y s)
  | _, _ => none

/-- An operation on the socket in `x`. -/
def call (w : World) (x : ℕ) (op : Op) : Option World :=
  match w.objects x with
  | some (.socket s) =>
    (op.run s).object?.bind fun t =>
      match op.socketCall s with
      | some (.ok fd) => (w.obtain? fd).map fun w => w.put x (some (.socket t))
      | _ => some (w.put x (some (.socket t)))
  | _ => none

def ledger (w : World) : Ledger ℕ ℤ where
  holds := fun x => (w.objects x).bind Object.owned
  live := w.openFds
  acquired := w.obtained
  released := w.released
  stray := w.stray

end World

def act (w : World) : Act → Option World
  | .construct x =>
    if w.objects x = none then some (w.put x (some (.socket Socket.empty))) else none
  | .wrap x fd domain =>
    if w.objects x = none then
      (w.obtain? fd).map fun w => w.put x (some (.socket (Socket.wrap fd domain .peer)))
    else none
  | .moveConstruct x y =>
    if w.objects x = none then
      match w.objects y with
      | some (.socket s) => some (w.transfer x y s)
      | some (.error code) => some (w.put x (some (.error code)))
      | none => none
    else none
  | .moveAssign x y => w.moveAssign x y
  | .assignError x code =>
    if (w.objects x).isSome then some (w.replace x (some (.error code))) else none
  | .call x op => w.call x op
  | .destroy x => if (w.objects x).isSome then some (w.replace x none) else none

def step (w : World) (a : Act) : Option World := if w.aborted then none else act w a

def Yields : Except Errno ℕ → Prop
  | .ok fd => fd ≠ 0
  | .error _ => False

instance : DecidablePred Yields
  | .ok fd => inferInstanceAs (Decidable (fd ≠ 0))
  | .error _ => inferInstanceAs (Decidable False)

/-- Where the step calls `::socket` or `::accept4` for a descriptor, it gets one. -/
def Obtains (w : World) : Act → Prop
  | .wrap _ fd _ => Yields (.ok fd)
  | .call x op =>
    match w.objects x with
    | some (.socket s) => ∀ outcome ∈ op.socketCall s, Yields outcome
    | _ => True
  | _ => True

instance (w : World) : DecidablePred (Obtains w)
  | .wrap _ fd _ => inferInstanceAs (Decidable (Yields (.ok fd)))
  | .call x op =>
    match h : w.objects x with
    | some (.socket s) =>
      decidable_of_iff (∀ outcome ∈ op.socketCall s, Yields outcome) (by rw [Obtains, h])
    | some (.error _) => .isTrue (by rw [Obtains, h]; trivial)
    | none => .isTrue (by rw [Obtains, h]; trivial)
  | .construct _ | .moveConstruct _ _ | .moveAssign _ _ | .assignError _ _ | .destroy _ =>
    inferInstanceAs (Decidable True)

section Ledgers

variable {w w' : World} {a : Act} {x y : ℕ} {object : Option Object} {s t : Socket}

theorem owned_none (h : s.fd = 0) : Object.owned (.socket s) = none := if_pos h

theorem owned_some (h : s.fd ≠ 0) : Object.owned (.socket s) = some s.fd := if_neg h

theorem holds_eq (w : World) (x : ℕ) : w.ledger.holds x = (w.objects x).bind Object.owned := rfl

theorem holds_of_none (h : w.objects x = none) : w.ledger.holds x = none := by
  rw [holds_eq, h, Option.bind_none]

theorem holds_of_object {new : Object} (h : w.objects x = some new) :
    w.ledger.holds x = new.owned := by
  rw [holds_eq, h, Option.bind_some]

theorem ledger_put (w : World) (x : ℕ) (object : Option Object) :
    (w.put x object).ledger =
      { w.ledger with
        holds := Function.update w.ledger.holds x (object.bind Object.owned) } := by
  have hholds := Function.comp_update (fun o : Option Object => o.bind Object.owned)
    w.objects x object
  exact congrArg (fun holds => { w.ledger with holds := holds }) hholds

theorem ledger_put_same {new : Object} (h : new.owned = w.ledger.holds x) :
    (w.put x (some new)).ledger = w.ledger := by
  rw [ledger_put, Option.bind_some, h, Function.update_eq_self]

theorem ledger_replace (hobject : object.bind Object.owned = none) :
    (w.replace x object).ledger = w.ledger.release x := by
  unfold World.replace
  cases h : (w.objects x).bind Object.owned with
  | none =>
    have hx : w.ledger.holds x = none := h
    have hupdate : Function.update w.ledger.holds x none = w.ledger.holds := by
      rw [← hx, Function.update_eq_self]
    rw [Ledger.release_none hx, ledger_put, hobject, hupdate]
  | some fd =>
    have hx : w.ledger.holds x = some fd := h
    have hput := congrArg Ledger.holds (ledger_put w x object)
    rw [hobject] at hput
    unfold Ledger.release
    rw [hx]
    exact congrArg (fun holds => { w.ledger with
      holds := holds
      live := w.openFds.erase fd
      released := fd :: w.released
      stray := if fd ∈ w.openFds then w.stray else fd :: w.stray }) hput

theorem ledger_transfer (hy : w.objects y = some (.socket s)) :
    (w.transfer x y s).ledger = w.ledger.move x y := by
  unfold World.transfer Ledger.move
  rw [ledger_put, ledger_put, holds_of_object hy]
  rfl

/-- No object owns the descriptor 0. -/
theorem holds_ne_zero (w : World) (x : ℕ) : w.ledger.holds x ≠ some 0 := by
  intro h
  obtain ⟨object, -, howned⟩ := Option.bind_eq_some_iff.mp h
  cases object with
  | socket s =>
    by_cases hfd : s.fd = 0
    · rw [owned_none hfd] at howned
      cases howned
    · rw [owned_some hfd] at howned
      exact hfd (Option.some.inj howned)
  | error code => cases howned

end Ledgers

/-- What a step does to the ledger, and whether it obtains what it should. -/
inductive Effect (w : World) (a : Act) : Ledger ℕ ℤ → Prop
  | same (hobtains : Obtains w a) : Effect w a w.ledger
  | move (x y : ℕ) (hobtains : Obtains w a) (hx : w.ledger.holds x = none) :
      Effect w a (w.ledger.move x y)
  | release (x : ℕ) (hobtains : Obtains w a) : Effect w a (w.ledger.release x)
  | acquire (x : ℕ) (fd : ℤ) (hobtains : Obtains w a) (hx : w.ledger.holds x = none)
      (hfd : 0 ≤ fd) (hnew : fd ∉ w.openFds) : Effect w a (w.ledger.acquire x fd)
  | lost (hobtains : ¬Obtains w a) :
      Effect w a
        { w.ledger with live := 0 :: w.ledger.live, acquired := 0 :: w.ledger.acquired }
  | refused (x : ℕ) (hobtains : ¬Obtains w a) :
      Effect w a { w.ledger with holds := Function.update w.ledger.holds x (some (-1)) }

section Steps

variable {w w' : World} {a : Act} {x y fd : ℕ} {s t : Socket}

/-- A descriptor that the kernel gives out and an object without one stores. -/
theorem obtain_effect (hx : w.ledger.holds x = none) (ht : t.fd = fd)
    (hobtains : Obtains w a ↔ fd ≠ 0)
    (h : (w.obtain? fd).map (fun w => w.put x (some (.socket t))) = some w') :
    Effect w a w'.ledger := by
  obtain ⟨u, hu, rfl⟩ := Option.map_eq_some_iff.mp h
  obtain ⟨hnew, hu⟩ := Option.ite_none_left_eq_some.mp hu
  obtain rfl := Option.some.inj hu
  by_cases hfd : fd = 0
  · have howned : Object.owned (.socket t) = none := owned_none (by rw [ht, hfd]; rfl)
    have hkept : Object.owned (.socket t) = (w.gain fd).ledger.holds x := howned.trans hx.symm
    rw [ledger_put_same hkept]
    subst hfd
    exact .lost fun hw => hobtains.mp hw rfl
  · have howned : Object.owned (.socket t) = some (fd : ℤ) := by
      rw [owned_some (by rw [ht]; exact_mod_cast hfd), ht]
    rw [ledger_put, Option.bind_some, howned]
    exact .acquire x fd (hobtains.mpr hfd) hx (Int.natCast_nonneg fd) hnew

theorem call_effect {op : Op} (h : w.call x op = some w') : Effect w (.call x op) w'.ledger := by
  unfold World.call at h
  split at h
  · rename_i s hs
    obtain ⟨t, ht, hput⟩ := Option.bind_eq_some_iff.mp h
    have hfd := Op.run_fd ht
    have hx := holds_of_object hs
    have hobtains : Obtains w (.call x op) ↔ ∀ outcome ∈ op.socketCall s, Yields outcome := by
      rw [Obtains, hs]
    cases hcall : op.socketCall s with
    | none =>
      rw [hcall] at hfd hput hobtains
      obtain rfl := Option.some.inj hput
      have hkept : t.fd = s.fd := hfd
      have howned : Object.owned (.socket t) = Object.owned (.socket s) := by
        simp only [Object.owned, hkept]
      rw [ledger_put_same (howned.trans hx.symm)]
      exact .same (hobtains.mpr nofun)
    | some outcome =>
      have hempty : w.ledger.holds x = none := hx.trans (owned_none (Op.socketCall_empty hcall))
      rw [hcall] at hfd hput hobtains
      simp only [Option.mem_def, Option.some.injEq, forall_eq'] at hobtains
      cases outcome with
      | ok fd => exact obtain_effect hempty hfd hobtains hput
      | error errno =>
        have howned : Object.owned (.socket t) = some (-1) := by
          have hrefused : t.fd = -1 := hfd
          rw [owned_some (by rw [hrefused]; decide), hrefused]
        obtain rfl := Option.some.inj hput
        rw [ledger_put, Option.bind_some, howned]
        exact .refused x hobtains.mp
  · cases h

theorem moveAssign_effect (h : w.moveAssign x y = some w') :
    Effect w (.moveAssign x y) w'.ledger := by
  unfold World.moveAssign at h
  split at h
  · rename_i target s hx hy
    split at h
    · obtain rfl := Option.some.inj h
      exact .same trivial
    · obtain ⟨hempty, ht⟩ := Option.ite_none_right_eq_some.mp h
      obtain rfl := Option.some.inj ht
      rw [ledger_transfer hy]
      exact .move x y trivial ((holds_of_object hx).trans (owned_none hempty.1))
  · rename_i code s hx hy
    obtain rfl := Option.some.inj h
    rw [ledger_transfer hy]
    exact .move x y trivial (holds_of_object hx)
  · cases h

theorem act_effect (h : act w a = some w') : Effect w a w'.ledger := by
  cases a with
  | construct x =>
    obtain ⟨hx, ht⟩ := Option.ite_none_right_eq_some.mp h
    obtain rfl := Option.some.inj ht
    have howned : Object.owned (.socket Socket.empty) = w.ledger.holds x :=
      (holds_of_none hx).symm
    rw [ledger_put_same howned]
    exact .same trivial
  | wrap x fd domain =>
    obtain ⟨hx, ht⟩ := Option.ite_none_right_eq_some.mp h
    exact obtain_effect (holds_of_none hx) rfl Iff.rfl ht
  | moveConstruct x y =>
    obtain ⟨hx, ht⟩ := Option.ite_none_right_eq_some.mp h
    split at ht
    · rename_i s hy
      obtain rfl := Option.some.inj ht
      rw [ledger_transfer hy]
      exact .move x y trivial (holds_of_none hx)
    · rename_i code hy
      obtain rfl := Option.some.inj ht
      have howned : Object.owned (.error code) = w.ledger.holds x := (holds_of_none hx).symm
      rw [ledger_put_same howned]
      exact .same trivial
    · cases ht
  | moveAssign x y => exact moveAssign_effect h
  | assignError x code =>
    obtain ⟨-, ht⟩ := Option.ite_none_right_eq_some.mp h
    obtain rfl := Option.some.inj ht
    rw [ledger_replace rfl]
    exact .release x trivial
  | call x op => exact call_effect h
  | destroy x =>
    obtain ⟨-, ht⟩ := Option.ite_none_right_eq_some.mp h
    obtain rfl := Option.some.inj ht
    rw [ledger_replace rfl]
    exact .release x trivial

theorem step_effect (h : step w a = some w') : Effect w a w'.ledger :=
  act_effect (Option.ite_none_left_eq_some.mp h).2

def NonNeg (w : World) : Prop := ∀ fd ∈ w.ledger.live, 0 ≤ fd

theorem step_nonNeg (hw : NonNeg w) (h : step w a = some w') : NonNeg w' := by
  unfold NonNeg
  have heffect := step_effect h
  generalize w'.ledger = l at heffect
  cases heffect with
  | same _ => exact hw
  | move x y _ _ => exact hw
  | release x _ => exact fun fd hfd => hw fd (Ledger.release_live_subset hfd)
  | acquire x fd _ _ hpos _ => exact List.forall_mem_cons.mpr ⟨hpos, hw⟩
  | lost _ => exact List.forall_mem_cons.mpr ⟨le_rfl, hw⟩
  | refused x _ => exact hw

theorem step_sound_iff (hw : NonNeg w) (hsound : Sound w.ledger) (h : step w a = some w') :
    Sound w'.ledger ↔ Obtains w a := by
  have hzero : ∀ x, w'.ledger.holds x ≠ some 0 := holds_ne_zero w'
  have heffect := step_effect h
  generalize w'.ledger = l at heffect hzero
  cases heffect with
  | same hobtains => exact iff_of_true hsound hobtains
  | move x y hobtains hx => exact iff_of_true (hsound.move hx) hobtains
  | release x hobtains => exact iff_of_true hsound.release hobtains
  | acquire x fd hobtains hx _ hnew => exact iff_of_true (hsound.acquire hx hnew) hobtains
  | lost hobtains =>
    refine iff_of_false (fun hl => ?_) hobtains
    -- The descriptor 0 is open and an object that has it counts as empty.
    obtain ⟨x, hx⟩ := hl.held 0 List.mem_cons_self
    exact hzero x hx
  | refused x hobtains =>
    refine iff_of_false (fun hl => ?_) hobtains
    have hopen := hl.live_of_holds x (-1) (Function.update_self x _ _)
    exact absurd (hw (-1) hopen) (by decide)

end Steps

theorem start_nonNeg : NonNeg start := fun _ hfd => absurd hfd List.not_mem_nil

theorem start_sound : Sound start.ledger where
  live_of_holds := nofun
  sole := nofun
  held := nofun
  nodup := List.nodup_nil
  once := List.Perm.nil
  no_stray := rfl

/-- When all objects are gone, what was obtained has been closed, each time once. -/
theorem all_closed {acts : List Act} {w : World} (hrun : Runs.exec step start acts = some w)
    (hobtains : Runs.Along step Obtains start acts) (hgone : ∀ x, w.objects x = none) :
    w.obtained.Perm w.released := by
  have hend : NonNeg w ∧ Sound w.ledger := by
    refine Runs.exec_invariant (I := fun u => NonNeg u ∧ Sound u.ledger) ?_
      ⟨start_nonNeg, start_sound⟩ hobtains hrun
    intro u a u' hu ha h
    exact ⟨step_nonNeg hu.1 h, (step_sound_iff hu.1 hu.2 h).mpr ha⟩
  exact hend.2.all_released fun x => holds_of_none (hgone x)

/-- Objects are empty or own an open descriptor alone, and what was obtained is
owned once or was closed once, in exactly the runs in which descriptors are
obtained wherever they are asked for, the descriptor 0 excepted. -/
theorem owners_iff {acts : List Act} {w : World} (hrun : Runs.exec step start acts = some w) :
    Runs.Throughout step (fun w => Sound w.ledger) start acts ↔
      Runs.Along step Obtains start acts :=
  Runs.throughout_iff_along (I := NonNeg) (fun _ _ _ hw h => step_nonNeg hw h)
    (fun _ _ _ hw hsound h => step_sound_iff hw hsound h) start_nonNeg start_sound hrun

/-- A server's socket, an accepted one that goes through an `expected` into the
list of clients, and a failing accept. -/
def served : List Act :=
  [.construct 0, .call 0 (.listenOn ⟨.ok 4, .ok (), .ok (), .ok ()⟩ (.ipv4 ⟨80, 0⟩)),
    .construct 1, .wrap 2 5 .ipv4, .moveAssign 1 2, .destroy 2, .moveConstruct 3 1, .destroy 1,
    .construct 4, .assignError 4 24, .destroy 4, .destroy 3, .destroy 0]

theorem owners_iff_served : Runs.Throughout step (fun w => Sound w.ledger) start served := by
  have hrun : (Runs.exec step start served).isSome = true := by decide
  obtain ⟨w, hw⟩ := Option.isSome_iff_exists.mp hrun
  exact (owners_iff hw).mpr (by decide)

def refusedListen : List Act :=
  [.construct 0, .call 0 (.listenOn ⟨.error 24, .ok (), .ok (), .ok ()⟩ (.ipv4 ⟨80, 0⟩)),
    .destroy 0]

theorem refused_listen_destroyed :
    (¬∀ acts w, Runs.exec step start acts = some w → Sound w.ledger) ∧
      (Runs.exec step start refusedListen).map (fun w => (w.stray, w.aborted)) =
        some ([-1], true) := by
  refine ⟨fun h => ?_, by decide⟩
  have hsound := h refusedListen _ rfl
  exact absurd hsound.no_stray (by decide)

end Bc.DescriptorOwnership
