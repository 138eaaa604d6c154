import Bc.Cxx

/-!
The poller: event words, the two vectors it keeps in step, and `subscribe`,
which turns a wanted mask into at most one `epoll_ctl` call. Whether the
kernel accepts that call is a parameter of the operation.
-/
namespace Bc.Polling

open Cxx

abbrev Event := BitVec 32

namespace Event

def none : Event := 0
def read : Event := 0x001
def write : Event := 0x004
def error : Event := 0x008
def hangup : Event := 0x010
def rdhangup : Event := 0x2000

/-- The test `a & b` of the source. -/
def meets (a b : Event) : Bool := a &&& b != 0

end Event

structure EpollEvent where
  events : Event
  fd : ℤ
  deriving DecidableEq

/-- Both vectors are only ever resized together, so they have one size. -/
structure Poller where
  focus : List Event
  evs : List EpollEvent
  sizes_eq : evs.length = focus.length
  deriving DecidableEq

namespace Poller

def empty : Poller := ⟨[], [], rfl⟩

def adjustSize (index : ℕ) (p : Poller) : Poller :=
  if index < p.focus.length then p
  else
    { focus := resize (bitCeil index) Event.none p.focus
      evs := resize (bitCeil index) ⟨Event.none, -1⟩ p.evs
      sizes_eq := by simp only [length_resize] }

inductive CtlOp
  | add
  | mod
  | del
  deriving DecidableEq

/-- The `epoll_ctl` operation that moves the kernel from mask `now` to mask
`target`; `none` is the `op` 0 that makes no call. -/
def ctlOp (now target : Event) : Option CtlOp :=
  if now = target then .none
  else if now ≠ Event.none then
    if target ≠ Event.none then some .mod else some .del
  else some .add

def setFocus (p : Poller) (fd : ℕ) (e : Event) : Poller :=
  { p with
    focus := p.focus.set fd e
    sizes_eq := by simpa only [List.length_set] using p.sizes_eq }

/-- `ok` is the kernel's answer, asked for only where there is an operation. -/
def subscribe (ok : Bool) (fd : ℕ) (e : Event) (p : Poller) : Outcome Poller :=
  if 0 < fd then
    let p := p.adjustSize fd
    match p.focus[fd]? with
    | .none => .fault
    | some now =>
      if (ctlOp now e).isSome && !ok then .thrown p
      else .returned (p.setFocus fd e)
  else .fault

def unsubscribe (ok : Bool) (fd : ℕ) (p : Poller) : Outcome Poller :=
  p.subscribe ok fd Event.none

/-- The mask a descriptor is subscribed with. -/
def focusAt (p : Poller) (fd : ℕ) : Event := p.focus.getD fd Event.none

theorem length_adjustSize (p : Poller) (index : ℕ) :
    (p.adjustSize index).focus.length =
      if index < p.focus.length then p.focus.length else bitCeil index := by
  unfold adjustSize
  split <;> simp

theorem length_le_adjustSize (p : Poller) (index : ℕ) :
    p.focus.length ≤ (p.adjustSize index).focus.length := by
  have h := le_bitCeil index
  rw [length_adjustSize]
  split <;> omega

theorem focusAt_adjustSize (p : Poller) (index fd : ℕ) :
    (p.adjustSize index).focusAt fd = p.focusAt fd := by
  unfold adjustSize focusAt
  split
  · rfl
  · have h := le_bitCeil index
    exact getD_resize_of_le (by omega) _ _

theorem adjustSize_of_lt {p : Poller} {index : ℕ} (h : index < p.focus.length) :
    p.adjustSize index = p := by
  simp only [adjustSize, h, if_true]

theorem focusAt_setFocus {p : Poller} {fd : ℕ} (h : fd < p.focus.length) (e : Event) (k : ℕ) :
    (p.setFocus fd e).focusAt k = if k = fd then e else p.focusAt k := by
  by_cases hk : k = fd
  · subst k
    simp [focusAt, setFocus, List.getD_eq_getElem?_getD, h]
  · have hk' : fd ≠ k := Ne.symm hk
    simp [focusAt, setFocus, List.getD_eq_getElem?_getD, hk, hk']

theorem ctlOp_isSome {now target : Event} : (ctlOp now target).isSome = true ↔ now ≠ target := by
  unfold ctlOp
  split_ifs with hsame
  · simp [hsame]
  all_goals simpa using hsame

/-- In range, a call is refused where the kernel does not take a change. -/
theorem subscribe_eq {ok : Bool} {fd : ℕ} {e : Event} {p : Poller} (hpos : 0 < fd)
    (hlt : fd < (p.adjustSize fd).focus.length) :
    p.subscribe ok fd e =
      if p.focusAt fd ≠ e ∧ ok = false then .thrown (p.adjustSize fd)
      else .returned ((p.adjustSize fd).setFocus fd e) := by
  have hget : (p.adjustSize fd).focus[fd]? = some (p.focusAt fd) := by
    rw [List.getElem?_eq_getElem hlt, ← focusAt_adjustSize p fd fd, focusAt,
      List.getD_eq_getElem _ _ hlt]
  simp only [subscribe, hpos, if_true, hget, Bool.and_eq_true, ctlOp_isSome, Bool.not_eq_true']

theorem subscribe_fault {ok : Bool} {fd : ℕ} {e : Event} {p : Poller}
    (h : ¬(0 < fd ∧ fd < (p.adjustSize fd).focus.length)) : p.subscribe ok fd e = .fault := by
  unfold subscribe
  split
  · rename_i hpos
    have hget : (p.adjustSize fd).focus[fd]? = none :=
      List.getElem?_eq_none_iff.mpr (by omega)
    simp only [hget]
  · rfl

/-- All that a normal return of `subscribe` says. -/
theorem subscribe_returned {ok : Bool} {fd : ℕ} {e : Event} {p q : Poller}
    (h : p.subscribe ok fd e = .returned q) :
    0 < fd ∧ fd < (p.adjustSize fd).focus.length ∧ q = (p.adjustSize fd).setFocus fd e ∧
      (ok = true ∨ p.focusAt fd = e) := by
  by_cases hfd : 0 < fd ∧ fd < (p.adjustSize fd).focus.length
  · rw [subscribe_eq hfd.1 hfd.2] at h
    split at h
    · cases h
    · rename_i hcall
      refine ⟨hfd.1, hfd.2, (Outcome.returned.inj h).symm, ?_⟩
      by_cases hsame : p.focusAt fd = e
      · exact .inr hsame
      · exact .inl (by simpa [hsame] using hcall)
  · rw [subscribe_fault hfd] at h
    cases h

/-- All that a throw says; the call has only made room. -/
theorem subscribe_thrown_iff {ok : Bool} {fd : ℕ} {e : Event} {p q : Poller} :
    p.subscribe ok fd e = .thrown q ↔
      (0 < fd ∧ fd < (p.adjustSize fd).focus.length) ∧ (p.focusAt fd ≠ e ∧ ok = false) ∧
        q = p.adjustSize fd := by
  by_cases hfd : 0 < fd ∧ fd < (p.adjustSize fd).focus.length
  · rw [subscribe_eq hfd.1 hfd.2]
    split
    · rename_i hcall
      exact ⟨fun h => ⟨hfd, hcall, (Outcome.thrown.inj h).symm⟩, fun h => congrArg _ h.2.2.symm⟩
    · rename_i hcall
      exact ⟨nofun, fun h => absurd h.2.1 hcall⟩
  · rw [subscribe_fault hfd]
    exact ⟨nofun, fun h => absurd h.1 hfd⟩

theorem subscribe_thrown {ok : Bool} {fd : ℕ} {e : Event} {p q : Poller}
    (h : p.subscribe ok fd e = .thrown q) : q = p.adjustSize fd ∧ ok = false := by
  obtain ⟨-, ⟨-, hok⟩, hq⟩ := subscribe_thrown_iff.mp h
  exact ⟨hq, hok⟩

theorem subscribe_focusAt {ok : Bool} {fd : ℕ} {e : Event} {p q : Poller}
    (h : p.subscribe ok fd e = .returned q) (k : ℕ) :
    q.focusAt k = if k = fd then e else p.focusAt k := by
  obtain ⟨_, hlt, rfl, _⟩ := subscribe_returned h
  rw [focusAt_setFocus hlt, focusAt_adjustSize]

theorem subscribe_length {ok : Bool} {fd : ℕ} {e : Event} {p q : Poller}
    (h : p.subscribe ok fd e = .returned q) :
    q.focus.length = (p.adjustSize fd).focus.length := by
  obtain ⟨_, _, rfl, _⟩ := subscribe_returned h
  simp only [setFocus, List.length_set]

end Poller

end Bc.Polling
