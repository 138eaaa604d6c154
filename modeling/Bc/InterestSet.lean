import Bc.Polling
import Bc.Runs
import Mathlib.Logic.Function.Basic

/-!
The poller beside the kernel. `focus_` is a copy of the kernel's interest set,
and each `epoll_ctl` operation is chosen from the copy alone, so the two have
to agree over every history, failed calls and reused descriptors included.
-/
namespace Bc.InterestSet

open Cxx Polling Poller

/-- The mask a descriptor is registered with, and which descriptors are open. -/
structure Kernel where
  interest : ℕ → Option Event
  opened : ℕ → Bool

/-- `epoll_ctl`. It fails where `granted` says that resources are lacking, on a
descriptor that is not open, and for an operation that the set excludes. -/
def Kernel.ctl (granted : Bool) (op : CtlOp) (fd : ℕ) (e : Event) (k : Kernel) : Option Kernel :=
  if granted && k.opened fd then
    match op, k.interest fd with
    | .add, none => some { k with interest := Function.update k.interest fd (some e) }
    | .mod, some _ => some { k with interest := Function.update k.interest fd (some e) }
    | .del, some _ => some { k with interest := Function.update k.interest fd none }
    | _, _ => none
  else none

/-- `close` takes the descriptor out of the interest set. -/
def Kernel.close (fd : ℕ) (k : Kernel) : Kernel :=
  { interest := Function.update k.interest fd none
    opened := Function.update k.opened fd false }

structure State where
  poller : Poller
  kernel : Kernel

def init : State := ⟨Poller.empty, ⟨fun _ => none, fun _ => false⟩⟩

def State.issued (s : State) (fd : ℕ) (e : Event) : Option CtlOp := ctlOp (s.poller.focusAt fd) e

def State.subscribe (granted : Bool) (fd : ℕ) (e : Event) (s : State) : Outcome State :=
  let answer := match s.issued fd e with
    | none => some s.kernel
    | some op => s.kernel.ctl granted op fd e
  (s.poller.subscribe answer.isSome fd e).map fun poller => ⟨poller, answer.getD s.kernel⟩

inductive Act
  | subscribe (granted : Bool) (fd : ℕ) (e : Event)
  | unsubscribe (granted : Bool) (fd : ℕ)
  | openSocket (fd : ℕ)
  | destroySocket (granted : Bool) (fd : ℕ)
  deriving DecidableEq

/-- A `subscribe` that throws leaves a state to go on from, except in a
destructor, where it ends the process. -/
def step (s : State) : Act → Option State
  | .subscribe granted fd e => (s.subscribe granted fd e).state?
  | .unsubscribe granted fd => (s.subscribe granted fd Event.none).state?
  | .openSocket fd =>
    if s.kernel.opened fd = false then
      some { s with kernel := { s.kernel with opened := Function.update s.kernel.opened fd true } }
    else none
  | .destroySocket granted fd =>
    if s.kernel.opened fd = true then
      (s.subscribe granted fd Event.none).returned?.map fun s =>
        { s with kernel := s.kernel.close fd }
    else none

/-- The copy agrees with the interest set. -/
structure Mirrors (s : State) : Prop where
  mask : ∀ fd e, s.kernel.interest fd = some e → s.poller.focusAt fd = e
  none_iff : ∀ fd, s.poller.focusAt fd = Event.none ↔ s.kernel.interest fd = none

theorem init_mirrors : Mirrors init := by
  refine ⟨?_, ?_⟩
  · intro fd e h
    cases h
  · intro fd
    exact iff_of_true rfl rfl

/-- Each operation fits what is registered, and there is one unless the mask
is the one registered already. -/
structure Legal (s : State) (fd : ℕ) (e : Event) : Prop where
  add : s.issued fd e = some .add → s.kernel.interest fd = none
  registered : ∀ op, s.issued fd e = some op → op ≠ .add → s.kernel.interest fd ≠ none
  silent : s.issued fd e = none ↔ s.poller.focusAt fd = e

theorem ctlOp_eq_none_iff {now target : Event} : ctlOp now target = none ↔ now = target := by
  unfold ctlOp
  split_ifs <;> simp_all

/-- The operation follows from which of the masks are empty. -/
theorem ctlOp_eq_some {now target : Event} {op : CtlOp} (h : ctlOp now target = some op) :
    (op = .add ↔ now = Event.none) ∧ (op = .del → target = Event.none) ∧
      (op ≠ .del → target ≠ Event.none) := by
  unfold ctlOp at h
  split_ifs at h with heq hnow htarget
  · obtain rfl := Option.some.inj h
    simp [hnow, htarget]
  · obtain rfl := Option.some.inj h
    simp only [ne_eq, not_not] at htarget
    simp [hnow, htarget]
  · obtain rfl := Option.some.inj h
    simp only [ne_eq, not_not] at hnow
    simpa [hnow, eq_comm] using heq

theorem Mirrors.legal {s : State} (hs : Mirrors s) (fd : ℕ) (e : Event) : Legal s fd e := by
  refine ⟨?_, ?_, ctlOp_eq_none_iff⟩
  · intro hop
    exact (hs.none_iff fd).mp ((ctlOp_eq_some hop).1.mp rfl)
  · intro op hop hne hnone
    exact hne ((ctlOp_eq_some hop).1.mpr ((hs.none_iff fd).mpr hnone))

theorem ctl_eq_some {granted : Bool} {op : CtlOp} {fd : ℕ} {e : Event} {k k' : Kernel}
    (h : k.ctl granted op fd e = some k') :
    k'.interest = Function.update k.interest fd (if op = .del then none else some e) := by
  unfold Kernel.ctl at h
  split_ifs at h
  split at h
  · obtain rfl := Option.some.inj h
    rfl
  · obtain rfl := Option.some.inj h
    rfl
  · obtain rfl := Option.some.inj h
    rfl
  · cases h

/-- A call that returns leaves the wanted mask on both sides; one that throws
leaves both sides as they were. -/
inductive Subscribed (fd : ℕ) (e : Event) (s : State) : Outcome State → Prop
  | returned (s' : State)
      (hfocus : ∀ k, s'.poller.focusAt k = if k = fd then e else s.poller.focusAt k)
      (hinterest : s'.kernel.interest = Function.update s.kernel.interest fd
        (if e = Event.none then none else some e)) : Subscribed fd e s (.returned s')
  | thrown (s' : State) (hfocus : ∀ k, s'.poller.focusAt k = s.poller.focusAt k)
      (hkernel : s'.kernel = s.kernel) : Subscribed fd e s (.thrown s')
  | fault : Subscribed fd e s .fault

theorem Mirrors.interest_eq {s : State} (hs : Mirrors s) (fd : ℕ) :
    s.kernel.interest fd =
      if s.poller.focusAt fd = Event.none then none else some (s.poller.focusAt fd) := by
  cases hfd : s.kernel.interest fd with
  | none => rw [if_pos ((hs.none_iff fd).mpr hfd)]
  | some e =>
    have hmask := hs.mask fd e hfd
    have hne : s.poller.focusAt fd ≠ Event.none := by
      intro hnone
      rw [(hs.none_iff fd).mp hnone] at hfd
      cases hfd
    rw [if_neg hne, hmask]

theorem Mirrors.subscribed {s : State} (hs : Mirrors s) (granted : Bool) (fd : ℕ) (e : Event) :
    Subscribed fd e s (s.subscribe granted fd e) := by
  unfold State.subscribe
  cases hop : s.issued fd e with
  | none =>
    -- No call: the mask is the one registered, on both sides.
    have hsame : s.poller.focusAt fd = e := ctlOp_eq_none_iff.mp hop
    simp only [Option.isSome_some, Option.getD_some]
    cases hcall : s.poller.subscribe true fd e with
    | returned poller =>
      refine .returned _ (subscribe_focusAt hcall) ?_
      rw [← hsame, ← hs.interest_eq fd, Function.update_eq_self]
    | thrown poller => cases (subscribe_thrown hcall).2
    | fault => exact .fault
  | some op =>
    simp only
    cases hctl : s.kernel.ctl granted op fd e with
    | none =>
      simp only [Option.isSome_none, Option.getD_none]
      cases hcall : s.poller.subscribe false fd e with
      | returned poller =>
        obtain ⟨-, -, -, hfalse | hsame⟩ := subscribe_returned hcall
        · cases hfalse
        · rw [State.issued, ctlOp_eq_none_iff.mpr hsame] at hop
          cases hop
      | thrown poller =>
        refine .thrown _ ?_ rfl
        intro k
        rw [(subscribe_thrown hcall).1]
        exact focusAt_adjustSize s.poller fd k
      | fault => exact .fault
    | some kernel =>
      simp only [Option.isSome_some, Option.getD_some]
      cases hcall : s.poller.subscribe true fd e with
      | returned poller =>
        refine .returned _ (subscribe_focusAt hcall) ?_
        obtain ⟨-, hdel, hkeep⟩ := ctlOp_eq_some hop
        simp only [ctl_eq_some hctl]
        congr 1
        by_cases hdelete : op = .del
        · rw [if_pos hdelete, if_pos (hdel hdelete)]
        · rw [if_neg hdelete, if_neg (hkeep hdelete)]
      | thrown poller => cases (subscribe_thrown hcall).2
      | fault => exact .fault

theorem mirrors_subscribed {s s' : State} {fd : ℕ} {e : Event} {x : Outcome State}
    (hs : Mirrors s) (hx : Subscribed fd e s x) (h : x.state? = some s') : Mirrors s' := by
  cases hx with
  | returned u hfocus hinterest =>
    obtain rfl := Option.some.inj h
    refine ⟨?_, ?_⟩
    · intro k mask hk
      rw [hinterest] at hk
      rw [hfocus]
      by_cases hkfd : k = fd
      · subst hkfd
        rw [Function.update_self] at hk
        split at hk
        · cases hk
        · simpa using Option.some.inj hk
      · rw [Function.update_of_ne hkfd] at hk
        rw [if_neg hkfd]
        exact hs.mask k mask hk
    · intro k
      rw [hinterest, hfocus]
      by_cases hkfd : k = fd
      · subst hkfd
        by_cases hnone : e = Event.none <;> simp [hnone]
      · rw [Function.update_of_ne hkfd, if_neg hkfd]
        exact hs.none_iff k
  | thrown u hfocus hkernel =>
    obtain rfl := Option.some.inj h
    refine ⟨?_, ?_⟩
    · intro k mask hk
      rw [hfocus]
      exact hs.mask k mask (hkernel ▸ hk)
    · intro k
      rw [hfocus, hkernel]
      exact hs.none_iff k
  | fault => cases h

/-- `close` finds the descriptor out of the set, where `~socket` has put it. -/
theorem mirrors_closed {s s' : State} {fd : ℕ} (hs : Mirrors s)
    (hnone : s.poller.focusAt fd = Event.none)
    (h : s' = { s with kernel := s.kernel.close fd }) : Mirrors s' := by
  have hinterest : s'.kernel.interest = s.kernel.interest := by
    rw [h, ← Function.update_eq_self fd s.kernel.interest, (hs.none_iff fd).mp hnone]
    simp [Kernel.close]
  have hpoller : s'.poller = s.poller := by rw [h]
  refine ⟨?_, ?_⟩
  · rw [hinterest, hpoller]
    exact hs.mask
  · rw [hinterest, hpoller]
    exact hs.none_iff

theorem step_mirrors {s s' : State} {a : Act} (hs : Mirrors s) (h : step s a = some s') :
    Mirrors s' := by
  cases a with
  | subscribe granted fd e => exact mirrors_subscribed hs (hs.subscribed granted fd e) h
  | unsubscribe granted fd => exact mirrors_subscribed hs (hs.subscribed granted fd _) h
  | openSocket fd =>
    simp only [step, Option.ite_none_right_eq_some, Option.some.injEq] at h
    obtain ⟨-, rfl⟩ := h
    exact ⟨hs.mask, hs.none_iff⟩
  | destroySocket granted fd =>
    simp only [step, Option.ite_none_right_eq_some, Option.map_eq_some_iff] at h
    obtain ⟨-, u, hu, rfl⟩ := h
    have hcall := hs.subscribed granted fd Event.none
    have hreturned := Outcome.returned?_eq_some.mp hu
    have hu' := mirrors_subscribed hs hcall (by rw [hreturned]; rfl : _ = some u)
    refine mirrors_closed hu' ?_ rfl
    rw [hreturned] at hcall
    cases hcall with
    | returned _ hfocus hinterest => simp [hfocus]

theorem run_mirrors {acts : List Act} {s : State} (h : Runs.exec step init acts = some s) :
    Mirrors s :=
  Runs.exec_preserves (fun _ _ _ hs hstep => step_mirrors hs hstep) init_mirrors h

/-- After every history the copy agrees with the interest set, the next
operation fits what is registered, and a call that fails changes neither. -/
theorem focus_mirrors_interest {acts : List Act} {s : State}
    (h : Runs.exec step init acts = some s) :
    (∀ fd e, s.kernel.interest fd = some e → s.poller.focusAt fd = e) ∧
      (∀ fd, s.poller.focusAt fd = Event.none ↔ s.kernel.interest fd = none) ∧
      (∀ fd e, Legal s fd e) ∧
      ∀ granted fd e s', s.subscribe granted fd e = .thrown s' →
        (∀ k, s'.poller.focusAt k = s.poller.focusAt k) ∧ s'.kernel = s.kernel := by
  have hs := run_mirrors h
  refine ⟨hs.mask, hs.none_iff, hs.legal, ?_⟩
  intro granted fd e s' hthrown
  have hcall := hs.subscribed granted fd e
  rw [hthrown] at hcall
  cases hcall with
  | thrown _ hfocus hkernel => exact ⟨hfocus, hkernel⟩

def sampleRun : List Act :=
  [.openSocket 5, .subscribe true 5 Event.read, .subscribe false 5 Event.write,
    .destroySocket true 5, .openSocket 5, .subscribe true 5 Event.write]

theorem focus_mirrors_interest_sample : ∃ s, Runs.exec step init sampleRun = some s ∧
    s.kernel.interest 5 = some Event.write ∧ s.poller.focusAt 5 = Event.write ∧
      Legal s 5 Event.read := by
  have hrun : ((Runs.exec step init sampleRun).map fun s => s.kernel.interest 5) =
      some (some Event.write) := by
    decide +kernel
  obtain ⟨s, hs, hinterest⟩ := Option.map_eq_some_iff.mp hrun
  obtain ⟨hmask, -, hlegal, -⟩ := focus_mirrors_interest hs
  exact ⟨s, hs, hinterest, hmask 5 _ hinterest, hlegal 5 Event.read⟩

end Bc.InterestSet
