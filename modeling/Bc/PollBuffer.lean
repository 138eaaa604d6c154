import Bc.EventLoop

/-!
The vector that `poll` iterates over while coroutines run. A post or the
destruction of a socket reaches `subscribe`, and `subscribe` may resize it.
-/
namespace Bc.PollBuffer

open Cxx Polling Scheduling EraseLoop Dispatch EventLoop

/-- The size that `evs_` had when the batch being handled was fetched. -/
def pollSize : Pc → Option ℕ
  | .batch size _ => some size
  | .scan d => some d.size
  | .call d => some d.size
  | _ => none

/-- The iterators of the loop in `poll` are valid. -/
def BufferKept (s : State) : Prop :=
  ∀ size, pollSize s.pc = some size → s.sched.poller.evs.length = size

/-- While a batch is being handled, code uses descriptors below the size of
`evs_` only. -/
def WithinBuffer (s : State) : Act → Prop
  | .postCoro fd _ _ _ => pollSize s.pc ≠ none → fd < s.sched.poller.evs.length
  | .closeSocket fd => pollSize s.pc ≠ none → fd < s.sched.poller.evs.length
  | _ => True

instance (s : State) (a : Act) : Decidable (WithinBuffer s a) :=
  match a with
  | .postCoro _ _ _ _ | .closeSocket _ => inferInstanceAs (Decidable (_ → _))
  | .postTimer _ _ | .openSocket _ | .resumed _ | .run | .test | .expire _ _ | .wait _ _
  | .take | .turn =>
    inferInstanceAs (Decidable True)

/-- The poller's vectors have room for every descriptor with a slot, and their
size is zero or a power of two. -/
structure Sized (s : Scheduler) : Prop where
  slots_le : s.descriptorNodes.length ≤ s.poller.focus.length
  ceil : s.poller.focus.length = 0 ∨ ∃ k, s.poller.focus.length = 2 ^ k

theorem adjustSize_ceil {p : Poller} (h : p.focus.length = 0 ∨ ∃ k, p.focus.length = 2 ^ k)
    (fd : ℕ) : (p.adjustSize fd).focus.length = 0 ∨
      ∃ k, (p.adjustSize fd).focus.length = 2 ^ k := by
  rw [Poller.length_adjustSize]
  split
  · exact h
  · exact Or.inr ⟨_, rfl⟩

theorem bitCeil_le_adjustSize {p : Poller}
    (h : p.focus.length = 0 ∨ ∃ k, p.focus.length = 2 ^ k) (fd : ℕ) :
    bitCeil fd ≤ (p.adjustSize fd).focus.length := by
  rw [Poller.length_adjustSize]
  split
  · rename_i hlt
    rcases h with hzero | ⟨k, hk⟩
    · omega
    · rw [hk] at hlt ⊢
      exact (bitCeil_le_iff fd k).mpr hlt.le
  · exact le_refl _

theorem sized_posted {s s' : Scheduler} {ok : Bool} {fd : ℕ} {node : DescriptorNode}
    (hs : Sized s) (h : Scheduler.Posted s s' ok fd node) : Sized s' := by
  have hlength := Poller.subscribe_length h.poller
  have hle := hs.slots_le
  have hceil := bitCeil_le_adjustSize hs.ceil fd
  have hgrow := Poller.length_le_adjustSize s.poller fd
  constructor
  · rw [h.length, Scheduler.length_adjustSize, hlength]
    split <;> omega
  · rw [hlength]
    exact adjustSize_ceil hs.ceil fd

theorem sized_splicedBack {s s' : Scheduler} {ok : Bool} {fd : ℕ} {list : List DescriptorNode}
    (hs : Sized s) (h : Scheduler.SplicedBack s s' ok fd list) :
    Sized s' ∧ s'.poller.evs.length = s.poller.evs.length := by
  have hlt : fd < s.poller.focus.length := lt_of_lt_of_le h.inRange hs.slots_le
  have hlength := Poller.subscribe_length h.poller
  rw [Poller.adjustSize_of_lt hlt] at hlength
  refine ⟨⟨?_, ?_⟩, ?_⟩
  · rw [h.length, hlength]
    exact hs.slots_le
  · rw [hlength]
    exact hs.ceil
  · rw [s'.poller.sizes_eq, s.poller.sizes_eq, hlength]

theorem sized_unsubscribed {s : Scheduler} {fd : ℕ} {poller : Poller} (hs : Sized s)
    (h : s.poller.unsubscribe true fd = .returned poller) :
    Sized { s with poller := poller } := by
  have hlength := Poller.subscribe_length h
  have hgrow := Poller.length_le_adjustSize s.poller fd
  have hle := hs.slots_le
  constructor
  · simp only [hlength]
    omega
  · simp only [hlength]
    exact adjustSize_ceil hs.ceil fd

theorem sized_of_same {s s' : Scheduler} (hs : Sized s)
    (hnodes : s'.descriptorNodes.length = s.descriptorNodes.length)
    (hpoller : s'.poller = s.poller) : Sized s' := by
  constructor
  · rw [hnodes, hpoller]
    exact hs.slots_le
  · rw [hpoller]
    exact hs.ceil

theorem step_sized {s s' : State} {a : Act} (hs : Sized s.sched) (h : step s a = some s') :
    Sized s'.sched := by
  cases step_cases h with
  | postCoro fd e frame next sched hrun hposted => exact sized_posted hs hposted
  | closeSocket fd poller hrun hopen hsub => exact sized_unsubscribed hs hsub
  | turnEnd d sched hpc hrest hback => exact (sized_splicedBack hs hback).1
  | takeEntry =>
    exact sized_of_same hs (by simp only [Scheduler.setNodes, List.length_set]) rfl
  | postTimer | timerResumed | callReady | expirePop => exact sized_of_same hs rfl rfl
  | openSocket | callRefused | run | testStop | testGo | expireNone | waitPoll | waitSleep
  | takeEnd | turnCall | turnPass => exact hs

/-- A subscription keeps the size of `evs_` exactly if it is within it. -/
theorem subscribe_keeps_iff {p q : Poller} {ok : Bool} {fd : ℕ} {e : Event}
    (h : p.subscribe ok fd e = .returned q) :
    q.evs.length = p.evs.length ↔ fd < p.evs.length := by
  have hlength := Poller.subscribe_length h
  obtain ⟨-, hlt, -, -⟩ := Poller.subscribe_returned h
  rw [q.sizes_eq, p.sizes_eq, hlength]
  constructor
  · intro heq
    rwa [heq] at hlt
  · intro hfd
    rw [Poller.adjustSize_of_lt hfd]

/-- A subscription made in a poll keeps the iterators exactly if it is within
the buffer; outside a poll there are none. -/
theorem bufferKept_iff {s s' : State} {ok : Bool} {fd : ℕ} {e : Event} (hs : BufferKept s)
    (hpc : s'.pc = s.pc)
    (hsub : s.sched.poller.subscribe ok fd e = .returned s'.sched.poller) :
    BufferKept s' ↔ (pollSize s.pc ≠ none → fd < s.sched.poller.evs.length) := by
  have hkeeps := subscribe_keeps_iff hsub
  unfold BufferKept at hs ⊢
  rw [hpc]
  cases hsize : pollSize s.pc with
  | none => simp
  | some size =>
    have hold := hs size hsize
    simp only [Option.some.injEq, forall_eq', ne_eq, reduceCtorEq, not_false_eq_true,
      forall_const]
    rw [← hkeeps, hold]

theorem bufferKept_of_same {s s' : State} (hs : BufferKept s)
    (hevs : s'.sched.poller.evs.length = s.sched.poller.evs.length)
    (hpc : pollSize s'.pc = none ∨ pollSize s'.pc = pollSize s.pc) : BufferKept s' := by
  intro size hsize
  rw [hevs]
  rcases hpc with hnone | hsame
  · rw [hnone] at hsize
    cases hsize
  · exact hs size (hsame ▸ hsize)

theorem step_bufferKept_iff {s s' : State} {a : Act} (hsized : Sized s.sched)
    (hs : BufferKept s) (h : step s a = some s') : BufferKept s' ↔ WithinBuffer s a := by
  cases step_cases h with
  | postCoro fd e frame next sched hrun hposted => exact bufferKept_iff hs rfl hposted.poller
  | closeSocket fd poller hrun hopen hsub => exact bufferKept_iff hs rfl hsub
  | postTimer | openSocket => exact iff_of_true hs trivial
  | timerResumed | run | testStop | testGo | waitSleep | takeEnd | expirePop =>
    exact iff_of_true (bufferKept_of_same hs rfl (Or.inl rfl)) trivial
  | expireNone =>
    refine iff_of_true (bufferKept_of_same hs rfl (Or.inl ?_)) trivial
    simp only
    split <;> rfl
  | callReady _ d _ _ hpc =>
    exact iff_of_true (bufferKept_of_same hs rfl (Or.inr (by rw [hpc]; rfl))) trivial
  | callRefused d _ _ hpc =>
    exact iff_of_true (bufferKept_of_same hs rfl (Or.inr (by rw [hpc]; rfl))) trivial
  | waitPoll now batch hpc hmore htimeout hfits =>
    refine iff_of_true ?_ trivial
    intro size hsize
    exact Option.some.inj hsize
  | takeEntry size entry later hpc =>
    exact iff_of_true (bufferKept_of_same hs rfl (Or.inr (by rw [hpc]; rfl))) trivial
  | turnEnd d sched hpc hrest hback =>
    have hevs := (sized_splicedBack hsized hback).2
    exact iff_of_true (bufferKept_of_same hs hevs (Or.inr (by rw [hpc]; rfl))) trivial
  | turnCall d _ _ hpc =>
    exact iff_of_true (bufferKept_of_same hs rfl (Or.inr (by rw [hpc]; rfl))) trivial
  | turnPass d _ _ hpc =>
    exact iff_of_true (bufferKept_of_same hs rfl (Or.inr (by rw [hpc]; rfl))) trivial

/-- In a run of any length the buffer is never resized under `poll` exactly
when the code run from a batch stays below its size. -/
theorem bufferKept_throughout_iff {acts : List Act} {s : State}
    (h : Runs.exec step init acts = some s) :
    Runs.Throughout step BufferKept init acts ↔ Runs.Along step WithinBuffer init acts := by
  refine Runs.throughout_iff_along (I := fun s => Sized s.sched)
    (fun _ _ _ hs hstep => step_sized hs hstep)
    (fun _ _ _ hs hQ hstep => step_bufferKept_iff hs hQ hstep) ?_ ?_ h
  · exact ⟨Nat.le_refl 0, Or.inl rfl⟩
  · intro size hsize
    cases hsize

theorem bufferKept_throughout_iff_sample : ∃ s, Runs.exec step init sampleRun = some s ∧
    (Runs.Throughout step BufferKept init sampleRun ↔
      Runs.Along step WithinBuffer init sampleRun) := by
  have hrun : (Runs.exec step init sampleRun).isSome = true := by decide +kernel
  obtain ⟨s, hs⟩ := Option.isSome_iff_exists.mp hrun
  exact ⟨s, hs, bufferKept_throughout_iff hs⟩

/-- A coroutine resumed by the first of two entries opens a connection with
descriptor 9 and reads from it; there was room for eight. -/
def growingRun : List Act :=
  [.openSocket 5, .openSocket 6, .postCoro 5 Event.read 0 (.handle 0),
    .postCoro 6 Event.read 1 (.handle 1), .run, .test, .expire 0 0,
    .wait 0 [(5, Event.read), (6, Event.read)], .take, .turn, .openSocket 9,
    .postCoro 9 Event.read 2 (.handle 2)]

theorem buffer_resized_in_poll :
    ¬ ∀ acts s, Runs.exec step init acts = some s → BufferKept s := by
  intro h
  have hrun : ((Runs.exec step init growingRun).map fun s =>
      (pollSize s.pc, s.sched.poller.evs.length)) = some (some 8, 16) := by
    decide +kernel
  obtain ⟨s, hs, heq⟩ := Option.map_eq_some_iff.mp hrun
  simp only [Prod.mk.injEq] at heq
  have hkept := h growingRun s hs 8 heq.1
  omega

end Bc.PollBuffer
