import Bc.EventLoop

/-!
What the poller is subscribed to. While an event is handled, the waiters of
its descriptor are out of the table, so posts on that descriptor subscribe a
mask without them; the end of the handler repairs it. For every other
descriptor the mask is right after each single step.
-/
namespace Bc.SubscribedMasks

open Cxx Polling Scheduling EraseLoop Dispatch EventLoop

theorem maskOf_append_singleton (nodes : List DescriptorNode) (node : DescriptorNode) :
    maskOf (nodes ++ [node]) = maskOf nodes ||| node.ev := by
  simp only [maskOf, List.foldl_append, List.foldl_cons, List.foldl_nil]

/-- A bit is in the OR of the masks exactly if some waiter has asked for it. -/
theorem maskOf_getLsbD (nodes : List DescriptorNode) (i : ℕ) :
    (maskOf nodes).getLsbD i = true ↔ ∃ node ∈ nodes, node.ev.getLsbD i = true := by
  induction nodes using List.reverseRecOn with
  | nil => simp [maskOf, Event.none]
  | append_singleton nodes node ih =>
    rw [maskOf_append_singleton, BitVec.getLsbD_or, Bool.or_eq_true, ih]
    simp only [List.mem_append, List.mem_singleton, or_and_right, exists_or, exists_eq_left]

/-- The descriptor whose event is being handled. -/
def dispatched : Pc → Option ℕ
  | .scan d => some d.entry.fd
  | .call d => some d.entry.fd
  | _ => none

/-- The waiters of a descriptor that the handler in progress holds, the one
being resumed left out. -/
def parkedOn (pc : Pc) (fd : ℕ) : List DescriptorNode :=
  match pc with
  | .scan d => if d.entry.fd = fd then d.cursor.list else []
  | .call d => if d.entry.fd = fd then d.cursor.kept ++ d.cursor.rest.drop 1 else []
  | _ => []

/-- A socket is destroyed only when no other waiter is registered on its
descriptor. -/
def ClosesAlone (s : State) : Act → Prop
  | .closeSocket fd => s.sched.nodesAt fd = [] ∧ parkedOn s.pc fd = []
  | _ => True

instance (s : State) (a : Act) : Decidable (ClosesAlone s a) :=
  match a with
  | .closeSocket _ => inferInstanceAs (Decidable (_ ∧ _))
  | .postTimer _ _ | .postCoro _ _ _ _ | .openSocket _ | .resumed _ | .run | .test
  | .expire _ _ | .wait _ _ | .take | .turn =>
    inferInstanceAs (Decidable True)

def Subscribed (s : State) : Prop :=
  ∀ fd, dispatched s.pc ≠ some fd →
    s.sched.poller.focusAt fd = maskOf (s.sched.nodesAt fd)

theorem init_subscribed : Subscribed init := by
  intro fd _
  rfl

theorem Subscribed.of_same {s s' : State} (hs : Subscribed s)
    (hnodes : s'.sched.descriptorNodes = s.sched.descriptorNodes)
    (hpoller : s'.sched.poller = s.sched.poller)
    (hpc : ∀ fd, dispatched s'.pc ≠ some fd → dispatched s.pc ≠ some fd) : Subscribed s' := by
  intro fd hfd
  rw [hpoller, Scheduler.nodesAt, hnodes]
  exact hs fd (hpc fd hfd)

theorem step_subscribed {s s' : State} {a : Act} (hs : Subscribed s) (hclose : ClosesAlone s a)
    (h : step s a = some s') : Subscribed s' := by
  cases step_cases h with
  | postTimer => exact hs.of_same rfl rfl fun _ hfd => hfd
  | postCoro fd e frame next sched hrun hposted =>
    intro k hk
    rw [hposted.focusAt k, hposted.nodesAt k]
    by_cases hkfd : k = fd
    · simp only [hkfd, if_true]
    · simp only [hkfd, if_false]
      exact hs k hk
  | openSocket => exact hs
  | closeSocket fd poller hrun hopen hsub =>
    intro k hk
    change poller.focusAt k = maskOf (s.sched.nodesAt k)
    rw [Poller.subscribe_focusAt hsub k]
    by_cases hkfd : k = fd
    · subst k
      rw [if_pos rfl, hclose.1]
      rfl
    · rw [if_neg hkfd]
      exact hs k hk
  | timerResumed _ _ _ hpc => exact hs.of_same rfl rfl fun fd hfd => by simp [hpc, dispatched]
  | callReady _ d _ _ hpc =>
    exact hs.of_same rfl rfl fun fd hfd => by simpa [hpc, dispatched] using hfd
  | callRefused d _ _ hpc =>
    exact hs.of_same rfl rfl fun fd hfd => by simpa [hpc, dispatched] using hfd
  | run hpc => exact hs.of_same rfl rfl fun fd hfd => by simp [hpc, dispatched]
  | testStop hpc => exact hs.of_same rfl rfl fun fd hfd => by simp [hpc, dispatched]
  | testGo hpc => exact hs.of_same rfl rfl fun fd hfd => by simp [hpc, dispatched]
  | expireNone _ _ _ hpc => exact hs.of_same rfl rfl fun fd hfd => by simp [hpc, dispatched]
  | expirePop _ _ _ _ hpc => exact hs.of_same rfl rfl fun fd hfd => by simp [hpc, dispatched]
  | waitPoll _ _ hpc => exact hs.of_same rfl rfl fun fd hfd => by simp [hpc, dispatched]
  | waitSleep _ hpc => exact hs.of_same rfl rfl fun fd hfd => by simp [hpc, dispatched]
  | takeEnd _ hpc => exact hs.of_same rfl rfl fun fd hfd => by simp [hpc, dispatched]
  | takeEntry size entry later hpc hvalid hslot =>
    intro k hk
    have hne : k ≠ entry.fd := by
      intro heq
      exact hk (by rw [heq]; rfl)
    change s.sched.poller.focusAt k = maskOf ((s.sched.setNodes entry.fd []).nodesAt k)
    rw [Scheduler.nodesAt_setNodes hslot, if_neg hne]
    exact hs k (by simp [hpc, dispatched])
  | turnEnd d sched hpc hrest hback =>
    intro k _
    rw [hback.focusAt k, hback.nodesAt k]
    by_cases hkfd : k = d.entry.fd
    · simp only [hkfd, if_true]
    · simp only [hkfd, if_false]
      refine hs k ?_
      simp only [hpc, dispatched, ne_eq, Option.some.injEq]
      exact Ne.symm hkfd
  | turnCall d node rest hpc =>
    exact hs.of_same rfl rfl fun fd hfd => by simpa [hpc, dispatched] using hfd
  | turnPass d node rest hpc =>
    exact hs.of_same rfl rfl fun fd hfd => by simpa [hpc, dispatched] using hfd

theorem run_subscribed {acts : List Act} {s : State}
    (hclose : Runs.Along step ClosesAlone init acts) (h : Runs.exec step init acts = some s) :
    Subscribed s :=
  Runs.exec_invariant (fun _ _ _ hs hP hstep => step_subscribed hs hP hstep) init_subscribed
    hclose h

/-- Between two dispatches the poller is subscribed to what the waiters of
each descriptor ask for, no less and no more. -/
theorem focus_eq_maskOf {acts : List Act} {s : State}
    (hclose : Runs.Along step ClosesAlone init acts) (h : Runs.exec step init acts = some s)
    (hbetween : dispatched s.pc = none) (fd : ℕ) :
    s.sched.poller.focusAt fd = maskOf (s.sched.nodesAt fd) ∧
      ∀ i, (s.sched.poller.focusAt fd).getLsbD i = true ↔
        ∃ node ∈ s.sched.nodesAt fd, node.ev.getLsbD i = true := by
  have hfocus : s.sched.poller.focusAt fd = maskOf (s.sched.nodesAt fd) :=
    run_subscribed hclose h fd (by simp [hbetween])
  refine ⟨hfocus, fun i => ?_⟩
  rw [hfocus]
  exact maskOf_getLsbD _ i

theorem focus_eq_maskOf_sample : ∃ s,
    Runs.exec step init (sampleRun.take 13) = some s ∧ s.sched.nodesAt 5 ≠ [] ∧
      s.sched.poller.focusAt 5 = maskOf (s.sched.nodesAt 5) := by
  have hrun : ((Runs.exec step init (sampleRun.take 13)).map fun s =>
      (dispatched s.pc, s.sched.nodesAt 5)) =
        some (none, [⟨Event.read, ⟨2, some 0⟩, .proxy 2⟩]) := by
    decide +kernel
  obtain ⟨s, hs, heq⟩ := Option.map_eq_some_iff.mp hrun
  simp only [Prod.mk.injEq] at heq
  refine ⟨s, hs, by simp [heq.2], ?_⟩
  exact (focus_eq_maskOf (by decide +kernel) hs heq.1 5).1

end Bc.SubscribedMasks
