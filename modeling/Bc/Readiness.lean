import Bc.EventReports
import Bc.HandlerRuns
import Bc.InterestSet

/-!
The event loop beside the kernel. A `subscribe` of the loop that changes a mask is
one call of `epoll_ctl`, which the kernel takes or refuses; a refused call throws
out of the loop. No call is refused for what the interest set holds, and between two
dispatches the set is what the waiters ask for: epoll reports to each of them what
it waits for.
-/
namespace Bc.Readiness

open Cxx Polling Scheduling EraseLoop Dispatch EventLoop SubscribedMasks EventReports HandlerRuns
open InterestSet (Kernel Mirrors)

structure State where
  loop : EventLoop.State
  kernel : Kernel

def init : State := ⟨EventLoop.init, ⟨fun _ => none, fun _ => false⟩⟩

def subscribed (s : EventLoop.State) : EventLoop.Act → Option ℕ
  | .postCoro fd _ _ _ => some fd
  | .closeSocket fd => some fd
  | .turn =>
    match s.pc with
    | .scan d => if d.cursor.rest.isEmpty then some d.entry.fd else none
    | _ => none
  | _ => none

def State.interestSet (s : State) : InterestSet.State := ⟨s.loop.sched.poller, s.kernel⟩

/-- The kernel after the call of `epoll_ctl` that gives the descriptor its new mask,
if there is one. -/
def State.control (s : State) (loop : EventLoop.State) : Option ℕ → Option Kernel
  | none => some s.kernel
  | some fd =>
    (s.interestSet.subscribe true fd (loop.sched.poller.focusAt fd)).returned?.map
      InterestSet.State.kernel

/-- `socket` or `accept4`, and `close`. -/
def files (k : Kernel) : EventLoop.Act → Kernel
  | .openSocket fd => { k with opened := Function.update k.opened fd true }
  | .closeSocket fd => k.close fd
  | _ => k

def step (s : State) (a : EventLoop.Act) : Option State :=
  (EventLoop.step s.loop a).bind fun loop =>
    (s.control loop (subscribed s.loop a)).map fun kernel => ⟨loop, files kernel a⟩

/-- What `epoll_wait` has to say of a descriptor in some condition. -/
def reports (k : Kernel) (conditions : Event) (fd : ℕ) : Option Event :=
  (k.interest fd).bind fun mask =>
    let e := conditions &&& (mask ||| Event.error ||| Event.hangup)
    if e = Event.none then none else some e

/-- A socket is destroyed when no other waiter waits on it and waited on while it is
open, and a proxy that refuses has not destroyed its socket. -/
def KeepsOpen (s : EventLoop.State) (a : EventLoop.Act) : Prop :=
  ClosesAlone s a ∧
    match a with
    | .postCoro fd _ _ _ => s.socks fd ≠ none
    | .resumed false => ∀ fd ∈ dispatched s.pc, s.socks fd ≠ none
    | _ => True

/-- Where the event is next in a batch, the loop handles it so: `w` is what it has left
when it comes to the rest of the batch. -/
def Handled (s : EventLoop.State) (fd : ℕ) (e : Event) (behaviour : ℕ → Resumption) (w : World) :
    Prop :=
  ∀ size sock later, s.pc = .batch size (⟨fd, e, sock⟩ :: later) →
    s.sched.poller.evs.length = size →
    (∀ k, ∀ request ∈ (behaviour k).requests, Plain s.socks request) →
    ∃ more, Runs.exec EventLoop.step s more =
      some { s with toWorld := w, pc := .batch size later }

instance (s : EventLoop.State) (a : EventLoop.Act) : Decidable (KeepsOpen s a) := by
  unfold KeepsOpen
  exact match a with
  | .postCoro _ _ _ _ => inferInstanceAs (Decidable (_ ∧ _ ≠ _))
  | .resumed false => inferInstanceAs (Decidable (_ ∧ ∀ fd ∈ _, _))
  | .resumed true | .closeSocket _ | .postTimer _ _ | .openSocket _ | .run | .test
  | .expire _ _ | .wait _ _ | .take | .turn => inferInstanceAs (Decidable (_ ∧ True))

section Calls

variable {s s' : EventLoop.State} {a : EventLoop.Act}

/-- All that a step does to the poller is the subscription. -/
theorem step_poller (h : EventLoop.step s a = some s') :
    match subscribed s a with
    | none => s'.sched.poller = s.sched.poller
    | some fd => s.sched.poller.subscribe true fd (s'.sched.poller.focusAt fd) =
        .returned s'.sched.poller := by
  cases step_cases h with
  | postCoro fd e frame next sched hrun hposted =>
    have hfocus := hposted.focusAt fd
    rw [if_pos rfl] at hfocus
    simpa only [subscribed, hfocus] using hposted.poller
  | closeSocket fd poller hrun hopen hsub =>
    have hfocus := Poller.subscribe_focusAt hsub fd
    rw [if_pos rfl] at hfocus
    rw [Poller.unsubscribe] at hsub
    simpa only [subscribed, hfocus] using hsub
  | turnEnd d sched hpc hrest hback =>
    have hfocus := hback.focusAt d.entry.fd
    rw [if_pos rfl] at hfocus
    simpa [subscribed, hpc, hrest, hfocus] using hback.poller
  | turnCall d node rest hpc hrest | turnPass d node rest hpc hrest =>
    simp [subscribed, hpc, hrest]
  | postTimer | openSocket | timerResumed | callReady | callRefused | run | testStop | testGo
  | expireNone | expirePop | waitPoll | waitSleep | takeEnd | takeEntry => rfl

theorem step_socks (h : EventLoop.step s a = some s') (fd : ℕ) :
    (s'.socks fd).isSome =
      match a with
      | .openSocket k => Function.update (fun k => (s.socks k).isSome) k true fd
      | .closeSocket k => Function.update (fun k => (s.socks k).isSome) k false fd
      | _ => (s.socks fd).isSome := by
  cases step_cases h with
  | openSocket k | closeSocket k =>
    by_cases hk : fd = k <;> simp [hk]
  | postTimer | postCoro | timerResumed | callReady | callRefused | run | testStop | testGo
  | expireNone | expirePop | waitPoll | waitSleep | takeEnd | takeEntry | turnEnd | turnCall
  | turnPass => rfl

end Calls

/-- Waiters, also those that the handler in progress holds, wait on open sockets. -/
structure OnOpen (s : EventLoop.State) : Prop where
  table : ∀ fd, s.socks fd = none → s.sched.nodesAt fd = []
  parked : ∀ fd, s.socks fd = none → parkedOn s.pc fd = []
  focus : ∀ fd, s.socks fd = none → s.sched.poller.focusAt fd = Event.none

section Open

variable {s s' : EventLoop.State} {a : EventLoop.Act}

theorem init_onOpen : OnOpen EventLoop.init :=
  ⟨fun _ _ => rfl, fun _ _ => rfl, fun _ _ => rfl⟩

/-- Steps that change nothing but where the scheduler is. -/
theorem OnOpen.same (hs : OnOpen s) (hsocks : s'.socks = s.socks)
    (hnodes : s'.sched.descriptorNodes = s.sched.descriptorNodes)
    (hpoller : s'.sched.poller = s.sched.poller)
    (hparked : ∀ fd, parkedOn s'.pc fd ⊆ parkedOn s.pc fd) : OnOpen s' := by
  refine ⟨?_, ?_, ?_⟩
  · intro fd hfd
    rw [Scheduler.nodesAt, hnodes]
    exact hs.table fd (hsocks ▸ hfd)
  · intro fd hfd
    refine List.subset_nil.mp ?_
    rw [← hs.parked fd (hsocks ▸ hfd)]
    exact hparked fd
  · intro fd hfd
    rw [hpoller]
    exact hs.focus fd (hsocks ▸ hfd)

theorem step_onOpen (hs : OnOpen s) (ha : KeepsOpen s a) (h : EventLoop.step s a = some s') :
    OnOpen s' := by
  cases step_cases h with
  | postTimer => exact hs.same rfl rfl rfl fun _ => List.Subset.refl _
  | postCoro fd e frame next sched hrun hposted =>
    have hopen : s.socks fd ≠ none := ha.2
    refine ⟨?_, hs.parked, ?_⟩
    · intro k hk
      have hne : k ≠ fd := fun heq => hopen (heq ▸ hk)
      rw [hposted.nodesAt k, if_neg hne]
      exact hs.table k hk
    · intro k hk
      have hne : k ≠ fd := fun heq => hopen (heq ▸ hk)
      rw [hposted.focusAt k, if_neg hne]
      exact hs.focus k hk
  | openSocket fd hrun hpos hfree =>
    have hold : ∀ k, Function.update s.socks fd (some s.opened) k = none → s.socks k = none := by
      intro k hk
      by_cases heq : k = fd
      · rw [heq]
        exact hfree
      · rwa [Function.update_of_ne heq] at hk
    exact ⟨fun k hk => hs.table k (hold k hk), fun k hk => hs.parked k (hold k hk),
      fun k hk => hs.focus k (hold k hk)⟩
  | closeSocket fd poller hrun hopen hsub =>
    obtain ⟨hnodes, hparked⟩ := ha.1
    have hold : ∀ k, k ≠ fd → Function.update s.socks fd none k = none → s.socks k = none := by
      intro k hne hk
      rwa [Function.update_of_ne hne] at hk
    refine ⟨?_, ?_, ?_⟩
    · intro k hk
      by_cases heq : k = fd
      · rw [heq]
        exact hnodes
      · exact hs.table k (hold k heq hk)
    · intro k hk
      by_cases heq : k = fd
      · rw [heq]
        exact hparked
      · exact hs.parked k (hold k heq hk)
    · intro k hk
      have hfocus := Poller.subscribe_focusAt hsub k
      rw [hfocus]
      split
      · rfl
      · rename_i heq
        exact hs.focus k (hold k heq hk)
  | timerResumed | run | testStop | testGo | expirePop | waitPoll | waitSleep | takeEnd =>
    exact hs.same rfl rfl rfl fun _ => List.nil_subset _
  | expireNone =>
    refine hs.same rfl rfl rfl fun fd => ?_
    dsimp only
    split <;> exact List.nil_subset _
  | callReady answer d node rest hpc hrest hready =>
    refine hs.same rfl rfl rfl fun fd => ?_
    simp only [parkedOn, hpc, hrest, Cursor.list, List.drop_succ_cons, List.drop_zero]
    exact List.Subset.refl _
  | callRefused d node rest hpc hrest hproxy =>
    have hopen : s.socks d.entry.fd ≠ none := by
      have hfds := ha.2
      simpa [hpc, dispatched] using hfds
    refine ⟨hs.table, ?_, hs.focus⟩
    intro fd hfd
    have hne : d.entry.fd ≠ fd := fun heq => hopen (heq ▸ hfd)
    exact if_neg hne
  | takeEntry size entry later hpc hvalid hslot =>
    refine ⟨?_, ?_, hs.focus⟩
    · intro fd hfd
      rw [Scheduler.nodesAt_setNodes hslot]
      split
      · rfl
      · exact hs.table fd hfd
    · intro fd hfd
      simp only [parkedOn, Cursor.list, List.nil_append]
      split
      · rename_i heq
        rw [heq]
        exact hs.table fd hfd
      · rfl
  | turnEnd d sched hpc hrest hback =>
    -- What goes back is on an open socket, or there is nothing.
    have hkept : s.socks d.entry.fd = none →
        d.cursor.kept = [] ∧ s.sched.nodesAt d.entry.fd = [] := by
      intro hfd
      have hparked := hs.parked d.entry.fd hfd
      simp only [parkedOn, hpc, if_true, Cursor.list, hrest, List.append_nil] at hparked
      exact ⟨hparked, hs.table d.entry.fd hfd⟩
    refine ⟨?_, fun _ _ => rfl, ?_⟩
    · intro fd hfd
      rw [hback.nodesAt fd]
      split
      · rename_i heq
        obtain ⟨hnone, hnodes⟩ := hkept (heq ▸ hfd)
        rw [hnone, hnodes]
        rfl
      · exact hs.table fd hfd
    · intro fd hfd
      rw [hback.focusAt fd]
      split
      · rename_i heq
        obtain ⟨hnone, hnodes⟩ := hkept (heq ▸ hfd)
        rw [hnone, hnodes]
        rfl
      · exact hs.focus fd hfd
  | turnCall d node rest hpc hrest htriggers =>
    refine hs.same rfl rfl rfl fun fd => ?_
    simp only [parkedOn, hpc, hrest, Cursor.list, List.drop_succ_cons, List.drop_zero]
    split
    · exact ((List.sublist_cons_self node rest).append_left d.cursor.kept).subset
    · exact List.Subset.refl _
  | turnPass d node rest hpc hrest htriggers =>
    refine hs.same rfl rfl rfl fun fd => ?_
    simp [parkedOn, hpc, hrest, Cursor.list]

/-- A subscription changes nothing, or it is made for an open socket. -/
theorem step_opened (hs : OnOpen s) (ha : KeepsOpen s a) (h : EventLoop.step s a = some s')
    {fd : ℕ} (hfd : subscribed s a = some fd) :
    s.socks fd ≠ none ∨ s.sched.poller.focusAt fd = s'.sched.poller.focusAt fd := by
  by_cases hopen : s.socks fd = none
  · refine .inr ?_
    rw [hs.focus fd hopen]
    cases a with
    | postCoro k e frame next =>
      obtain rfl := Option.some.inj hfd
      exact absurd hopen ha.2
    | closeSocket k =>
      obtain rfl := Option.some.inj hfd
      cases step_cases h with
      | closeSocket _ poller hrun hclosed => exact absurd hopen hclosed
    | turn =>
      have hsocks : s'.socks = s.socks := by cases step_cases h <;> rfl
      rw [(step_onOpen hs ha h).focus fd (by rw [hsocks]; exact hopen)]
    | postTimer | openSocket | resumed | run | test | expire | wait | take => cases hfd
  · exact .inl hopen

end Open

/-- The kernel knows what the loop has subscribed and which sockets are open. -/
structure Agrees (s : State) : Prop where
  mirrors : Mirrors s.interestSet
  opened : ∀ fd, s.kernel.opened fd = (s.loop.socks fd).isSome

section Kernels

variable {s s' : State} {loop : EventLoop.State} {a : EventLoop.Act}

theorem init_agrees : Agrees init := ⟨InterestSet.init_mirrors, fun _ => rfl⟩

theorem ctl_isSome {k : Kernel} {op : Poller.CtlOp} {fd : ℕ} {e : Event}
    (hopened : k.opened fd = true) (hadd : op = .add → k.interest fd = none)
    (hregistered : op ≠ .add → k.interest fd ≠ none) : (k.ctl true op fd e).isSome = true := by
  unfold Kernel.ctl
  rw [hopened, Bool.true_and, if_pos rfl]
  cases hmask : k.interest fd with
  | none =>
    cases op with
    | add => rfl
    | mod => exact absurd hmask (hregistered (by simp))
    | del => exact absurd hmask (hregistered (by simp))
  | some mask =>
    cases op with
    | add =>
      rw [hadd rfl] at hmask
      cases hmask
    | mod => rfl
    | del => rfl

theorem ctl_opened {granted : Bool} {k k' : Kernel} {op : Poller.CtlOp} {fd : ℕ} {e : Event}
    (h : k.ctl granted op fd e = some k') : k'.opened = k.opened := by
  unfold Kernel.ctl at h
  split_ifs at h
  split at h
  · obtain rfl := Option.some.inj h
    rfl
  · obtain rfl := Option.some.inj h
    rfl
  · obtain rfl := Option.some.inj h
    rfl
  · cases h

theorem subscribe_taken {u : InterestSet.State} {fd : ℕ} {e : Event} {poller : Poller}
    (hu : Mirrors u) (hopened : u.kernel.opened fd = true ∨ u.poller.focusAt fd = e)
    (hsub : u.poller.subscribe true fd e = .returned poller) :
    ∃ kernel, u.subscribe true fd e = .returned ⟨poller, kernel⟩ ∧
      kernel.opened = u.kernel.opened := by
  unfold InterestSet.State.subscribe
  cases hop : u.issued fd e with
  | none => exact ⟨u.kernel, by simp [hsub, Outcome.map], rfl⟩
  | some op =>
    have hlegal := hu.legal fd e
    have hopen : u.kernel.opened fd = true := by
      refine hopened.resolve_right fun hsame => ?_
      rw [hlegal.silent.mpr hsame] at hop
      cases hop
    have htaken := ctl_isSome (e := e) hopen (fun heq => hlegal.add (heq ▸ hop))
      (hlegal.registered op hop)
    obtain ⟨kernel, hkernel⟩ := Option.isSome_iff_exists.mp htaken
    exact ⟨kernel, by simp [hkernel, hsub, Outcome.map], ctl_opened hkernel⟩

/-- The kernel takes the subscription that a step of the loop makes. -/
theorem control_taken (hs : Agrees s) (hopen : OnOpen s.loop) (ha : KeepsOpen s.loop a)
    (h : EventLoop.step s.loop a = some loop) :
    ∃ kernel, s.control loop (subscribed s.loop a) = some kernel ∧
      Mirrors ⟨loop.sched.poller, kernel⟩ ∧ kernel.opened = s.kernel.opened := by
  have hpoller := step_poller h
  cases hfd : subscribed s.loop a with
  | none =>
    rw [hfd] at hpoller
    refine ⟨s.kernel, rfl, ?_, rfl⟩
    rw [hpoller]
    exact hs.mirrors
  | some fd =>
    rw [hfd] at hpoller
    have hopened : s.kernel.opened fd = true ∨
        s.loop.sched.poller.focusAt fd = loop.sched.poller.focusAt fd := by
      rw [hs.opened fd]
      exact (step_opened hopen ha h hfd).imp_left Option.isSome_iff_ne_none.mpr
    obtain ⟨kernel, hkernel, hsame⟩ := subscribe_taken hs.mirrors hopened hpoller
    refine ⟨kernel, by simp [State.control, hkernel, Outcome.returned?], ?_, hsame⟩
    exact InterestSet.mirrors_subscribed hs.mirrors (hs.mirrors.subscribed true fd _)
      (by rw [hkernel]; rfl)

theorem step_accepted (hs : Agrees s) (hopen : OnOpen s.loop) (ha : KeepsOpen s.loop a)
    (h : EventLoop.step s.loop a = some loop) :
    ∃ kernel, step s a = some ⟨loop, kernel⟩ ∧ Agrees ⟨loop, kernel⟩ := by
  obtain ⟨kernel, hcontrol, hmirrors, hopened⟩ := control_taken hs hopen ha h
  have hsocks := step_socks h
  refine ⟨files kernel a, by simp [step, h, hcontrol], ?_⟩
  cases a with
  | openSocket fd =>
    refine ⟨⟨hmirrors.mask, hmirrors.none_iff⟩, fun k => ?_⟩
    simp only [hsocks k, files, hopened, funext hs.opened]
  | closeSocket fd =>
    have hnone : loop.sched.poller.focusAt fd = Event.none := by
      cases step_cases h with
      | closeSocket _ poller hrun hclosed hsub =>
        have hfocus := Poller.subscribe_focusAt hsub fd
        rwa [if_pos rfl] at hfocus
    refine ⟨InterestSet.mirrors_closed hmirrors hnone rfl, fun k => ?_⟩
    simp only [hsocks k, files, Kernel.close, hopened, funext hs.opened]
  | postCoro | turn | postTimer | resumed | run | test | expire | wait | take =>
    exact ⟨hmirrors, fun k => by simp only [hsocks k, files, hopened, hs.opened k]⟩

/-- No run of the loop is cut short by the kernel. -/
theorem run_accepted {acts : List EventLoop.Act} {t : EventLoop.State}
    (hkeeps : Runs.Along EventLoop.step KeepsOpen EventLoop.init acts)
    (h : Runs.exec EventLoop.step EventLoop.init acts = some t) :
    ∃ kernel, Runs.exec step init acts = some ⟨t, kernel⟩ ∧ Agrees ⟨t, kernel⟩ := by
  have hmatches : ∀ loop a loop' s, (s.loop = loop ∧ Agrees s ∧ OnOpen loop) → KeepsOpen loop a →
      EventLoop.step loop a = some loop' →
        ∃ s', step s a = some s' ∧ s'.loop = loop' ∧ Agrees s' ∧ OnOpen loop' := by
    rintro loop a loop' s ⟨rfl, hagrees, hopen⟩ ha hstep
    obtain ⟨kernel, hkernel, hagrees'⟩ := step_accepted hagrees hopen ha hstep
    exact ⟨_, hkernel, rfl, hagrees', step_onOpen hopen ha hstep⟩
  obtain ⟨s, hs, rfl, hagrees, -⟩ :=
    Runs.exec_matched hmatches ⟨rfl, init_agrees, init_onOpen⟩ hkeeps h
  exact ⟨s.kernel, hs, hagrees⟩

end Kernels

section Waiters

variable {k : Kernel} {t : EventLoop.State} {conditions : Event} {fd : ℕ}

theorem interest_eq (hagrees : Agrees ⟨t, k⟩) (hmask : Subscribed t)
    (hbetween : dispatched t.pc = none) (fd : ℕ) :
    k.interest fd = if maskOf (t.sched.nodesAt fd) = Event.none then none
      else some (maskOf (t.sched.nodesAt fd)) := by
  have hinterest := hagrees.mirrors.interest_eq fd
  have hfocus := hmask fd (by simp [hbetween])
  rw [← hfocus]
  exact hinterest

theorem meets_ne_none {a b : Event} (h : Event.meets a b = true) : a ≠ Event.none := by
  rintro rfl
  obtain ⟨i, hi, -⟩ := meets_iff.mp h
  rw [Event.none] at hi
  simp at hi

theorem reports_of_waiter (hagrees : Agrees ⟨t, k⟩) (hmask : Subscribed t)
    (hbetween : dispatched t.pc = none) {node : DescriptorNode}
    (hnode : node ∈ t.sched.nodesAt fd) (hready : Event.meets conditions node.ev = true) :
    reports k conditions fd = some (reported conditions (t.sched.nodesAt fd)) := by
  have hmeets := meets_reported_of_mem hnode hready
  obtain ⟨i, hev, he⟩ := meets_iff.mp hmeets
  have hmasks : maskOf (t.sched.nodesAt fd) ≠ Event.none :=
    meets_ne_none (meets_maskOf.mpr ⟨node, hnode, hmeets⟩)
  have hevent : reported conditions (t.sched.nodesAt fd) ≠ Event.none :=
    meets_ne_none (meets_iff.mpr ⟨i, he, hev⟩)
  rw [reports, interest_eq hagrees hmask hbetween, if_neg hmasks, Option.bind_some]
  exact if_neg hevent

theorem waiter_of_reports (hagrees : Agrees ⟨t, k⟩) (hmask : Subscribed t)
    (hbetween : dispatched t.pc = none) {e : Event} (h : reports k conditions fd = some e) :
    t.sched.nodesAt fd ≠ [] := by
  intro hnone
  have hempty : maskOf [] = Event.none := rfl
  rw [reports, interest_eq hagrees hmask hbetween, hnone, if_pos hempty] at h
  cases h

end Waiters

end Bc.Readiness
