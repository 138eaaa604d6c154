import Bc.EventLoop

/-!
The handler of an event as a run of the machine. What the handler does in one
go, the machine does in steps, with the requests of the resumed code between.
-/
namespace Bc.HandlerRuns

open Cxx Polling Scheduling EraseLoop Dispatch EventLoop

/-- The code that makes the request has a socket for the waiter it posts, and
destroys none. -/
def Plain (socks : ℕ → Option ℕ) : Request → Prop
  | .timer _ _ => True
  | .descriptor ok fd node => ok = true ∧ node.revent.sock = socks fd
  | .unsubscribe _ _ => False

def requestAct : Request → Act
  | .timer tp coro => .postTimer tp coro
  | .descriptor _ fd node => .postCoro fd node.ev node.revent.frame node.next
  | .unsubscribe _ fd => .closeSocket fd

theorem subscribe_succeeds (p : Poller) (fd : ℕ) (e : Event) :
    (p.subscribe true fd e).returned? = (p.subscribe true fd e).state? := by
  simp only [Poller.subscribe, Bool.not_true, Bool.and_false, Bool.false_eq_true, if_false]
  split
  · split <;> rfl
  · rfl

theorem postCoro_succeeds (s : Scheduler) (fd : ℕ) (node : DescriptorNode) :
    (s.postCoro true fd node).returned? = (s.postCoro true fd node).state? := by
  by_cases hfd : 0 < fd ∧ fd < (s.adjustSize fd).descriptorNodes.length
  · rw [Scheduler.postCoro_eq hfd.1 hfd.2]
    have hsub := subscribe_succeeds s.poller fd (maskOf (s.nodesAt fd ++ [node]))
    cases hcall : s.poller.subscribe true fd (maskOf (s.nodesAt fd ++ [node])) with
    | returned poller => rfl
    | thrown poller => simp [hcall, Outcome.returned?, Outcome.state?] at hsub
    | fault => rfl
  · rw [Scheduler.postCoro_fault hfd]
    rfl

/-- A request is a step of the code that makes it. -/
theorem request_step {s : State} {request : Request} {sched : Scheduler}
    (hrun : s.pc.running = true) (hplain : Plain s.socks request)
    (h : request.run s.sched = some sched) :
    step s (requestAct request) = some { s with sched := sched } := by
  cases request with
  | timer tp coro =>
    obtain rfl := Option.some.inj h
    simp [requestAct, step, hrun]
  | descriptor ok fd node =>
    obtain ⟨rfl, hsock⟩ := hplain
    obtain ⟨e, ⟨frame, sock⟩, next⟩ := node
    simp only at hsock
    subst hsock
    have hpost := (postCoro_succeeds s.sched fd ⟨e, ⟨frame, s.socks fd⟩, next⟩).trans h
    simp only [requestAct, step, hrun, if_true, hpost, Option.map_some]
  | unsubscribe ok fd => exact hplain.elim

theorem requests_run {requests : List Request} {s : State} {sched : Scheduler}
    (hrun : s.pc.running = true) (hplain : ∀ request ∈ requests, Plain s.socks request)
    (h : runAll requests s.sched = some sched) :
    Runs.exec step s (requests.map requestAct) = some { s with sched := sched } := by
  induction requests generalizing s with
  | nil =>
    obtain rfl := Option.some.inj h
    rfl
  | cons request rest ih =>
    obtain ⟨u, hu, hrest⟩ := Option.bind_eq_some_iff.mp h
    have hstep := request_step hrun (hplain request (List.mem_cons_self ..)) hu
    refine Runs.exec_cons_eq_some.mpr ⟨_, hstep, ?_⟩
    exact @ih { s with sched := u } hrun
      (fun other hother => hplain other (List.mem_cons_of_mem request hother)) hrest

variable {behaviour : ℕ → Resumption} {e : Event}

/-- A call of the handler's loop: the call, the requests and the return. -/
theorem call_run {s : State} {d : Dispatching} {node : DescriptorNode}
    {rest : List DescriptorNode} {k : ℕ} {after : World} {ready : Bool}
    (hpc : s.pc = .scan d) (hrest : d.cursor.rest = node :: rest)
    (htriggers : triggers d.entry.events node = true)
    (hplain : ∀ request ∈ (behaviour k).requests, Plain s.socks request)
    (h : visitNext (Resumption.resume behaviour) k node
      (writeRevent d.entry.events node s.toWorld) = some (after, ready)) :
    ∃ acts, Runs.exec step s acts = some { s with
      toWorld := after
      pc := .scan { d with cursor := ⟨d.cursor.kept, if ready then rest else node :: rest⟩ } } := by
  obtain ⟨hready, sched, hrequests, rfl⟩ := visitNext_resume h
  have hturn : step s .turn = some { s with
      toWorld := writeRevent d.entry.events node s.toWorld, pc := .call d } := by
    simp [step, State.turn, hpc, hrest, htriggers]
  have hrun := @requests_run (behaviour k).requests
    { s with toWorld := writeRevent d.entry.events node s.toWorld, pc := .call d } sched rfl
    hplain hrequests
  refine ⟨.turn :: ((behaviour k).requests.map requestAct ++ [.resumed (behaviour k).answer]), ?_⟩
  refine Runs.exec_cons_eq_some.mpr ⟨_, hturn, ?_⟩
  rw [Runs.exec_append, hrun, Option.bind_some]
  apply Runs.exec_one
  simp only [step, State.resume, hrest, ← hready]
  cases ready with
  | true => simp [Cursor.erase, hrest]
  | false => simp [← hrest]

theorem turn_run {walk walk' : Walk DescriptorNode World} {s : State} {d : Dispatching}
    (hpc : s.pc = .scan { d with cursor := walk.cursor }) (hworld : s.toWorld = walk.state)
    (he : d.entry.events = e)
    (hplain : ∀ k, ∀ request ∈ (behaviour k).requests, Plain s.socks request)
    (h : turn (triggers e) (writeRevent e) (visitNext (Resumption.resume behaviour)) walk =
      some walk') :
    ∃ acts, Runs.exec step s acts = some { s with
      toWorld := walk'.state, pc := .scan { d with cursor := walk'.cursor } } := by
  obtain ⟨⟨kept, rest⟩, w, turns⟩ := walk
  subst he
  simp only at hworld
  subst hworld
  cases rest with
  | nil =>
    obtain rfl := Option.some.inj h
    exact ⟨[], by rw [← hpc]; rfl⟩
  | cons node rest =>
    cases ha : triggers d.entry.events node with
    | false =>
      rw [turn_passed ha] at h
      obtain rfl := Option.some.inj h
      refine ⟨_, Runs.exec_one (a := .turn) ?_⟩
      simp [step, State.turn, hpc, ha, Cursor.advance]
    | true =>
      rw [turn_called ha] at h
      obtain ⟨⟨after, ready⟩, hcall, rfl⟩ := Option.map_eq_some_iff.mp h
      exact call_run hpc rfl ha (hplain _) hcall

theorem loop_run {n : ℕ} {walk walk' : Walk DescriptorNode World} {s : State} {d : Dispatching}
    (hpc : s.pc = .scan { d with cursor := walk.cursor }) (hworld : s.toWorld = walk.state)
    (he : d.entry.events = e)
    (hplain : ∀ k, ∀ request ∈ (behaviour k).requests, Plain s.socks request)
    (h : handlerLoop (Resumption.resume behaviour) e n walk = some walk') :
    ∃ acts, Runs.exec step s acts = some { s with
      toWorld := walk'.state, pc := .scan { d with cursor := walk'.cursor } } := by
  induction n generalizing walk s with
  | zero =>
    obtain rfl := Option.some.inj h
    exact ⟨[], by rw [← hpc, ← hworld]; rfl⟩
  | succ n ih =>
    obtain ⟨middle, hturn, hrest⟩ := Option.bind_eq_some_iff.mp h
    obtain ⟨first, hfirst⟩ := turn_run hpc hworld he hplain hturn
    obtain ⟨later, hlater⟩ := @ih middle { s with
      toWorld := middle.state, pc := .scan { d with cursor := middle.cursor } } rfl rfl hplain hrest
    refine ⟨first ++ later, ?_⟩
    rw [Runs.exec_append, hfirst]
    exact hlater

/-- A dispatch that returns is a run of the machine, from the entry at the
head of the batch to the rest of the batch. -/
theorem handler_run {n fd : ℕ} {s : State} {w' : World} {size : ℕ} {sock : Option ℕ}
    {later : List Entry} {turns : List (Turn DescriptorNode World)}
    (hpc : s.pc = .batch size (⟨fd, e, sock⟩ :: later))
    (hsize : s.sched.poller.evs.length = size)
    (hplain : ∀ k, ∀ request ∈ (behaviour k).requests, Plain s.socks request)
    (h : handler true behaviour n fd e s.toWorld = some (w', turns)) :
    ∃ acts, Runs.exec step s acts = some { s with toWorld := w', pc := .batch size later } := by
  obtain ⟨-, hout, walk, sched, hloop, hend, rfl, hback, rfl⟩ := handler_eq_some h
  let begun : State := { s with
    sched := s.sched.setNodes fd []
    pc := .scan ⟨size, later, ⟨fd, e, sock⟩, Cursor.start (s.sched.nodesAt fd)⟩ }
  have htake : step s .take = some begun := by
    simp [step, State.take, hpc, hsize, hout, begun]
  obtain ⟨acts, hacts⟩ : ∃ acts, Runs.exec step begun acts = some { begun with
      toWorld := walk.state, pc := .scan ⟨size, later, ⟨fd, e, sock⟩, walk.cursor⟩ } :=
    @loop_run _ _ _ _ _ begun ⟨size, later, ⟨fd, e, sock⟩, walk.cursor⟩ rfl rfl rfl hplain hloop
  refine ⟨.take :: (acts ++ [.turn]), ?_⟩
  refine Runs.exec_cons_eq_some.mpr ⟨begun, htake, ?_⟩
  rw [Runs.exec_append, hacts, Option.bind_some]
  apply Runs.exec_one
  simp [step, State.turn, show walk.cursor.rest = [] from hend,
    Outcome.returned?_eq_some.mpr hback, begun]

end Bc.HandlerRuns
