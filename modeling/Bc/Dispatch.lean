import Bc.EraseLoop
import Bc.Scheduling
import Mathlib.Logic.Function.Basic

/-!
The handler of one event: the waiters of the descriptor leave the table, the
ones whose mask meets the event are resumed, and what is left goes back in
front of the waiters posted meanwhile. The resumed code is a parameter; it
may use the scheduler, whose table no longer holds the list being walked.
-/
namespace Bc.Dispatch

open Cxx Polling Scheduling EraseLoop

/-- The scheduler together with the event variables of the awaiters. -/
structure World where
  sched : Scheduler
  revents : Awaiter → Event

def triggers (e : Event) (node : DescriptorNode) : Bool := Event.meets node.ev e

def writeRevent (e : Event) (node : DescriptorNode) (w : World) : World :=
  { w with revents := Function.update w.revents node.revent e }

@[simp] theorem writeRevent_sched (e : Event) (node : DescriptorNode) (w : World) :
    (writeRevent e node w).sched = w.sched := rfl

/-- The visit of `it->next` and the accounting after it: a coroutine counts
as ready when it is back, a proxy when it says so. -/
def visitNext (resume : ℕ → DescriptorNode → World → Option (World × Bool))
    (k : ℕ) (node : DescriptorNode) (w : World) : Option (World × Bool) :=
  (resume k node w).map fun (after, answer) =>
    let ready := node.next.isHandle || answer
    ({ after with sched := if ready then after.sched.release else after.sched }, ready)

/-- At most `n` turns of the handler's loop. -/
def handlerLoop (resume : ℕ → DescriptorNode → World → Option (World × Bool)) (e : Event)
    (n : ℕ) (walk : Walk DescriptorNode World) : Option (Walk DescriptorNode World) :=
  loop (triggers e) (writeRevent e) (visitNext resume) n walk

/-- What running code asks of the scheduler. A request that throws has been
made as far as it got; its caller may go on. -/
inductive Request
  | timer (tp : Time) (coro : Frame)
  | descriptor (ok : Bool) (fd : ℕ) (node : DescriptorNode)
  | unsubscribe (ok : Bool) (fd : ℕ)

def Request.run : Request → Scheduler → Option Scheduler
  | timer tp coro, s => some (s.postTimer tp coro)
  | descriptor ok fd node, s => (s.postCoro ok fd node).state?
  | unsubscribe ok fd, s => (s.unsubscribe ok fd).state?

def runAll : List Request → Scheduler → Option Scheduler
  | [], s => some s
  | request :: rest, s => (request.run s).bind (runAll rest)

/-- One resumption: what the code asks for and, if it is a proxy, its answer. -/
structure Resumption where
  requests : List Request
  answer : Bool

def Resumption.resume (behaviour : ℕ → Resumption) (k : ℕ) (_ : DescriptorNode) (w : World) :
    Option (World × Bool) :=
  (runAll (behaviour k).requests w.sched).map fun sched =>
    ({ w with sched := sched }, (behaviour k).answer)

/-- The handler, given at most `n` turns of its loop. It returns the turns
taken as well. -/
def handler (ok : Bool) (behaviour : ℕ → Resumption) (n fd : ℕ) (e : Event) (w : World) :
    Option (World × List (Turn DescriptorNode World)) :=
  (w.sched.spliceOut fd).bind fun (list, sched) =>
    (handlerLoop (Resumption.resume behaviour) e n
        (Walk.start list { w with sched := sched })).bind fun walk =>
      if walk.cursor.rest.isEmpty then
        (walk.state.sched.spliceBack ok fd walk.cursor.list).returned?.map fun sched =>
          ({ walk.state with sched := sched }, walk.turns)
      else none

/-- The waiters that a list of requests posts on a descriptor, in order. -/
def postedOn (fd : ℕ) (requests : List Request) : List DescriptorNode :=
  requests.filterMap fun
    | .descriptor _ fd' node => if fd' = fd then some node else none
    | _ => none

def postedTimers (requests : List Request) : List TimeNode :=
  requests.filterMap fun
    | .timer tp coro => some ⟨tp, coro⟩
    | _ => none

/-- The requests made in the first `m` resumptions, in order. -/
def requestsMade (behaviour : ℕ → Resumption) (m : ℕ) : List Request :=
  (List.range m).flatMap fun k => (behaviour k).requests

theorem requestsMade_succ (behaviour : ℕ → Resumption) (m : ℕ) :
    requestsMade behaviour (m + 1) = requestsMade behaviour m ++ (behaviour m).requests := by
  simp [requestsMade, List.range_succ]

theorem Request.run_queues {request : Request} {s s' : Scheduler}
    (h : request.run s = some s') :
    (∀ k, s'.nodesAt k = s.nodesAt k ++ postedOn k [request]) ∧
      s'.timeNodes = s.timeNodes ++ postedTimers [request] := by
  cases request with
  | timer tp coro =>
    obtain rfl := Option.some.inj h
    exact ⟨fun k => by simp [postedOn, Scheduler.nodesAt, Scheduler.postTimer], rfl⟩
  | descriptor ok fd node =>
    obtain ⟨-, hlt, htime, hnodes, -⟩ := Scheduler.postCoro_state? h
    refine ⟨fun k => ?_, by simp [postedTimers, htime]⟩
    rw [Scheduler.nodesAt, hnodes, ← Scheduler.nodesAt, Scheduler.nodesAt_withNode hlt]
    by_cases hk : k = fd
    · subst k
      simp [postedOn]
    · have hk' : fd ≠ k := Ne.symm hk
      simp [postedOn, hk, hk']
  | unsubscribe ok fd =>
    change ((s.poller.unsubscribe ok fd).map _).state? = some s' at h
    rw [Outcome.state?_map] at h
    obtain ⟨poller, -, rfl⟩ := Option.map_eq_some_iff.mp h
    exact ⟨fun k => by simp [postedOn, Scheduler.nodesAt], by simp [postedTimers]⟩

theorem runAll_queues {requests : List Request} {s s' : Scheduler}
    (h : runAll requests s = some s') :
    (∀ k, s'.nodesAt k = s.nodesAt k ++ postedOn k requests) ∧
      s'.timeNodes = s.timeNodes ++ postedTimers requests := by
  induction requests generalizing s with
  | nil =>
    obtain rfl := Option.some.inj h
    simp [postedOn, postedTimers]
  | cons request rest ih =>
    obtain ⟨u, hu, hrest⟩ := Option.bind_eq_some_iff.mp h
    obtain ⟨hnodes, htime⟩ := Request.run_queues hu
    obtain ⟨hnodes', htime'⟩ := ih hrest
    constructor
    · intro k
      rw [hnodes' k, hnodes k, List.append_assoc, postedOn, postedOn, postedOn,
        ← List.filterMap_append, List.singleton_append]
    · rw [htime', htime, List.append_assoc, postedTimers, postedTimers, postedTimers,
        ← List.filterMap_append, List.singleton_append]

/-- What a returned dispatch of event `e` on `fd` has done. -/
structure Delivered (behaviour : ℕ → Resumption) (fd : ℕ) (e : Event) (w w' : World)
    (turns : List (Turn DescriptorNode World)) : Prop where
  served : Served (triggers e) (w.sched.nodesAt fd) turns
  resumed : turns.filterMap Turn.fired = (w.sched.nodesAt fd).filter (triggers e)
  revent_set : ∀ node before ready, .called node before ready ∈ turns →
    before.revents node.revent = e
  handle_once : ∀ node before ready, .called node before ready ∈ turns →
    node.next.isHandle = true → ready = true
  left : w'.sched.nodesAt fd = (w.sched.nodesAt fd).filter (fun node => !triggers e node) ++
    postedOn fd (requestsMade behaviour (turns.countP Turn.isCall))
  others : ∀ k, k ≠ fd → w'.sched.nodesAt k = w.sched.nodesAt k ++
    postedOn k (requestsMade behaviour (turns.countP Turn.isCall))
  timers : w'.sched.timeNodes = w.sched.timeNodes ++
    postedTimers (requestsMade behaviour (turns.countP Turn.isCall))

/-- Along the loop the table holds, beside what it held when the loop began,
just what the resumed code has posted. -/
structure LoopInvariant (behaviour : ℕ → Resumption) (e : Event) (begun : Scheduler)
    (turns : List (Turn DescriptorNode World)) (w : World) : Prop where
  nodes : ∀ k, w.sched.nodesAt k = begun.nodesAt k ++
    postedOn k (requestsMade behaviour (turns.countP Turn.isCall))
  timers : w.sched.timeNodes = begun.timeNodes ++
    postedTimers (requestsMade behaviour (turns.countP Turn.isCall))
  called : ∀ node before ready, .called node before ready ∈ turns →
    before.revents node.revent = e ∧ (node.next.isHandle = true → ready = true)

theorem visitNext_resume {behaviour : ℕ → Resumption} {k : ℕ} {node : DescriptorNode}
    {w after : World} {ready : Bool}
    (h : visitNext (Resumption.resume behaviour) k node w = some (after, ready)) :
    ready = (node.next.isHandle || (behaviour k).answer) ∧
      ∃ sched, runAll (behaviour k).requests w.sched = some sched ∧
        after = { w with sched := if ready then sched.release else sched } := by
  simp only [visitNext, Resumption.resume, Option.map_map, Option.map_eq_some_iff,
    Function.comp_apply, Prod.mk.injEq] at h
  obtain ⟨sched, hrun, rfl, rfl⟩ := h
  exact ⟨rfl, sched, hrun, rfl⟩

theorem release_queues (s : Scheduler) (ready : Bool) :
    (∀ fd, (if ready then s.release else s).nodesAt fd = s.nodesAt fd) ∧
      (if ready then s.release else s).timeNodes = s.timeNodes := by
  cases ready <;> exact ⟨fun _ => rfl, rfl⟩

theorem handlerLoop_invariant {behaviour : ℕ → Resumption} {e : Event} {n : ℕ}
    {list : List DescriptorNode} {w : World} {walk : Walk DescriptorNode World}
    (h : handlerLoop (Resumption.resume behaviour) e n (Walk.start list w) = some walk) :
    LoopInvariant behaviour e w.sched walk.turns walk.state := by
  refine loop_invariant (I := LoopInvariant behaviour e w.sched) ?_ ?_ ?_ h
  · intro turns s node hI
    refine ⟨?_, ?_, ?_⟩
    · simpa [Turn.isCall] using hI.nodes
    · simpa [Turn.isCall] using hI.timers
    · simpa using hI.called
  · intro turns s node after ready hI hvisit
    obtain ⟨hready, sched, hrun, rfl⟩ := visitNext_resume hvisit
    obtain ⟨hnodes, htime⟩ := runAll_queues hrun
    obtain ⟨hafter, hafterTime⟩ := release_queues sched ready
    have hcount : (turns ++ [Turn.called node (writeRevent e node s) ready]).countP Turn.isCall =
        turns.countP Turn.isCall + 1 := by
      simp [Turn.isCall]
    refine ⟨?_, ?_, ?_⟩
    · intro k
      rw [hcount, requestsMade_succ, hafter k, hnodes k, writeRevent, hI.nodes k,
        List.append_assoc, postedOn, postedOn, postedOn, List.filterMap_append]
    · rw [hcount, requestsMade_succ, hafterTime, htime, writeRevent, hI.timers,
        List.append_assoc, postedTimers, postedTimers, postedTimers, List.filterMap_append]
    · intro node' before ready' hmem
      rcases List.mem_append.mp hmem with hold | hnew
      · exact hI.called node' before ready' hold
      · simp only [List.mem_singleton, Turn.called.injEq] at hnew
        obtain ⟨rfl, rfl, rfl⟩ := hnew
        refine ⟨by simp [writeRevent], ?_⟩
        intro hhandle
        simp [hready, hhandle]
  · exact ⟨by simp [requestsMade, postedOn, Walk.start],
      by simp [requestsMade, postedTimers, Walk.start], by simp [Walk.start]⟩

theorem handler_eq_some {ok : Bool} {behaviour : ℕ → Resumption} {n fd : ℕ} {e : Event}
    {w w' : World} {turns : List (Turn DescriptorNode World)}
    (h : handler ok behaviour n fd e w = some (w', turns)) :
    fd < w.sched.descriptorNodes.length ∧
      w.sched.spliceOut fd = some (w.sched.nodesAt fd, w.sched.setNodes fd []) ∧
      ∃ walk sched, handlerLoop (Resumption.resume behaviour) e n
          (Walk.start (w.sched.nodesAt fd) { w with sched := w.sched.setNodes fd [] }) =
            some walk ∧
        walk.Ended ∧ walk.turns = turns ∧
        walk.state.sched.spliceBack ok fd walk.cursor.list = .returned sched ∧
        w' = { walk.state with sched := sched } := by
  obtain ⟨⟨list, sched⟩, hout, hrest⟩ := Option.bind_eq_some_iff.mp h
  obtain ⟨walk, hloop, htail⟩ := Option.bind_eq_some_iff.mp hrest
  obtain ⟨hlt, rfl, rfl⟩ := Scheduler.spliceOut_eq_some hout
  split at htail
  · rename_i hempty
    obtain ⟨sched', hback, heq⟩ := Option.map_eq_some_iff.mp htail
    obtain ⟨rfl, rfl⟩ := Prod.mk.inj heq
    exact ⟨hlt, hout, walk, sched', hloop, List.isEmpty_iff.mp hempty, rfl,
      Outcome.returned?_eq_some.mp hback, rfl⟩
  · cases htail

theorem handler_served {ok : Bool} {behaviour : ℕ → Resumption} {n fd : ℕ} {e : Event}
    {w w' : World} {turns : List (Turn DescriptorNode World)}
    (h : handler ok behaviour n fd e w = some (w', turns)) :
    Served (triggers e) (w.sched.nodesAt fd) turns := by
  obtain ⟨-, -, walk, sched, hloop, hend, rfl, -, -⟩ := handler_eq_some h
  obtain ⟨-, later, hturns, hserved⟩ := loop_served hloop hend
  rw [hturns]
  exact hserved

/-- Each waiter is called with the event in its variable. -/
theorem handler_called {ok : Bool} {behaviour : ℕ → Resumption} {n fd : ℕ} {e : Event}
    {w w' : World} {turns : List (Turn DescriptorNode World)}
    (h : handler ok behaviour n fd e w = some (w', turns)) {node : DescriptorNode} {before : World}
    {ready : Bool} (hmem : .called node before ready ∈ turns) :
    before.revents node.revent = e := by
  obtain ⟨-, -, walk, sched, hloop, -, rfl, -, -⟩ := handler_eq_some h
  exact ((handlerLoop_invariant hloop).called node before ready hmem).1

/-- Whatever the resumed code does, a dispatch that returns has resumed the
waiters that its event triggers, once each and in order, and has left the
others in front of the waiters posted meanwhile. -/
theorem handler_delivers {ok : Bool} {behaviour : ℕ → Resumption} {n fd : ℕ} {e : Event}
    {w w' : World} {turns : List (Turn DescriptorNode World)}
    (h : handler ok behaviour n fd e w = some (w', turns)) :
    Delivered behaviour fd e w w' turns := by
  have hserved := handler_served h
  obtain ⟨hlt, -, walk, sched, hloop, hend, rfl, hback, rfl⟩ := handler_eq_some h
  have hspliced := Scheduler.spliceBack_returned hback
  have hI := handlerLoop_invariant hloop
  have hlist : walk.cursor.list =
      (w.sched.nodesAt fd).filter (fun node => !triggers e node) := by
    rw [Cursor.list, (loop_served hloop hend).1, show walk.cursor.rest = [] from hend]
    simp
  refine ⟨hserved, hserved.fired_eq, ?_, ?_, ?_, ?_, ?_⟩
  · exact fun node before ready hmem => (hI.called node before ready hmem).1
  · exact fun node before ready hmem => (hI.called node before ready hmem).2
  · have hnodes := hI.nodes fd
    simp only [Scheduler.nodesAt_setNodes hlt, if_true, List.nil_append] at hnodes
    rw [hspliced.nodesAt fd, if_pos rfl, hlist, hnodes]
  · intro k hk
    have hnodes := hI.nodes k
    simp only [Scheduler.nodesAt_setNodes hlt, hk, if_false] at hnodes
    rw [hspliced.nodesAt k, if_neg hk, hnodes]
  · exact hspliced.timeNodes.trans hI.timers

/-- Two of three waiters are triggered, the proxy refuses its first call, and
the first coroutine posts itself again. -/
def sampleWorld : World where
  sched :=
    { coroCount := 3
      timeNodes := []
      descriptorNodes := [[], [], [], [], [],
        [⟨Event.read, ⟨0, none⟩, .handle 0⟩, ⟨Event.write, ⟨1, none⟩, .handle 1⟩,
          ⟨Event.read, ⟨2, none⟩, .proxy 2⟩], [], []]
      poller := (Poller.empty.adjustSize 5).setFocus 5 (Event.read ||| Event.write) }
  revents := fun _ => Event.none

def sampleBehaviour : ℕ → Resumption
  | 0 => ⟨[.descriptor true 5 ⟨Event.read, ⟨0, none⟩, .handle 0⟩, .timer 7 3], false⟩
  | 1 => ⟨[], false⟩
  | _ => ⟨[], true⟩

theorem handler_delivers_sample : ∃ w' turns,
    handler true sampleBehaviour 4 5 Event.read sampleWorld = some (w', turns) ∧
      Delivered sampleBehaviour 5 Event.read sampleWorld w' turns := by
  have hsome : (handler true sampleBehaviour 4 5 Event.read sampleWorld).isSome = true := by
    decide +kernel
  obtain ⟨⟨w', turns⟩, h⟩ := Option.isSome_iff_exists.mp hsome
  exact ⟨w', turns, h, handler_delivers h⟩

/-- The loop ends after one visit of each waiter and at most one call of each
triggered one, and a proxy that answered no is still registered. -/
def VisitsOnce (e : Event) (nodes : List DescriptorNode) (w : World)
    (effect : ℕ → DescriptorNode → World → World) (answer : ℕ → Bool) : Prop :=
  ∃ n walk, handlerLoop (fun k node w => some (effect k node w, answer k)) e n
      (Walk.start nodes w) = some walk ∧ walk.Ended ∧
    walk.turns.map Turn.node = nodes ∧
    (walk.turns.filter Turn.isCall).map Turn.node = nodes.filter (triggers e) ∧
    ∀ node before, .called node before false ∈ walk.turns → node ∈ walk.cursor.list

def callOutcome (answer : ℕ → Bool) (k : ℕ) (node : DescriptorNode) : Bool :=
  node.next.isHandle || answer k

/-- What the `k`-th call leaves behind, the count included. -/
def callEffect (effect : ℕ → DescriptorNode → World → World) (answer : ℕ → Bool) (k : ℕ)
    (node : DescriptorNode) (w : World) : World :=
  let after := effect k node w
  { after with sched := if callOutcome answer k node then after.sched.release else after.sched }

theorem visitNext_total (effect : ℕ → DescriptorNode → World → World) (answer : ℕ → Bool) :
    visitNext (fun k node w => some (effect k node w, answer k)) =
      totalCall (callEffect effect answer) (callOutcome answer) := rfl

/-- The loop visits every waiter once exactly when no triggered proxy answers
no to its first call. -/
theorem visitsOnce_iff (e : Event) (nodes : List DescriptorNode) (w : World)
    (effect : ℕ → DescriptorNode → World → World) (answer : ℕ → Bool) :
    VisitsOnce e nodes w effect answer ↔
      ∀ j (hj : j < (nodes.filter (triggers e)).length),
        (nodes.filter (triggers e))[j].next.isHandle = false → answer j = true := by
  constructor
  · intro hvisitsOnce j hj hproxy
    obtain ⟨n, walk, hloop, hend, hvisits, -, -⟩ := hvisitsOnce
    rw [handlerLoop, visitNext_total] at hloop
    have hready := ready_of_visits_once hloop hend (List.nil_append _).symm hvisits j hj
    simpa [callOutcome, hproxy] using hready
  · intro hanswer
    have hready : ∀ j (hj : j < (nodes.filter (triggers e)).length),
        callOutcome answer (([] : List (Turn DescriptorNode World)).countP Turn.isCall + j)
          (nodes.filter (triggers e))[j] = true := by
      intro j hj
      cases hnext : (nodes.filter (triggers e))[j].next.isHandle with
      | true => simp [callOutcome, hnext]
      | false => simp [callOutcome, hanswer j hj hnext]
    obtain ⟨walk, hloop, hend, later, hturns, hvisits⟩ :
        ∃ walk, loop (triggers e) (writeRevent e)
            (totalCall (callEffect effect answer) (callOutcome answer)) nodes.length
            (Walk.start nodes w) = some walk ∧ walk.Ended ∧
          ∃ later, walk.turns = [] ++ later ∧ later.map Turn.node = nodes :=
      loop_visits_once hready
    have hlater : walk.turns = later := by simpa using hturns
    obtain ⟨-, turns, hserved, hserves⟩ := loop_served hloop hend
    have hlength : walk.turns.length = nodes.length := by
      rw [hlater, ← hvisits, List.length_map]
    have hturns' : walk.turns = turns := by simpa using hserved
    rw [← hturns'] at hserves
    obtain ⟨hcalls, hnever⟩ := hserves.of_length_eq hlength
    refine ⟨nodes.length, walk, ?_, hend, by rw [hlater, hvisits], hcalls, ?_⟩
    · rw [handlerLoop, visitNext_total]
      exact hloop
    · intro node before hmem
      exact absurd hmem (hnever node before)

/-- A connection that is gone when `accept4` looks for it. -/
theorem vanished_connection_revisits :
    ¬ VisitsOnce Event.read [⟨Event.read, ⟨0, none⟩, .proxy 0⟩] sampleWorld
      (fun _ _ w => w) (fun _ => false) := by
  intro hvisitsOnce
  obtain ⟨n, walk, hloop, hend, hvisits, -, -⟩ := hvisitsOnce
  rw [handlerLoop, visitNext_total] at hloop
  have hready := ready_of_visits_once hloop hend (List.nil_append _).symm hvisits 0 (by decide)
  exact absurd hready (by decide)

end Bc.Dispatch
