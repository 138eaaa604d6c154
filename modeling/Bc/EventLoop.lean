import Bc.Dispatch
import Bc.Runs
import Mathlib.Data.List.MinMax

/-!
The scheduler's `run` as a machine. Between two steps of the scheduler the
resumed code may take any number of steps of its own: post timers and
waiters, open sockets, destroy sockets. A call that throws out of `run` or
through a `noexcept` function ends the process, so it has no successor here,
and neither has an index out of range.
-/
namespace Bc.EventLoop

open Cxx Polling Scheduling EraseLoop Dispatch

/-- One entry of a batch: what the code reads from `evs_`, and the socket the
kernel has reported it for. -/
structure Entry where
  fd : ℕ
  events : Event
  sock : Option ℕ
  deriving DecidableEq

/-- The handler of `entry` in progress. `size` is the size of `evs_` at the
`epoll_wait`, and the cursor walks the handler's local list. -/
structure Dispatching where
  size : ℕ
  later : List Entry
  entry : Entry
  cursor : Cursor DescriptorNode
  deriving DecidableEq

/-- Where the scheduler is. In `main`, `timer` and `call` other code runs. -/
inductive Pc
  | main
  | head
  | expire (expired : ℕ)
  | timer (expired : ℕ) (node : TimeNode)
  | idle
  | batch (size : ℕ) (entries : List Entry)
  | scan (d : Dispatching)
  | call (d : Dispatching)
  | finished
  deriving DecidableEq

def Pc.running : Pc → Bool
  | main => true
  | timer _ _ => true
  | call _ => true
  | _ => false

/-- `socks` says which socket is open under a descriptor; sockets are
numbered in the order they are opened. -/
structure State extends World where
  socks : ℕ → Option ℕ
  opened : ℕ
  pc : Pc

def init : State :=
  { sched := Scheduler.empty
    revents := fun _ => Event.none
    socks := fun _ => none
    opened := 0
    pc := .main }

inductive Act
  | postTimer (tp : Time) (coro : Frame)
  | postCoro (fd : ℕ) (e : Event) (frame : Frame) (next : Next)
  | openSocket (fd : ℕ)
  | closeSocket (fd : ℕ)
  | resumed (answer : Bool)
  | run
  | test
  | expire (now : Time) (top : ℕ)
  | wait (now : Time) (batch : List (ℕ × Event))
  | take
  | turn
  deriving DecidableEq

def sPeriod : Time := 1000000000

def earliest (s : Scheduler) : Option Time := (s.timeNodes.map TimeNode.time).min?

def period (now : Time) (s : Scheduler) : Time :=
  match earliest s with
  | some time => if time ≤ now + sPeriod then time - now else sPeriod
  | none => sPeriod

/-- The cast to milliseconds in `poll`. -/
def timeout (rtime : Time) : ℤ := rtime.tdiv 1000000

def State.resume (s : State) (answer : Bool) : Option State :=
  match s.pc with
  | .timer expired _ => some { s with sched := s.sched.release, pc := .expire (expired + 1) }
  | .call d =>
    match d.cursor.rest with
    | [] => none
    | node :: _ =>
      if node.next.isHandle || answer then
        some { s with
          sched := s.sched.release
          pc := .scan { d with cursor := d.cursor.erase } }
      else some { s with pc := .scan d }
  | _ => none

/-- One test of the loop in `handle_expired_time_nodes_`. Of several nodes
with the least time the queue may have any on top. -/
def State.handleExpired (s : State) (now : Time) (top : ℕ) : Option State :=
  match s.pc with
  | .expire expired =>
    let done := { s with pc := if 0 < expired then .head else .idle }
    if s.sched.timeNodes.isEmpty then some done
    else
      match s.sched.timeNodes[top]? with
      | none => none
      | some node =>
        if s.sched.timeNodes.all fun other => node.time ≤ other.time then
          if node.time ≤ now then
            some { s with
              sched := { s.sched with timeNodes := s.sched.timeNodes.eraseIdx top }
              pc := .timer expired node }
          else some done
        else none
  | _ => none

/-- The rest of an iteration of `run`: `epoll_wait`, or a sleep when only
timers are pending. An interrupted `epoll_wait` counts as an empty batch. -/
def State.await (s : State) (now : Time) (batch : List (ℕ × Event)) : Option State :=
  match s.pc with
  | .idle =>
    if s.sched.timeNodes.length < s.sched.coroCount ∧ 0 ≤ timeout (period now s.sched) then
      if batch.length ≤ s.sched.poller.evs.length then
        some { s with
          pc := .batch s.sched.poller.evs.length
            (batch.map fun (fd, e) => ⟨fd, e, s.socks fd⟩) }
      else none
    else if batch.isEmpty then some { s with pc := .head }
    else none
  | _ => none

/-- The head of the loop in `poll`, up to the handler's own loop. The loop's
iterators are only valid while `evs_` has the size it had. -/
def State.take (s : State) : Option State :=
  match s.pc with
  | .batch size entries =>
    match entries with
    | [] => some { s with pc := .head }
    | entry :: later =>
      if s.sched.poller.evs.length = size then
        (s.sched.spliceOut entry.fd).map fun (list, sched) =>
          { s with sched := sched, pc := .scan ⟨size, later, entry, Cursor.start list⟩ }
      else none
  | _ => none

/-- One test of the handler's loop and what it leads to: the end of the
handler, a call, or the next waiter. -/
def State.turn (s : State) : Option State :=
  match s.pc with
  | .scan d =>
    match d.cursor.rest with
    | [] =>
      (s.sched.spliceBack true d.entry.fd d.cursor.list).returned?.map fun sched =>
        { s with sched := sched, pc := .batch d.size d.later }
    | node :: _ =>
      if triggers d.entry.events node then
        some { s with toWorld := writeRevent d.entry.events node s.toWorld, pc := .call d }
      else some { s with pc := .scan { d with cursor := d.cursor.advance } }
  | _ => none

def step (s : State) : Act → Option State
  | .postTimer tp coro =>
    if s.pc.running then some { s with sched := s.sched.postTimer tp coro } else none
  | .postCoro fd e frame next =>
    if s.pc.running then
      (s.sched.postCoro true fd ⟨e, ⟨frame, s.socks fd⟩, next⟩).returned?.map fun sched =>
        { s with sched := sched }
    else none
  | .openSocket fd =>
    if s.pc.running ∧ 0 < fd ∧ s.socks fd = none then
      some { s with socks := Function.update s.socks fd (some s.opened), opened := s.opened + 1 }
    else none
  | .closeSocket fd =>
    if s.pc.running ∧ s.socks fd ≠ none then
      (s.sched.unsubscribe true fd).returned?.map fun sched =>
        { s with sched := sched, socks := Function.update s.socks fd none }
    else none
  | .resumed answer => s.resume answer
  | .run => if s.pc = .main then some { s with pc := .head } else none
  | .test =>
    if s.pc = .head then
      some { s with pc := if s.sched.coroCount = 0 then .finished else .expire 0 }
    else none
  | .expire now top => s.handleExpired now top
  | .wait now batch => s.await now batch
  | .take => s.take
  | .turn => s.turn

/-- Everything a step can do, with what its guards and calls have established. -/
inductive Step (s : State) : Act → State → Prop
  | postTimer (tp : Time) (coro : Frame) (hrun : s.pc.running = true) :
      Step s (.postTimer tp coro) { s with sched := s.sched.postTimer tp coro }
  | postCoro (fd : ℕ) (e : Event) (frame : Frame) (next : Next) (sched : Scheduler)
      (hrun : s.pc.running = true)
      (hposted : Scheduler.Posted s.sched sched true fd ⟨e, ⟨frame, s.socks fd⟩, next⟩) :
      Step s (.postCoro fd e frame next) { s with sched := sched }
  | openSocket (fd : ℕ) (hrun : s.pc.running = true) (hpos : 0 < fd)
      (hfree : s.socks fd = none) :
      Step s (.openSocket fd)
        { s with socks := Function.update s.socks fd (some s.opened), opened := s.opened + 1 }
  | closeSocket (fd : ℕ) (poller : Poller) (hrun : s.pc.running = true)
      (hopen : s.socks fd ≠ none)
      (hsub : s.sched.poller.unsubscribe true fd = .returned poller) :
      Step s (.closeSocket fd)
        { s with
          sched := { s.sched with poller := poller }
          socks := Function.update s.socks fd none }
  | timerResumed (answer : Bool) (expired : ℕ) (node : TimeNode)
      (hpc : s.pc = .timer expired node) :
      Step s (.resumed answer)
        { s with sched := s.sched.release, pc := .expire (expired + 1) }
  | callReady (answer : Bool) (d : Dispatching) (node : DescriptorNode)
      (rest : List DescriptorNode) (hpc : s.pc = .call d) (hrest : d.cursor.rest = node :: rest)
      (hready : (node.next.isHandle || answer) = true) :
      Step s (.resumed answer)
        { s with
          sched := s.sched.release
          pc := .scan { d with cursor := ⟨d.cursor.kept, rest⟩ } }
  | callRefused (d : Dispatching) (node : DescriptorNode) (rest : List DescriptorNode)
      (hpc : s.pc = .call d) (hrest : d.cursor.rest = node :: rest)
      (hproxy : node.next.isHandle = false) :
      Step s (.resumed false) { s with pc := .scan d }
  | run (hpc : s.pc = .main) : Step s .run { s with pc := .head }
  | testStop (hpc : s.pc = .head) (hcount : s.sched.coroCount = 0) :
      Step s .test { s with pc := .finished }
  | testGo (hpc : s.pc = .head) (hcount : s.sched.coroCount ≠ 0) :
      Step s .test { s with pc := .expire 0 }
  | expireNone (now : Time) (top expired : ℕ) (hpc : s.pc = .expire expired)
      (hlater : ∀ node ∈ s.sched.timeNodes, now < node.time) :
      Step s (.expire now top) { s with pc := if 0 < expired then .head else .idle }
  | expirePop (now : Time) (top expired : ℕ) (node : TimeNode) (hpc : s.pc = .expire expired)
      (hget : s.sched.timeNodes[top]? = some node)
      (hleast : ∀ other ∈ s.sched.timeNodes, node.time ≤ other.time) (hdue : node.time ≤ now) :
      Step s (.expire now top)
        { s with
          sched := { s.sched with timeNodes := s.sched.timeNodes.eraseIdx top }
          pc := .timer expired node }
  | waitPoll (now : Time) (batch : List (ℕ × Event)) (hpc : s.pc = .idle)
      (hmore : s.sched.timeNodes.length < s.sched.coroCount)
      (htimeout : 0 ≤ timeout (period now s.sched))
      (hfits : batch.length ≤ s.sched.poller.evs.length) :
      Step s (.wait now batch)
        { s with
          pc := .batch s.sched.poller.evs.length
            (batch.map fun (fd, e) => ⟨fd, e, s.socks fd⟩) }
  | waitSleep (now : Time) (hpc : s.pc = .idle)
      (hnone : ¬ (s.sched.timeNodes.length < s.sched.coroCount ∧
        0 ≤ timeout (period now s.sched))) :
      Step s (.wait now []) { s with pc := .head }
  | takeEnd (size : ℕ) (hpc : s.pc = .batch size []) : Step s .take { s with pc := .head }
  | takeEntry (size : ℕ) (entry : Entry) (later : List Entry)
      (hpc : s.pc = .batch size (entry :: later)) (hvalid : s.sched.poller.evs.length = size)
      (hslot : entry.fd < s.sched.descriptorNodes.length) :
      Step s .take
        { s with
          sched := s.sched.setNodes entry.fd []
          pc := .scan ⟨size, later, entry, ⟨[], s.sched.nodesAt entry.fd⟩⟩ }
  | turnEnd (d : Dispatching) (sched : Scheduler) (hpc : s.pc = .scan d)
      (hrest : d.cursor.rest = [])
      (hback : Scheduler.SplicedBack s.sched sched true d.entry.fd d.cursor.kept) :
      Step s .turn { s with sched := sched, pc := .batch d.size d.later }
  | turnCall (d : Dispatching) (node : DescriptorNode) (rest : List DescriptorNode)
      (hpc : s.pc = .scan d) (hrest : d.cursor.rest = node :: rest)
      (htriggers : triggers d.entry.events node = true) :
      Step s .turn
        { s with toWorld := writeRevent d.entry.events node s.toWorld, pc := .call d }
  | turnPass (d : Dispatching) (node : DescriptorNode) (rest : List DescriptorNode)
      (hpc : s.pc = .scan d) (hrest : d.cursor.rest = node :: rest)
      (htriggers : triggers d.entry.events node = false) :
      Step s .turn
        { s with pc := .scan { d with cursor := ⟨d.cursor.kept ++ [node], rest⟩ } }

theorem resume_cases {s s' : State} {answer : Bool} (h : s.resume answer = some s') :
    Step s (.resumed answer) s' := by
  unfold State.resume at h
  split at h
  · rename_i expired node hpc
    obtain rfl := Option.some.inj h
    exact .timerResumed answer expired node hpc
  · rename_i d hpc
    split at h
    · cases h
    · rename_i node rest hrest
      split at h
      · rename_i hready
        obtain rfl := Option.some.inj h
        rw [Cursor.erase, hrest]
        exact .callReady answer d node rest hpc hrest hready
      · rename_i hready
        obtain rfl := Option.some.inj h
        simp only [Bool.not_eq_true, Bool.or_eq_false_iff] at hready
        obtain ⟨hproxy, rfl⟩ := hready
        exact .callRefused d node rest hpc hrest hproxy
  · cases h

theorem handleExpired_cases {s s' : State} {now : Time} {top : ℕ}
    (h : s.handleExpired now top = some s') : Step s (.expire now top) s' := by
  unfold State.handleExpired at h
  split at h
  · rename_i expired hpc
    simp only at h
    split at h
    · rename_i hempty
      obtain rfl := Option.some.inj h
      refine .expireNone now top expired hpc ?_
      simp [List.isEmpty_iff.mp hempty]
    · split at h
      · cases h
      · rename_i node hget
        split at h
        · rename_i hall
          have hleast : ∀ other ∈ s.sched.timeNodes, node.time ≤ other.time := by
            simpa using hall
          split at h
          · rename_i hdue
            obtain rfl := Option.some.inj h
            exact .expirePop now top expired node hpc hget hleast hdue
          · rename_i hdue
            obtain rfl := Option.some.inj h
            refine .expireNone now top expired hpc ?_
            intro other hother
            exact lt_of_lt_of_le (not_le.mp hdue) (hleast other hother)
        · cases h
  · cases h

theorem await_cases {s s' : State} {now : Time} {batch : List (ℕ × Event)}
    (h : s.await now batch = some s') : Step s (.wait now batch) s' := by
  unfold State.await at h
  split at h
  · rename_i hpc
    split at h
    · rename_i hpoll
      split at h
      · rename_i hfits
        obtain rfl := Option.some.inj h
        exact .waitPoll now batch hpc hpoll.1 hpoll.2 hfits
      · cases h
    · rename_i hpoll
      split at h
      · rename_i hempty
        obtain rfl := Option.some.inj h
        obtain rfl := List.isEmpty_iff.mp hempty
        exact .waitSleep now hpc hpoll
      · cases h
  · cases h

theorem take_cases {s s' : State} (h : s.take = some s') : Step s .take s' := by
  unfold State.take at h
  split at h
  · rename_i size entries hpc
    split at h
    · obtain rfl := Option.some.inj h
      exact .takeEnd size hpc
    · rename_i entry later
      split at h
      · rename_i hvalid
        obtain ⟨⟨list, sched⟩, hout, rfl⟩ := Option.map_eq_some_iff.mp h
        obtain ⟨hslot, rfl, rfl⟩ := Scheduler.spliceOut_eq_some hout
        exact .takeEntry size entry later hpc hvalid hslot
      · cases h
  · cases h

theorem turn_cases {s s' : State} (h : s.turn = some s') : Step s .turn s' := by
  unfold State.turn at h
  split at h
  · rename_i d hpc
    split at h
    · rename_i hrest
      obtain ⟨sched, hback, rfl⟩ := Option.map_eq_some_iff.mp h
      have hspliced := Scheduler.spliceBack_returned (Outcome.returned?_eq_some.mp hback)
      rw [Cursor.list, hrest, List.append_nil] at hspliced
      exact .turnEnd d sched hpc hrest hspliced
    · rename_i node rest hrest
      split at h
      · rename_i htriggers
        obtain rfl := Option.some.inj h
        exact .turnCall d node rest hpc hrest htriggers
      · rename_i htriggers
        obtain rfl := Option.some.inj h
        have hcursor : d.cursor.advance = ⟨d.cursor.kept ++ [node], rest⟩ := by
          simp [Cursor.advance, hrest]
        rw [hcursor]
        exact .turnPass d node rest hpc hrest (by simpa using htriggers)
  · cases h

theorem step_cases {s s' : State} {a : Act} (h : step s a = some s') : Step s a s' := by
  cases a with
  | postTimer tp coro =>
    simp only [step, Option.ite_none_right_eq_some, Option.some.injEq] at h
    obtain ⟨hrun, rfl⟩ := h
    exact .postTimer tp coro hrun
  | postCoro fd e frame next =>
    simp only [step, Option.ite_none_right_eq_some, Option.map_eq_some_iff,
      Outcome.returned?_eq_some] at h
    obtain ⟨hrun, sched, hpost, rfl⟩ := h
    exact .postCoro fd e frame next sched hrun (Scheduler.postCoro_returned hpost)
  | openSocket fd =>
    simp only [step, Option.ite_none_right_eq_some, Option.some.injEq] at h
    obtain ⟨⟨hrun, hpos, hfree⟩, rfl⟩ := h
    exact .openSocket fd hrun hpos hfree
  | closeSocket fd =>
    simp only [step, Option.ite_none_right_eq_some, Option.map_eq_some_iff,
      Outcome.returned?_eq_some] at h
    obtain ⟨⟨hrun, hopen⟩, sched, hsub, rfl⟩ := h
    obtain ⟨poller, hpoller, rfl⟩ := Scheduler.unsubscribe_returned hsub
    exact .closeSocket fd poller hrun hopen hpoller
  | resumed answer => exact resume_cases h
  | run =>
    simp only [step, Option.ite_none_right_eq_some, Option.some.injEq] at h
    obtain ⟨hpc, rfl⟩ := h
    exact .run hpc
  | test =>
    simp only [step, Option.ite_none_right_eq_some, Option.some.injEq] at h
    obtain ⟨hpc, rfl⟩ := h
    by_cases hcount : s.sched.coroCount = 0
    · rw [if_pos hcount]
      exact .testStop hpc hcount
    · rw [if_neg hcount]
      exact .testGo hpc hcount
  | expire now top => exact handleExpired_cases h
  | wait now batch => exact await_cases h
  | take => exact take_cases h
  | turn => exact turn_cases h

def parkedIn : Pc → List DescriptorNode
  | .scan d => d.cursor.list
  | .call d => d.cursor.kept ++ d.cursor.rest.drop 1
  | _ => []

/-- All waiters on descriptors, in the table and in the local list. -/
def waiting (s : State) : List DescriptorNode := s.sched.allNodes ++ parkedIn s.pc

def poppedTimer : Pc → List TimeNode
  | .timer _ node => [node]
  | _ => []

def calledNode : Pc → List DescriptorNode
  | .call d => d.cursor.rest.take 1
  | _ => []

/-- The steps of the scheduler itself. -/
def Act.scheduling : Act → Bool
  | run => true
  | test => true
  | expire _ _ => true
  | wait _ _ => true
  | take => true
  | turn => true
  | _ => false

/-- The scheduler only moves what it holds: what leaves its queues is what it
resumes. -/
theorem step_scheduling {s s' : State} {a : Act} (h : step s a = some s')
    (ha : a.scheduling = true) :
    (waiting s' ++ calledNode s'.pc).Perm (waiting s) ∧
      (s'.sched.timeNodes ++ poppedTimer s'.pc).Perm s.sched.timeNodes := by
  cases step_cases h with
  | postTimer | postCoro | openSocket | closeSocket | timerResumed | callReady | callRefused =>
    cases ha
  | run hpc | testStop hpc | testGo hpc | waitPoll _ _ hpc | waitSleep _ hpc | takeEnd _ hpc =>
    simp [waiting, parkedIn, calledNode, poppedTimer, hpc]
  | expireNone now top expired hpc hlater =>
    dsimp only [waiting]
    split <;> simp [parkedIn, calledNode, poppedTimer, hpc]
  | expirePop now top expired node hpc hget hleast hdue =>
    obtain ⟨hlt, rfl⟩ := List.getElem?_eq_some_iff.mp hget
    refine ⟨by simp [waiting, parkedIn, calledNode, hpc, Scheduler.allNodes], ?_⟩
    refine List.perm_append_comm.trans ?_
    exact List.getElem_cons_eraseIdx_perm hlt
  | takeEntry size entry later hpc hvalid hslot =>
    have hall := Scheduler.allNodes_setNodes hslot []
    simpa [waiting, parkedIn, calledNode, poppedTimer, hpc, Cursor.list, Scheduler.setNodes]
      using hall
  | turnEnd d sched hpc hrest hback =>
    have hall := hback.allNodes
    simp only [waiting, parkedIn, calledNode, poppedTimer, hpc, Cursor.list, hrest,
      List.append_nil, hback.timeNodes]
    exact ⟨hall, List.Perm.refl _⟩
  | turnCall d node rest hpc hrest htriggers =>
    simp only [waiting, parkedIn, calledNode, poppedTimer, hpc, Cursor.list, hrest,
      writeRevent_sched, List.append_nil, List.drop_succ_cons, List.drop_zero,
      List.take_succ_cons, List.take_zero, List.append_assoc]
    refine ⟨List.Perm.append_left _ (List.Perm.append_left _ ?_), List.Perm.refl _⟩
    exact List.perm_append_comm
  | turnPass d node rest hpc hrest htriggers =>
    simp [waiting, parkedIn, calledNode, poppedTimer, hpc, Cursor.list, hrest]

theorem step_postTimer {s s' : State} {tp : Time} {coro : Frame}
    (h : step s (.postTimer tp coro) = some s') :
    waiting s' = waiting s ∧ s'.sched.timeNodes = s.sched.timeNodes ++ [⟨tp, coro⟩] := by
  cases step_cases h with
  | postTimer => exact ⟨rfl, rfl⟩

theorem step_postCoro {s s' : State} {fd : ℕ} {e : Event} {frame : Frame} {next : Next}
    (h : step s (.postCoro fd e frame next) = some s') :
    (waiting s').Perm (⟨e, ⟨frame, s.socks fd⟩, next⟩ :: waiting s) ∧
      s'.sched.timeNodes = s.sched.timeNodes := by
  cases step_cases h with
  | postCoro _ _ _ _ sched hrun hposted =>
    refine ⟨?_, hposted.timeNodes⟩
    have hall := hposted.allNodes.append_right (parkedIn s.pc)
    rw [List.append_assoc] at hall
    exact hall.trans List.perm_middle

theorem step_socket {s s' : State} {a : Act} {fd : ℕ}
    (ha : a = .openSocket fd ∨ a = .closeSocket fd) (h : step s a = some s') :
    waiting s' = waiting s ∧ s'.sched.timeNodes = s.sched.timeNodes := by
  rcases ha with rfl | rfl
  · cases step_cases h with
    | openSocket => exact ⟨rfl, rfl⟩
  · cases step_cases h with
    | closeSocket => exact ⟨rfl, rfl⟩

/-- When the resumed code is back, the waiter it was resumed for is erased. -/
theorem step_resumed {s s' : State} (h : step s (.resumed true) = some s') :
    waiting s' = waiting s ∧ s'.sched.timeNodes = s.sched.timeNodes := by
  cases step_cases h with
  | timerResumed _ expired node hpc =>
    simp [waiting, parkedIn, hpc, Scheduler.release, Scheduler.allNodes]
  | callReady _ d node rest hpc hrest hready =>
    simp [waiting, parkedIn, hpc, hrest, Cursor.list, Scheduler.release, Scheduler.allNodes]

theorem step_refused {s t s' : State} (hturn : step s .turn = some t)
    (hproxy : ∀ node ∈ calledNode t.pc, node.next.isHandle = false) (hcall : calledNode t.pc ≠ [])
    (h : step t (.resumed false) = some s') :
    waiting s' = waiting s ∧ s'.sched.timeNodes = s.sched.timeNodes := by
  cases step_cases hturn with
  | turnEnd | turnPass => simp [calledNode] at hcall
  | turnCall d node rest hpc hrest htriggers =>
    have hnode := hproxy node (by simp [calledNode, hrest])
    cases step_cases h with
    | timerResumed _ expired node' hpc' => cases hpc'
    | callReady _ d' node' rest' hpc' hrest' hready =>
      obtain rfl := Pc.call.inj hpc'
      rw [hrest] at hrest'
      obtain ⟨rfl, rfl⟩ := List.cons.inj hrest'
      simp [hnode] at hready
    | callRefused d' node' rest' hpc' hrest' hproxy' =>
      obtain rfl := Pc.call.inj hpc'
      simp [waiting, parkedIn, hpc]

/-- In a call the iterator is at a waiter that the event triggers. -/
def Called (s : State) : Prop :=
  ∀ d, s.pc = .call d → ∃ node rest, d.cursor.rest = node :: rest ∧
    triggers d.entry.events node = true

theorem step_called {s s' : State} {a : Act} (hs : Called s) (h : step s a = some s') :
    Called s' := by
  intro d hd
  cases step_cases h with
  | postTimer | postCoro | openSocket | closeSocket => exact hs d hd
  | turnCall d' node rest hpc hrest htriggers =>
    obtain rfl := Pc.call.inj hd
    exact ⟨node, rest, hrest, htriggers⟩
  | expireNone =>
    dsimp only at hd
    split at hd <;> cases hd
  | timerResumed | callReady | callRefused | run | testStop | testGo | expirePop | waitPoll
  | waitSleep | takeEnd | takeEntry | turnEnd | turnPass => cases hd

theorem run_called {acts : List Act} {s : State} (h : Runs.exec step init acts = some s) :
    Called s :=
  Runs.exec_preserves (fun _ _ _ hs hstep => step_called hs hstep)
    (fun _ hd => by cases hd) h

/-- A waiter and a timer on a socket's way from its opening to the end of
`run`: the waiter comes back as a proxy, which refuses its last call but one. -/
def sampleRun : List Act :=
  [.openSocket 5, .postCoro 5 Event.read 0 (.handle 0), .postTimer 3 1, .run, .test,
    .expire 1 0, .wait 1 [(5, Event.read)], .take, .turn,
    .postCoro 5 Event.read 2 (.proxy 2), .resumed true, .turn, .take, .test,
    .expire 3 0, .resumed true, .expire 3 0, .test, .expire 4 0,
    .wait 4 [(5, Event.read)], .take, .turn, .resumed false, .turn, .closeSocket 5,
    .resumed true, .turn, .take, .test]

end Bc.EventLoop
