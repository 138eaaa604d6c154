import Bc.SubscribedMasks
import Bc.WaiterCount

/-!
Waiters and the sockets they were posted on. A descriptor number returns
after a socket is destroyed, but the destructor clears the poller's mask only:
it leaves the waiters in the table and the fetched events in the batch.
-/
namespace Bc.SocketWaiters

open Cxx Polling Scheduling EraseLoop Dispatch EventLoop SubscribedMasks WaiterCount

/-- A waiter posted on a socket is triggered by an event of that socket only. -/
def OwnEvent (entry : Entry) (node : DescriptorNode) : Prop :=
  triggers entry.events node = true → node.revent.sock.isSome = true →
    node.revent.sock = entry.sock

instance (entry : Entry) (node : DescriptorNode) : Decidable (OwnEvent entry node) :=
  inferInstanceAs (Decidable (_ → _ → _))

/-- The entries of the batch that are still to be handled. -/
def pending : Pc → List Entry
  | .batch _ entries => entries
  | .scan d => d.later
  | .call d => d.later
  | _ => []

/-- The handler's local list, if it is one of waiters on `fd`. -/
def heldOn (pc : Pc) (fd : ℕ) : List DescriptorNode :=
  match pc with
  | .scan d => if d.entry.fd = fd then d.cursor.list else []
  | .call d => if d.entry.fd = fd then d.cursor.list else []
  | _ => []

/-- The iterator's part of the local list, with the event it is walked for. -/
def walked : Pc → Option (Entry × List DescriptorNode)
  | .scan d => some (d.entry, d.cursor.rest)
  | .call d => some (d.entry, d.cursor.rest)
  | _ => none

def beingResumed : Pc → ℕ
  | .timer _ _ => 1
  | .call _ => 1
  | _ => 0

def Destroyed (s : State) (sock : ℕ) : Prop := sock < s.opened ∧ ∀ fd, s.socks fd ≠ some sock

/-- What holds of the waiters of sockets in a state. -/
structure SocketSafe (s : State) : Prop where
  none_left : ∀ sock, Destroyed s sock → ∀ node ∈ waiting s, node.revent.sock ≠ some sock
  none_counted : s.sched.coroCount =
    s.sched.timeNodes.length + (waiting s).length + beingResumed s.pc
  own_event : ∀ d node rest, s.pc = .call d → d.cursor.rest = node :: rest →
    ∀ sock, node.revent.sock = some sock → d.entry.sock = some sock

/-- A socket is destroyed when none of its waiters waits, a waiter is posted
when no event of an earlier socket is at hand that triggers it, and a proxy
does not outlive its socket. -/
def KeepsToSockets (s : State) : Act → Prop
  | .closeSocket fd => ∀ node ∈ parkedOn s.pc fd ++ s.sched.nodesAt fd,
      node.revent.sock ≠ s.socks fd
  | .postCoro fd e frame next => ∀ entry ∈ pending s.pc, entry.fd = fd →
      OwnEvent entry ⟨e, ⟨frame, s.socks fd⟩, next⟩
  | .resumed false => ∀ walk ∈ walked s.pc, ∀ node ∈ walk.2.take 1,
      node.revent.sock.isSome = true → node.revent.sock = s.socks walk.1.fd
  | _ => True

instance (s : State) (a : Act) : Decidable (KeepsToSockets s a) :=
  match a with
  | .closeSocket _ => inferInstanceAs (Decidable (∀ node ∈ _, _))
  | .postCoro _ _ _ _ => inferInstanceAs (Decidable (∀ entry ∈ _, _))
  | .resumed false => inferInstanceAs (Decidable (∀ walk ∈ _, _))
  | .resumed true => inferInstanceAs (Decidable True)
  | .postTimer _ _ | .openSocket _ | .run | .test | .expire _ _ | .wait _ _ | .take | .turn =>
    inferInstanceAs (Decidable True)

/-- The waiters on a descriptor are on the socket that is open there, and no
event at hand is another socket's. -/
structure Owned (s : State) : Prop where
  table : ∀ fd, ∀ node ∈ s.sched.nodesAt fd, node.revent.sock.isSome = true →
    node.revent.sock = s.socks fd
  parked : ∀ fd, ∀ node ∈ parkedOn s.pc fd, node.revent.sock.isSome = true →
    node.revent.sock = s.socks fd
  later : ∀ entry ∈ pending s.pc,
    ∀ node ∈ heldOn s.pc entry.fd ++ s.sched.nodesAt entry.fd, OwnEvent entry node
  current : ∀ walk ∈ walked s.pc, ∀ node ∈ walk.2, OwnEvent walk.1 node

theorem init_owned : Owned init := by
  refine ⟨?_, ?_, ?_, ?_⟩ <;> simp [init, parkedOn, pending, walked]
  intro fd node hnode
  simp [Scheduler.nodesAt, Scheduler.empty] at hnode

/-- A step that adds no waiter to anything and leaves the sockets alone. -/
theorem Owned.of_subset {s s' : State} (hs : Owned s)
    (hnodes : ∀ fd, s'.sched.nodesAt fd = s.sched.nodesAt fd) (hsocks : s'.socks = s.socks)
    (hparked : ∀ fd, parkedOn s'.pc fd ⊆ parkedOn s.pc fd)
    (hpending : pending s'.pc ⊆ pending s.pc)
    (hheld : ∀ fd, heldOn s'.pc fd ⊆ heldOn s.pc fd)
    (hwalked : ∀ entry list, walked s'.pc = some (entry, list) →
      ∃ whole, walked s.pc = some (entry, whole) ∧ list ⊆ whole) : Owned s' := by
  refine ⟨?_, ?_, ?_, ?_⟩
  · intro fd node hnode
    rw [hnodes] at hnode
    rw [hsocks]
    exact hs.table fd node hnode
  · intro fd node hnode
    rw [hsocks]
    exact hs.parked fd node (hparked fd hnode)
  · intro entry hentry node hnode
    rw [hnodes] at hnode
    apply hs.later entry (hpending hentry)
    rcases List.mem_append.mp hnode with hheldNode | htable
    · exact List.mem_append.mpr (Or.inl (hheld entry.fd hheldNode))
    · exact List.mem_append.mpr (Or.inr htable)
  · intro walk hwalk node hnode
    obtain ⟨entry, list⟩ := walk
    obtain ⟨whole, hwhole, hsub⟩ := hwalked entry list hwalk
    exact hs.current _ hwhole node (hsub hnode)

/-- The scheduler is outside of a batch. -/
def Outside (pc : Pc) : Prop :=
  (∀ fd, parkedOn pc fd = []) ∧ pending pc = [] ∧ (∀ fd, heldOn pc fd = []) ∧
    walked pc = none

theorem Owned.of_outside {s s' : State} (hs : Owned s)
    (hnodes : ∀ fd, s'.sched.nodesAt fd = s.sched.nodesAt fd) (hsocks : s'.socks = s.socks)
    (hpc : Outside s'.pc) : Owned s' := by
  obtain ⟨hparked, hpending, hheld, hwalked⟩ := hpc
  apply hs.of_subset hnodes hsocks
  · intro fd
    simp [hparked]
  · simp [hpending]
  · intro fd
    simp [hheld]
  · simp [hwalked]

theorem owned_postCoro {s s' : State} {fd : ℕ} {e : Event} {frame : Frame} {next : Next}
    (hs : Owned s) (hkeeps : KeepsToSockets s (.postCoro fd e frame next))
    (hposted : Scheduler.Posted s.sched s'.sched true fd ⟨e, ⟨frame, s.socks fd⟩, next⟩)
    (hsocks : s'.socks = s.socks) (hpc : s'.pc = s.pc) : Owned s' := by
  refine ⟨?_, ?_, ?_, ?_⟩
  · intro k node hnode hsome
    rw [hposted.nodesAt k] at hnode
    rw [hsocks]
    split at hnode
    · rename_i hk
      subst k
      rcases List.mem_append.mp hnode with hold | hnew
      · exact hs.table fd node hold hsome
      · rw [List.mem_singleton.mp hnew]
    · exact hs.table k node hnode hsome
  · rw [hpc, hsocks]
    exact hs.parked
  · rw [hpc]
    intro entry hentry node hnode
    rcases List.mem_append.mp hnode with hheld | htable
    · exact hs.later entry hentry node (List.mem_append.mpr (Or.inl hheld))
    · have hold : node ∈ s.sched.nodesAt entry.fd → OwnEvent entry node := fun h =>
        hs.later entry hentry node (List.mem_append.mpr (Or.inr h))
      rw [hposted.nodesAt] at htable
      split at htable
      · rename_i hk
        subst hk
        rcases List.mem_append.mp htable with h | hnew
        · exact hold h
        · rw [List.mem_singleton.mp hnew]
          exact hkeeps entry hentry rfl
      · exact hold htable
  · rw [hpc]
    exact hs.current

theorem owned_openSocket {s s' : State} {fd : ℕ} (hs : Owned s) (hfree : s.socks fd = none)
    (hsched : s'.sched = s.sched) (hpc : s'.pc = s.pc)
    (hsocks : ∀ k, k ≠ fd → s'.socks k = s.socks k) : Owned s' := by
  -- No waiter of a socket is on `fd`, since no socket is open there.
  have hkeep : ∀ k, ∀ node : DescriptorNode,
      (node.revent.sock.isSome = true → node.revent.sock = s.socks k) →
        node.revent.sock.isSome = true → node.revent.sock = s'.socks k := by
    intro k node hold hsome
    have h := hold hsome
    by_cases hk : k = fd
    · rw [hk, hfree] at h
      rw [h] at hsome
      cases hsome
    · rw [h, hsocks k hk]
  refine ⟨?_, ?_, ?_, ?_⟩
  · rw [hsched]
    exact fun k node hnode => hkeep k node (hs.table k node hnode)
  · rw [hpc]
    exact fun k node hnode => hkeep k node (hs.parked k node hnode)
  · rw [hpc, hsched]
    exact hs.later
  · rw [hpc]
    exact hs.current

theorem owned_closeSocket {s s' : State} {fd : ℕ} (hs : Owned s)
    (hkeeps : KeepsToSockets s (.closeSocket fd))
    (hnodes : ∀ k, s'.sched.nodesAt k = s.sched.nodesAt k) (hpc : s'.pc = s.pc)
    (hsocks : ∀ k, k ≠ fd → s'.socks k = s.socks k) : Owned s' := by
  have hkeep : ∀ k, ∀ node ∈ parkedOn s.pc k ++ s.sched.nodesAt k,
      (node.revent.sock.isSome = true → node.revent.sock = s.socks k) →
        node.revent.sock.isSome = true → node.revent.sock = s'.socks k := by
    intro k node hnode hold hsome
    by_cases hk : k = fd
    · subst k
      exact absurd (hold hsome) (hkeeps node hnode)
    · rw [hold hsome, hsocks k hk]
  refine ⟨?_, ?_, ?_, ?_⟩
  · intro k node hnode
    rw [hnodes] at hnode
    exact hkeep k node (List.mem_append.mpr (Or.inr hnode)) (hs.table k node hnode)
  · rw [hpc]
    exact fun k node hnode =>
      hkeep k node (List.mem_append.mpr (Or.inl hnode)) (hs.parked k node hnode)
  · rw [hpc]
    simp only [hnodes]
    exact hs.later
  · rw [hpc]
    exact hs.current

theorem owned_waitPoll {s s' : State} {size : ℕ} {batch : List (ℕ × Event)} (hs : Owned s)
    (hsched : s'.sched = s.sched) (hsocks : s'.socks = s.socks)
    (hpc : s'.pc = .batch size (batch.map fun (fd, e) => ⟨fd, e, s.socks fd⟩)) : Owned s' := by
  refine ⟨?_, ?_, ?_, ?_⟩
  · rw [hsched, hsocks]
    exact hs.table
  · simp [hpc, parkedOn]
  · intro entry hentry node hnode _ hsome
    rw [hpc] at hentry
    obtain ⟨⟨fd, e⟩, -, rfl⟩ := List.mem_map.mp hentry
    rw [hpc, hsched] at hnode
    exact hs.table fd node (by simpa [heldOn] using hnode) hsome
  · simp [hpc, walked]

theorem owned_takeEntry {s s' : State} {size : ℕ} {entry : Entry} {later : List Entry}
    (hs : Owned s) (hpc : s.pc = .batch size (entry :: later))
    (hslot : entry.fd < s.sched.descriptorNodes.length) (hsocks : s'.socks = s.socks)
    (hsched : s'.sched = s.sched.setNodes entry.fd [])
    (hpc' : s'.pc = .scan ⟨size, later, entry, ⟨[], s.sched.nodesAt entry.fd⟩⟩) : Owned s' := by
  have hnodes : ∀ k, ∀ node ∈ s'.sched.nodesAt k, node ∈ s.sched.nodesAt k := by
    intro k node hnode
    rw [hsched, Scheduler.nodesAt_setNodes hslot] at hnode
    split at hnode
    · cases hnode
    · exact hnode
  have hlater : ∀ other ∈ entry :: later, ∀ node ∈ s.sched.nodesAt other.fd,
      OwnEvent other node := by
    intro other hother node hnode
    exact hs.later other (by rw [hpc]; exact hother) node (List.mem_append.mpr (Or.inr hnode))
  refine ⟨?_, ?_, ?_, ?_⟩
  · intro k node hnode
    rw [hsocks]
    exact hs.table k node (hnodes k node hnode)
  · intro k node hnode
    rw [hsocks]
    simp only [hpc', parkedOn, Cursor.list, List.nil_append] at hnode
    split at hnode
    · rename_i hk
      subst k
      exact hs.table entry.fd node hnode
    · cases hnode
  · intro other hother node hnode
    rw [hpc'] at hother hnode
    apply hlater other (List.mem_cons_of_mem entry hother) node
    rcases List.mem_append.mp hnode with hheld | htable
    · simp only [heldOn, Cursor.list, List.nil_append] at hheld
      split at hheld
      · rename_i hk
        rw [← hk]
        exact hheld
      · cases hheld
    · exact hnodes other.fd node htable
  · rw [hpc']
    intro walk hwalk
    obtain rfl := Option.some.inj hwalk
    exact hlater entry (List.mem_cons_self ..)

theorem owned_turnEnd {s s' : State} {d : Dispatching} (hs : Owned s) (hpc : s.pc = .scan d)
    (hrest : d.cursor.rest = [])
    (hback : Scheduler.SplicedBack s.sched s'.sched true d.entry.fd d.cursor.kept)
    (hsocks : s'.socks = s.socks) (hpc' : s'.pc = .batch d.size d.later) : Owned s' := by
  have hlist : d.cursor.list = d.cursor.kept := by
    rw [Cursor.list, hrest, List.append_nil]
  have hnodes : ∀ k, ∀ node ∈ s'.sched.nodesAt k,
      node ∈ heldOn s.pc k ++ s.sched.nodesAt k ∧
        node ∈ parkedOn s.pc k ++ s.sched.nodesAt k := by
    intro k node hnode
    rw [hback.nodesAt k] at hnode
    rw [hpc, heldOn, parkedOn]
    split at hnode
    · rename_i hk
      subst k
      simp only [if_true, hlist]
      exact ⟨hnode, hnode⟩
    · exact ⟨List.mem_append.mpr (Or.inr hnode), List.mem_append.mpr (Or.inr hnode)⟩
  refine ⟨?_, ?_, ?_, ?_⟩
  · intro k node hnode
    rw [hsocks]
    rcases List.mem_append.mp (hnodes k node hnode).2 with hparked | htable
    · exact hs.parked k node hparked
    · exact hs.table k node htable
  · simp [hpc', parkedOn]
  · intro entry hentry node hnode
    rw [hpc'] at hentry hnode
    apply hs.later entry (by rw [hpc]; exact hentry) node
    exact (hnodes entry.fd node (by simpa [heldOn] using hnode)).1
  · simp [hpc', walked]

theorem owned_callReady {s s' : State} {d : Dispatching} {node : DescriptorNode}
    {rest : List DescriptorNode} (hs : Owned s) (hpc : s.pc = .call d)
    (hrest : d.cursor.rest = node :: rest)
    (hnodes : ∀ fd, s'.sched.nodesAt fd = s.sched.nodesAt fd) (hsocks : s'.socks = s.socks)
    (hpc' : s'.pc = .scan { d with cursor := ⟨d.cursor.kept, rest⟩ }) : Owned s' := by
  apply hs.of_subset hnodes hsocks
  · intro fd
    simp [hpc, hpc', parkedOn, Cursor.list, hrest]
  · simp [hpc, hpc', pending]
  · intro fd
    simp only [hpc, hpc', heldOn, Cursor.list, hrest]
    split
    · exact ((List.sublist_cons_self node rest).append_left d.cursor.kept).subset
    · exact List.Subset.refl _
  · intro entry list hwalk
    simp only [hpc', walked, Option.some.injEq, Prod.mk.injEq] at hwalk
    obtain ⟨rfl, rfl⟩ := hwalk
    exact ⟨d.cursor.rest, by rw [hpc]; rfl, by rw [hrest]; exact List.subset_cons_self ..⟩

theorem owned_callRefused {s s' : State} {d : Dispatching} {node : DescriptorNode}
    {rest : List DescriptorNode} (hs : Owned s) (hkeeps : KeepsToSockets s (.resumed false))
    (hpc : s.pc = .call d) (hrest : d.cursor.rest = node :: rest)
    (hsched : s'.sched = s.sched) (hsocks : s'.socks = s.socks) (hpc' : s'.pc = .scan d) :
    Owned s' := by
  have hback : node.revent.sock.isSome = true → node.revent.sock = s.socks d.entry.fd :=
    hkeeps (d.entry, d.cursor.rest) (by rw [hpc]; rfl) node (by simp [hrest])
  refine ⟨?_, ?_, ?_, ?_⟩
  · rw [hsched, hsocks]
    exact hs.table
  · intro fd other hother
    rw [hsocks]
    simp only [hpc', parkedOn, Cursor.list, hrest] at hother
    split at hother
    · rename_i hfd
      subst fd
      have hparked := hs.parked d.entry.fd other
      simp only [hpc, parkedOn, if_true, hrest, List.drop_succ_cons, List.drop_zero,
        List.mem_append] at hparked
      rcases List.mem_append.mp hother with hkept | hlater
      · exact hparked (Or.inl hkept)
      · rcases List.mem_cons.mp hlater with rfl | htail
        · exact hback
        · exact hparked (Or.inr htail)
    · cases hother
  · have hlater := hs.later
    rw [hpc] at hlater
    rw [hpc', hsched]
    exact hlater
  · have hcurrent := hs.current
    rw [hpc] at hcurrent
    rw [hpc']
    exact hcurrent

theorem owned_turnCall {s s' : State} {d : Dispatching} {node : DescriptorNode}
    {rest : List DescriptorNode} (hs : Owned s) (hpc : s.pc = .scan d)
    (hrest : d.cursor.rest = node :: rest) (hsched : s'.sched = s.sched)
    (hsocks : s'.socks = s.socks) (hpc' : s'.pc = .call d) : Owned s' := by
  apply hs.of_subset _ hsocks
  · intro fd
    simp only [hpc, hpc', parkedOn, Cursor.list, hrest, List.drop_succ_cons, List.drop_zero]
    split
    · exact ((List.sublist_cons_self node rest).append_left d.cursor.kept).subset
    · exact List.Subset.refl _
  · simp [hpc, hpc', pending]
  · intro fd
    simp [hpc, hpc', heldOn]
  · intro entry list hwalk
    rw [hpc'] at hwalk
    rw [hpc]
    exact ⟨list, hwalk, List.Subset.refl list⟩
  · intro fd
    rw [hsched]

theorem owned_turnPass {s s' : State} {d : Dispatching} {node : DescriptorNode}
    {rest : List DescriptorNode} (hs : Owned s) (hpc : s.pc = .scan d)
    (hrest : d.cursor.rest = node :: rest) (hsched : s'.sched = s.sched)
    (hsocks : s'.socks = s.socks)
    (hpc' : s'.pc = .scan { d with cursor := ⟨d.cursor.kept ++ [node], rest⟩ }) : Owned s' := by
  apply hs.of_subset _ hsocks
  · intro fd
    simp [hpc, hpc', parkedOn, Cursor.list, hrest]
  · simp [hpc, hpc', pending]
  · intro fd
    simp [hpc, hpc', heldOn, Cursor.list, hrest]
  · intro entry list hwalk
    simp only [hpc', walked, Option.some.injEq, Prod.mk.injEq] at hwalk
    obtain ⟨rfl, rfl⟩ := hwalk
    exact ⟨d.cursor.rest, by rw [hpc]; rfl, by rw [hrest]; exact List.subset_cons_self ..⟩
  · intro fd
    rw [hsched]

theorem step_owned {s s' : State} {a : Act} (hs : Owned s) (hkeeps : KeepsToSockets s a)
    (h : step s a = some s') : Owned s' := by
  cases step_cases h with
  | postTimer =>
    exact ⟨hs.table, hs.parked, hs.later, hs.current⟩
  | postCoro fd e frame next sched hrun hposted =>
    exact owned_postCoro hs hkeeps hposted rfl rfl
  | openSocket fd hrun hpos hfree =>
    exact owned_openSocket hs hfree rfl rfl fun k hk => Function.update_of_ne hk _ _
  | closeSocket fd poller hrun hopen hsub =>
    exact owned_closeSocket hs hkeeps (fun _ => rfl) rfl
      fun k hk => Function.update_of_ne hk _ _
  | callReady answer d node rest hpc hrest hready =>
    exact owned_callReady hs hpc hrest (fun _ => rfl) rfl rfl
  | callRefused d node rest hpc hrest hproxy =>
    exact owned_callRefused hs hkeeps hpc hrest rfl rfl rfl
  | waitPoll now batch hpc => exact owned_waitPoll hs rfl rfl rfl
  | takeEntry size entry later hpc hvalid hslot =>
    exact owned_takeEntry hs hpc hslot rfl rfl rfl
  | turnEnd d sched hpc hrest hback => exact owned_turnEnd hs hpc hrest hback rfl rfl
  | turnCall d node rest hpc hrest => exact owned_turnCall hs hpc hrest rfl rfl rfl
  | turnPass d node rest hpc hrest => exact owned_turnPass hs hpc hrest rfl rfl rfl
  | expireNone =>
    refine hs.of_outside (fun _ => rfl) rfl ?_
    dsimp only
    split <;> simp [Outside, parkedOn, pending, heldOn, walked]
  | timerResumed | run | testStop | testGo | expirePop | waitSleep | takeEnd =>
    exact hs.of_outside (fun _ => rfl) rfl (by simp [Outside, parkedOn, pending, heldOn, walked])

theorem run_owned {acts : List Act} {s : State}
    (hkeeps : Runs.Along step KeepsToSockets init acts)
    (h : Runs.exec step init acts = some s) : Owned s :=
  Runs.exec_invariant (fun _ _ _ hs hP hstep => step_owned hs hP hstep) init_owned hkeeps h

theorem mem_parkedOn {pc : Pc} {node : DescriptorNode} (h : node ∈ parkedIn pc) :
    ∃ fd, node ∈ parkedOn pc fd := by
  cases pc with
  | scan d => exact ⟨d.entry.fd, by simpa [parkedOn, parkedIn] using h⟩
  | call d => exact ⟨d.entry.fd, by simpa [parkedOn, parkedIn] using h⟩
  | _ => simp [parkedIn] at h

theorem Owned.none_left {s : State} (hs : Owned s) {sock : ℕ} (hgone : Destroyed s sock) :
    ∀ node ∈ waiting s, node.revent.sock ≠ some sock := by
  intro node hnode hsock
  have hsome : node.revent.sock.isSome = true := by rw [hsock]; rfl
  rcases List.mem_append.mp hnode with htable | hlist
  · obtain ⟨fd, hfd⟩ := Scheduler.mem_allNodes.mp htable
    have h := hs.table fd node hfd hsome
    exact hgone.2 fd (h.symm.trans hsock)
  · obtain ⟨fd, hfd⟩ := mem_parkedOn hlist
    have h := hs.parked fd node hfd hsome
    exact hgone.2 fd (h.symm.trans hsock)

theorem Owned.own_event {s : State} (hs : Owned s) {d : Dispatching} {node : DescriptorNode}
    {rest : List DescriptorNode} (hpc : s.pc = .call d) (hrest : d.cursor.rest = node :: rest)
    (htriggers : triggers d.entry.events node = true) {sock : ℕ}
    (hsock : node.revent.sock = some sock) : d.entry.sock = some sock := by
  have hown := hs.current (d.entry, d.cursor.rest) (by rw [hpc]; rfl) node (by simp [hrest])
  have h := hown htriggers (by rw [hsock]; rfl)
  exact h.symm.trans hsock

/-- What the scheduler has in hand is parked, or is being resumed. -/
theorem inHand_eq {s : State} (hcall : Called s) :
    inHand s.pc = (parkedIn s.pc).length + beingResumed s.pc := by
  cases hpc : s.pc with
  | call d =>
    obtain ⟨node, rest, hrest, -⟩ := hcall d hpc
    simp only [inHand, parkedIn, beingResumed, Cursor.list, hrest, List.length_append,
      List.length_cons, List.drop_succ_cons, List.drop_zero]
    omega
  | _ => rfl

theorem coroCount_eq_waiting {acts : List Act} {s : State}
    (h : Runs.exec step init acts = some s) :
    s.sched.coroCount =
      s.sched.timeNodes.length + (waiting s).length + beingResumed s.pc := by
  have hcount := run_balanced h
  have hhand := inHand_eq (run_called h)
  unfold WaiterCount.Balanced at hcount
  rw [waiting, List.length_append]
  omega

/-- In a run that keeps to the rules for sockets, a destroyed socket leaves no
waiter behind, registered or counted, and a waiter is only resumed by an event
that was reported for its own socket. -/
theorem sockets_safe {acts : List Act} {s : State}
    (hkeeps : Runs.Along step KeepsToSockets init acts)
    (h : Runs.exec step init acts = some s) : SocketSafe s := by
  have hs := run_owned hkeeps h
  refine ⟨?_, coroCount_eq_waiting h, ?_⟩
  · intro sock hgone
    exact hs.none_left hgone
  · intro d node rest hpc hrest sock hsock
    obtain ⟨first, others, hfirst, htriggers⟩ := run_called h d hpc
    rw [hrest] at hfirst
    obtain ⟨rfl, rfl⟩ := List.cons.inj hfirst
    exact hs.own_event hpc hrest htriggers hsock

theorem sockets_safe_sample : ∃ s, Runs.exec step init sampleRun = some s ∧
    s.opened = 1 ∧ s.socks 5 = none ∧ SocketSafe s := by
  have hrun : ((Runs.exec step init sampleRun).map fun s => (s.opened, s.socks 5)) =
      some (1, none) := by
    decide +kernel
  obtain ⟨s, hs, heq⟩ := Option.map_eq_some_iff.mp hrun
  obtain ⟨hopened, hsocks⟩ := Prod.mk.inj heq
  exact ⟨s, hs, hopened, hsocks, sockets_safe (by decide +kernel) hs⟩

/-- A waiter's socket is destroyed and its number returns with a new socket. -/
def reopenedRun : List Act :=
  [.openSocket 5, .postCoro 5 Event.read 0 (.handle 0), .closeSocket 5, .openSocket 5,
    .postCoro 5 Event.read 1 (.handle 1), .run, .test, .expire 0 0,
    .wait 0 [(5, Event.read)], .take, .turn]

theorem resumed_by_other_socket :
    ¬ ∀ acts s, Runs.exec step init acts = some s → SocketSafe s := by
  intro h
  have hrun : ((Runs.exec step init reopenedRun).map fun s => s.pc) = some (.call
      ⟨8, [], ⟨5, Event.read, some 1⟩, ⟨[], [⟨Event.read, ⟨0, some 0⟩, .handle 0⟩,
        ⟨Event.read, ⟨1, some 1⟩, .handle 1⟩]⟩⟩) := by
    decide +kernel
  obtain ⟨s, hs, hpc⟩ := Option.map_eq_some_iff.mp hrun
  have hown := (h reopenedRun s hs).own_event _ _ _ hpc rfl 0 rfl
  exact absurd hown (by decide)

end Bc.SocketWaiters
