import Bc.Coroutines
import Bc.SubscribedMasks

/-!
The waiters on each descriptor over the steps of the scheduler. They move between the
table and the list of the handler in progress, and only a post adds one to them.
-/
namespace Bc.WaiterTables

open Scheduling EraseLoop Dispatch EventLoop SubscribedMasks

/-- The waiters on a descriptor, the one being resumed left out. -/
def placed (s : State) (fd : ℕ) : List DescriptorNode := s.sched.nodesAt fd ++ parkedOn s.pc fd

section Steps

variable {s s' : State} {fd : ℕ} {node : DescriptorNode}

theorem mem_placed_of_waiting (h : node ∈ waiting s) : ∃ fd, node ∈ placed s fd := by
  rcases List.mem_append.mp h with htable | hlist
  · obtain ⟨fd, hfd⟩ := Scheduler.mem_allNodes.mp htable
    exact ⟨fd, List.mem_append_left _ hfd⟩
  · cases hpc : s.pc with
    | scan d | call d =>
      refine ⟨d.entry.fd, List.mem_append_right _ ?_⟩
      simpa [hpc, parkedIn, parkedOn] using hlist
    | main | head | expire | timer | idle | batch | finished => simp [hpc, parkedIn] at hlist

theorem waiting_of_mem_placed (h : node ∈ placed s fd) : node ∈ waiting s := by
  rcases List.mem_append.mp h with htable | hlist
  · exact List.mem_append_left _ (Scheduler.mem_allNodes.mpr ⟨fd, htable⟩)
  · refine List.mem_append_right _ ?_
    cases hpc : s.pc with
    | scan d | call d =>
      simp only [hpc, parkedOn, List.mem_ite_nil_right] at hlist
      exact hlist.2
    | main | head | expire | timer | idle | batch | finished => simp [hpc, parkedOn] at hlist

theorem step_socks {a : Act} (h : step s a = some s') (hopen : ∀ k, a ≠ .openSocket k)
    (hclose : ∀ k, a ≠ .closeSocket k) : s'.socks = s.socks ∧ s'.opened = s.opened := by
  cases step_cases h with
  | openSocket k => exact absurd rfl (hopen k)
  | closeSocket k => exact absurd rfl (hclose k)
  | postTimer | postCoro | timerResumed | callReady | callRefused | run | testStop | testGo
  | expireNone | expirePop | waitPoll | waitSleep | takeEnd | takeEntry | turnEnd | turnCall
  | turnPass => exact ⟨rfl, rfl⟩

/-- A step that leaves the table alone and adds nothing to the handler's list. -/
theorem placed_of_subset (h : node ∈ placed s' fd)
    (hnodes : ∀ fd, s'.sched.nodesAt fd = s.sched.nodesAt fd)
    (hparked : ∀ fd, parkedOn s'.pc fd ⊆ parkedOn s.pc fd) : node ∈ placed s fd := by
  rw [placed, hnodes] at h
  rcases List.mem_append.mp h with htable | hlist
  · exact List.mem_append_left _ htable
  · exact List.mem_append_right _ (hparked fd hlist)

/-- A step that does not put a refused proxy back adds what it posts. -/
theorem placed_of_step {a : Act} (h : step s a = some s') (ha : a ≠ .resumed false)
    (hnode : node ∈ placed s' fd) :
    node ∈ placed s fd ∨ ∃ e frame next, a = .postCoro fd e frame next ∧
      node = ⟨e, ⟨frame, s.socks fd⟩, next⟩ := by
  cases step_cases h with
  | postTimer | openSocket | closeSocket => exact Or.inl hnode
  | postCoro k e frame next sched hrun hposted =>
    by_cases hk : fd = k
    · subst hk
      rw [placed, hposted.nodesAt fd, if_pos rfl] at hnode
      simp only [List.mem_append, List.mem_singleton] at hnode
      rcases hnode with (hold | hnew) | hlist
      · exact Or.inl (List.mem_append_left _ hold)
      · exact Or.inr ⟨e, frame, next, rfl, hnew⟩
      · exact Or.inl (List.mem_append_right _ hlist)
    · rw [placed, hposted.nodesAt fd, if_neg hk] at hnode
      exact Or.inl hnode
  | timerResumed | run | testStop | testGo | expirePop | waitPoll | waitSleep | takeEnd =>
    exact Or.inl (placed_of_subset hnode (fun _ => rfl) fun _ => List.nil_subset _)
  | expireNone =>
    refine Or.inl (placed_of_subset hnode (fun _ => rfl) fun k => ?_)
    dsimp only
    split <;> exact List.nil_subset _
  | callReady answer d other rest hpc hrest hready =>
    refine Or.inl (placed_of_subset hnode (fun _ => rfl) fun k => ?_)
    simp only [parkedOn, hpc, hrest, Cursor.list, List.drop_succ_cons, List.drop_zero]
    exact List.Subset.refl _
  | callRefused => exact absurd rfl ha
  | takeEntry size entry later hpc hvalid hslot =>
    refine Or.inl ?_
    rw [placed, Scheduler.nodesAt_setNodes hslot] at hnode
    simp only [parkedOn, Cursor.list, List.nil_append] at hnode
    by_cases hk : fd = entry.fd
    · subst hk
      simpa [placed] using Or.inl hnode
    · rw [if_neg hk, if_neg (Ne.symm hk), List.append_nil] at hnode
      exact List.mem_append_left _ hnode
  | turnEnd d sched hpc hrest hback =>
    refine Or.inl ?_
    rw [placed, hback.nodesAt fd] at hnode
    by_cases hk : fd = d.entry.fd
    · subst hk
      simp only [placed, hpc, parkedOn, if_true, Cursor.list, hrest, List.append_nil,
        List.mem_append] at hnode ⊢
      simpa [or_comm] using hnode
    · rw [if_neg hk] at hnode
      simp only [parkedOn, List.append_nil] at hnode
      exact List.mem_append_left _ hnode
  | turnCall d other rest hpc hrest htriggers =>
    refine Or.inl (placed_of_subset hnode (fun _ => rfl) fun k => ?_)
    simp only [parkedOn, hpc, hrest, Cursor.list, List.drop_succ_cons, List.drop_zero]
    split
    · exact ((List.sublist_cons_self other rest).append_left d.cursor.kept).subset
    · exact List.Subset.refl _
  | turnPass d other rest hpc hrest htriggers =>
    refine Or.inl (placed_of_subset hnode (fun _ => rfl) fun k => ?_)
    simp [parkedOn, hpc, hrest, Cursor.list]

theorem placed_of_refused {t : State} (hturn : step s .turn = some t)
    (hcall : calledNode t.pc ≠ []) (hproxy : ∀ node ∈ calledNode t.pc, node.next.isHandle = false)
    (h : step t (.resumed false) = some s') (hnode : node ∈ placed s' fd) : node ∈ placed s fd := by
  cases step_cases hturn with
  | turnEnd | turnPass => simp [calledNode] at hcall
  | turnCall d other rest hpc hrest htriggers =>
    have hrefuses := hproxy other (by simp [calledNode, hrest])
    cases step_cases h with
    | timerResumed _ expired _ hpc' => cases hpc'
    | callReady _ d' other' rest' hpc' hrest' hready =>
      obtain rfl := Pc.call.inj hpc'
      obtain ⟨rfl, -⟩ := List.cons.inj (hrest.symm.trans hrest')
      simp [hrefuses] at hready
    | callRefused d' other' rest' hpc' hrest' hproxy' =>
      obtain rfl := Pc.call.inj hpc'
      refine placed_of_subset hnode (fun _ => rfl) fun k => ?_
      rw [hpc]
      exact List.Subset.refl _

end Steps

section Runtimes

open Coroutines hiding Act step Step step_cases start

variable {s s' : Runtime} {a : Coroutines.Act}

/-- A waiter is put on a descriptor by the coroutine that awaits it. -/
theorem placed_of_runtime {fd : ℕ} {node : DescriptorNode}
    (h : Coroutines.step s a = some s') (hnode : node ∈ placed s'.loop fd) :
    node ∈ placed s.loop fd ∨ ∃ awaiter coro below, a = .awaitSocket awaiter fd ∧
      s.stack = coro :: below ∧ node.ev = awaiter.mask ∧ node.next = awaiter.next coro := by
  have hkept : ∀ {b : EventLoop.Act} {loop}, EventLoop.step s.loop b = some loop →
      b ≠ .resumed false → (∀ k e frame next, b ≠ .postCoro k e frame next) →
      node ∈ placed loop fd → node ∈ placed s.loop fd := by
    intro b loop hstep hanswer hpost hmem
    refine (placed_of_step hstep hanswer hmem).resolve_right ?_
    rintro ⟨e, frame, next, rfl, -⟩
    exact hpost fd e frame next rfl
  cases Coroutines.step_cases h with
  | start | awaitDone | awaitTask | finish | destroyTask => exact Or.inl hnode
  | sleep tp coro below loop hstack hpost => exact Or.inl (hkept hpost nofun nofun hnode)
  | awaitSocket awaiter k coro below loop hstack hpost =>
    refine (placed_of_step hpost nofun hnode).imp_right ?_
    rintro ⟨e, frame, next, hact, rfl⟩
    obtain ⟨rfl, rfl, rfl, rfl⟩ := EventLoop.Act.postCoro.inj hact
    exact ⟨awaiter, coro, below, rfl, hstack, rfl, rfl⟩
  | openSocket k loop hopen => exact Or.inl (hkept hopen nofun nofun hnode)
  | closeSocket k loop hclose => exact Or.inl (hkept hclose nofun nofun hnode)
  | leave loop hstack hleave => exact Or.inl (hkept hleave nofun nofun hnode)
  | refuse called loop hstack hturn hcall hproxy hrefuse =>
    exact Or.inl (placed_of_refused hturn hcall hproxy hrefuse hnode)
  | sched b loop hstack hsched hloop =>
    refine Or.inl (hkept hloop ?_ ?_ hnode)
    · rintro rfl
      cases hsched
    · rintro k e frame next rfl
      cases hsched

theorem timers_of_runtime {node : TimeNode} (h : Coroutines.step s a = some s')
    (hnode : node ∈ s'.loop.sched.timeNodes) :
    node ∈ s.loop.sched.timeNodes ∨ ∃ tp coro below, a = .sleep tp ∧ s.stack = coro :: below ∧
      node = ⟨tp, coro⟩ := by
  cases Coroutines.step_cases h with
  | start | awaitDone | awaitTask | finish | destroyTask => exact Or.inl hnode
  | sleep tp coro below loop hstack hpost =>
    dsimp only [Runtime.suspend] at hnode
    rw [(step_postTimer hpost).2, List.mem_append, List.mem_singleton] at hnode
    exact hnode.imp_right fun heq => ⟨tp, coro, below, rfl, hstack, heq⟩
  | awaitSocket awaiter k coro below loop hstack hpost =>
    exact Or.inl ((step_postCoro hpost).2 ▸ hnode)
  | openSocket k loop hopen => exact Or.inl ((step_socket (Or.inl rfl) hopen).2 ▸ hnode)
  | closeSocket k loop hclose => exact Or.inl ((step_socket (Or.inr rfl) hclose).2 ▸ hnode)
  | leave loop hstack hleave => exact Or.inl ((step_resumed hleave).2 ▸ hnode)
  | refuse called loop hstack hturn hcall hproxy hrefuse =>
    exact Or.inl ((step_refused hturn hproxy hcall hrefuse).2 ▸ hnode)
  | sched b loop hstack hsched hloop =>
    have hperm := (step_scheduling hloop hsched).2
    exact Or.inl (hperm.subset (List.mem_append_left _ hnode))

end Runtimes

end Bc.WaiterTables
