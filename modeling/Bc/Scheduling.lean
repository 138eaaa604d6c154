import Bc.Polling
import Mathlib.Data.List.Perm.Basic

/-!
The scheduler's own data and the operations that change it one at a time:
posting a timer, posting a waiter on a descriptor, moving the waiters of a
descriptor out of the table and back, and recomputing the subscribed mask.
-/
namespace Bc.Scheduling

open Cxx Polling

abbrev Frame := ℕ
abbrev Time := ℤ

/-- The awaiter that holds the variable a waiter's `revent` refers to: the
frame it lives in and the socket it was made for. -/
structure Awaiter where
  frame : Frame
  sock : Option ℕ
  deriving DecidableEq

/-- What is resumed: a coroutine itself, or a proxy that may resume it. -/
inductive Next
  | handle (coro : Frame)
  | proxy (coro : Frame)
  deriving DecidableEq

def Next.frame : Next → Frame
  | handle coro => coro
  | proxy coro => coro

def Next.isHandle : Next → Bool
  | handle _ => true
  | proxy _ => false

structure TimeNode where
  time : Time
  next : Frame
  deriving DecidableEq

structure DescriptorNode where
  ev : Event
  revent : Awaiter
  next : Next
  deriving DecidableEq

/-- `coroCount` is an integer so that a decrement below zero would show. -/
structure Scheduler where
  coroCount : ℤ
  timeNodes : List TimeNode
  descriptorNodes : List (List DescriptorNode)
  poller : Poller
  deriving DecidableEq

/-- The bitwise OR of the masks of some waiters. -/
def maskOf (nodes : List DescriptorNode) : Event :=
  nodes.foldl (fun e node => e ||| node.ev) Event.none

namespace Scheduler

def empty : Scheduler := ⟨0, [], [], Poller.empty⟩

/-- `post_coro` with a time point. -/
def postTimer (tp : Time) (coro : Frame) (s : Scheduler) : Scheduler :=
  { s with timeNodes := s.timeNodes ++ [⟨tp, coro⟩], coroCount := s.coroCount + 1 }

def adjustSize (index : ℕ) (s : Scheduler) : Scheduler :=
  if index < s.descriptorNodes.length then s
  else { s with descriptorNodes := resize (bitCeil index) [] s.descriptorNodes }

def updateDescriptor (ok : Bool) (fd : ℕ) (s : Scheduler) : Outcome Scheduler :=
  match s.descriptorNodes[fd]? with
  | none => .fault
  | some nodes =>
    (s.poller.subscribe ok fd (maskOf nodes)).map fun poller => { s with poller := poller }

def setNodes (s : Scheduler) (fd : ℕ) (nodes : List DescriptorNode) : Scheduler :=
  { s with descriptorNodes := s.descriptorNodes.set fd nodes }

/-- `post_coro` with a descriptor, for a coroutine and for a proxy alike. -/
def postCoro (ok : Bool) (fd : ℕ) (node : DescriptorNode) (s : Scheduler) : Outcome Scheduler :=
  if 0 < fd then
    let s := s.adjustSize fd
    match s.descriptorNodes[fd]? with
    | none => .fault
    | some nodes =>
      ((s.setNodes fd (nodes ++ [node])).updateDescriptor ok fd).bind fun s =>
        .returned { s with coroCount := s.coroCount + 1 }
  else .fault

def unsubscribe (ok : Bool) (fd : ℕ) (s : Scheduler) : Outcome Scheduler :=
  (s.poller.unsubscribe ok fd).map fun poller => { s with poller := poller }

/-- The first splice of an event's handler: the waiters leave the table. -/
def spliceOut (fd : ℕ) (s : Scheduler) : Option (List DescriptorNode × Scheduler) :=
  s.descriptorNodes[fd]?.map fun nodes => (nodes, s.setNodes fd [])

/-- The end of an event's handler: the waiters left in the local list go in
front of those posted meanwhile, and the mask is computed anew. -/
def spliceBack (ok : Bool) (fd : ℕ) (list : List DescriptorNode) (s : Scheduler) :
    Outcome Scheduler :=
  match s.descriptorNodes[fd]? with
  | none => .fault
  | some nodes => (s.setNodes fd (list ++ nodes)).updateDescriptor ok fd

/-- `--coro_count_`. -/
def release (s : Scheduler) : Scheduler := { s with coroCount := s.coroCount - 1 }

/-- The waiters registered on a descriptor. -/
def nodesAt (s : Scheduler) (fd : ℕ) : List DescriptorNode := s.descriptorNodes.getD fd []

/-- The waiters registered on any descriptor. -/
def allNodes (s : Scheduler) : List DescriptorNode := s.descriptorNodes.flatten

end Scheduler

/-- Replacing one list of a table trades its old elements for the new ones. -/
theorem flatten_set_perm {α : Type*} {table : List (List α)} {i : ℕ} (hi : i < table.length)
    (list : List α) :
    ((table.set i list).flatten ++ table.getD i []).Perm (table.flatten ++ list) := by
  induction table generalizing i with
  | nil => simp at hi
  | cons head tail ih =>
    cases i with
    | zero =>
      simp only [List.set_cons_zero, List.flatten_cons, List.getD_cons_zero, List.append_assoc]
      refine (List.perm_append_comm_assoc list tail.flatten head).trans ?_
      refine List.Perm.trans ?_ (List.perm_append_comm_assoc tail.flatten head list)
      have hswap : (list ++ head).Perm (head ++ list) := List.perm_append_comm
      exact hswap.append_left tail.flatten
    | succ i =>
      have htail : i < tail.length := by
        simp only [List.length_cons] at hi
        omega
      simpa only [List.set_cons_succ, List.flatten_cons, List.getD_cons_succ, List.append_assoc]
        using (ih htail).append_left head

namespace Scheduler

variable {s s' : Scheduler} {fd : ℕ} {ok : Bool} {node : DescriptorNode}

theorem nodesAt_eq_of_getElem? {nodes : List DescriptorNode}
    (h : s.descriptorNodes[fd]? = some nodes) : s.nodesAt fd = nodes := by
  simp [nodesAt, List.getD_eq_getElem?_getD, h]

theorem nodesAt_subset_allNodes (s : Scheduler) (fd : ℕ) : s.nodesAt fd ⊆ s.allNodes := by
  intro node hnode
  cases hnodes : s.descriptorNodes[fd]? with
  | none => simp [nodesAt, List.getD_eq_getElem?_getD, hnodes] at hnode
  | some nodes =>
    rw [nodesAt_eq_of_getElem? hnodes] at hnode
    exact List.mem_flatten_of_mem (List.mem_of_getElem? hnodes) hnode

theorem mem_allNodes : node ∈ s.allNodes ↔ ∃ fd, node ∈ s.nodesAt fd := by
  constructor
  · intro hnode
    obtain ⟨nodes, hnodes, hmem⟩ := List.mem_flatten.mp hnode
    obtain ⟨fd, hfd⟩ := List.mem_iff_getElem?.mp hnodes
    exact ⟨fd, by rwa [nodesAt_eq_of_getElem? hfd]⟩
  · intro h
    obtain ⟨fd, hnode⟩ := h
    exact s.nodesAt_subset_allNodes fd hnode

theorem nodesAt_setNodes (h : fd < s.descriptorNodes.length) (nodes : List DescriptorNode)
    (k : ℕ) : (s.setNodes fd nodes).nodesAt k = if k = fd then nodes else s.nodesAt k := by
  by_cases hk : k = fd
  · subst k
    simp [nodesAt, setNodes, List.getD_eq_getElem?_getD, h]
  · have hk' : fd ≠ k := Ne.symm hk
    simp [nodesAt, setNodes, List.getD_eq_getElem?_getD, hk, hk']

theorem allNodes_setNodes (h : fd < s.descriptorNodes.length) (nodes : List DescriptorNode) :
    ((s.setNodes fd nodes).allNodes ++ s.nodesAt fd).Perm (s.allNodes ++ nodes) :=
  flatten_set_perm h nodes

theorem length_adjustSize (s : Scheduler) (index : ℕ) :
    (s.adjustSize index).descriptorNodes.length =
      if index < s.descriptorNodes.length then s.descriptorNodes.length else bitCeil index := by
  unfold adjustSize
  split <;> simp

theorem nodesAt_adjustSize (s : Scheduler) (index k : ℕ) :
    (s.adjustSize index).nodesAt k = s.nodesAt k := by
  unfold adjustSize nodesAt
  split
  · rfl
  · have h := le_bitCeil index
    exact getD_resize_of_le (by omega) _ _

theorem allNodes_adjustSize (s : Scheduler) (index : ℕ) :
    (s.adjustSize index).allNodes = s.allNodes := by
  unfold adjustSize allNodes
  split
  · rfl
  · have h := le_bitCeil index
    rw [resize_of_le (by omega)]
    simp

/-- `adjustSize` touches only the table. -/
theorem adjustSize_frame (s : Scheduler) (index : ℕ) :
    (s.adjustSize index).coroCount = s.coroCount ∧
      (s.adjustSize index).timeNodes = s.timeNodes ∧
      (s.adjustSize index).poller = s.poller := by
  unfold adjustSize
  split <;> simp

theorem updateDescriptor_returned (h : s.updateDescriptor ok fd = .returned s') :
    fd < s.descriptorNodes.length ∧ ∃ poller,
      s.poller.subscribe ok fd (maskOf (s.nodesAt fd)) = .returned poller ∧
      s' = { s with poller := poller } := by
  unfold updateDescriptor at h
  cases hnodes : s.descriptorNodes[fd]? with
  | none => simp [hnodes] at h
  | some nodes =>
    obtain ⟨hlt, -⟩ := List.getElem?_eq_some_iff.mp hnodes
    simp only [hnodes] at h
    obtain ⟨poller, hpoller, rfl⟩ := Outcome.map_eq_returned.mp h
    rw [nodesAt_eq_of_getElem? hnodes]
    exact ⟨hlt, poller, hpoller, rfl⟩

/-- All that changes when `post_coro` returns after posting `node` on `fd`. -/
structure Posted (s s' : Scheduler) (ok : Bool) (fd : ℕ) (node : DescriptorNode) : Prop where
  positive : 0 < fd
  coroCount : s'.coroCount = s.coroCount + 1
  timeNodes : s'.timeNodes = s.timeNodes
  length : s'.descriptorNodes.length = (s.adjustSize fd).descriptorNodes.length
  inRange : fd < s'.descriptorNodes.length
  nodesAt : ∀ k, s'.nodesAt k = if k = fd then s.nodesAt fd ++ [node] else s.nodesAt k
  allNodes : s'.allNodes.Perm (s.allNodes ++ [node])
  poller : s.poller.subscribe ok fd (maskOf (s.nodesAt fd ++ [node])) = .returned s'.poller

/-- All that changes when the end of a handler returns with `list` left over. -/
structure SplicedBack (s s' : Scheduler) (ok : Bool) (fd : ℕ) (list : List DescriptorNode) :
    Prop where
  coroCount : s'.coroCount = s.coroCount
  timeNodes : s'.timeNodes = s.timeNodes
  length : s'.descriptorNodes.length = s.descriptorNodes.length
  inRange : fd < s.descriptorNodes.length
  nodesAt : ∀ k, s'.nodesAt k = if k = fd then list ++ s.nodesAt fd else s.nodesAt k
  allNodes : s'.allNodes.Perm (s.allNodes ++ list)
  poller : s.poller.subscribe ok fd (maskOf (list ++ s.nodesAt fd)) = .returned s'.poller

/-- The state of a post once the new waiter is in the table. -/
def withNode (s : Scheduler) (fd : ℕ) (node : DescriptorNode) : Scheduler :=
  (s.adjustSize fd).setNodes fd (s.nodesAt fd ++ [node])

/-- A post in range is a subscription with the new waiter in the table; the
count comes after it. -/
theorem postCoro_eq (hpos : 0 < fd) (hlt : fd < (s.adjustSize fd).descriptorNodes.length) :
    s.postCoro ok fd node =
      ((s.poller.subscribe ok fd (maskOf (s.nodesAt fd ++ [node]))).map fun poller =>
        { s.withNode fd node with poller := poller }).bind fun s =>
          .returned { s with coroCount := s.coroCount + 1 } := by
  have hget : (s.adjustSize fd).descriptorNodes[fd]? = some (s.nodesAt fd) := by
    rw [List.getElem?_eq_getElem hlt, ← nodesAt_adjustSize s fd fd, nodesAt,
      List.getD_eq_getElem _ _ hlt]
  have hset : (s.withNode fd node).descriptorNodes[fd]? = some (s.nodesAt fd ++ [node]) := by
    simp [withNode, setNodes, hlt]
  have hpoller : (s.withNode fd node).poller = s.poller := (adjustSize_frame s fd).2.2
  simp only [postCoro, hpos, if_true, hget]
  rw [← withNode, updateDescriptor, hset, hpoller]

theorem postCoro_fault (h : ¬ (0 < fd ∧ fd < (s.adjustSize fd).descriptorNodes.length)) :
    s.postCoro ok fd node = .fault := by
  unfold postCoro
  split
  · rename_i hpos
    have hget : (s.adjustSize fd).descriptorNodes[fd]? = none :=
      List.getElem?_eq_none_iff.mpr (by omega)
    simp only [hget]
  · rfl

theorem nodesAt_withNode (hlt : fd < (s.adjustSize fd).descriptorNodes.length) (k : ℕ) :
    (s.withNode fd node).nodesAt k =
      if k = fd then s.nodesAt fd ++ [node] else s.nodesAt k := by
  rw [withNode, nodesAt_setNodes hlt, nodesAt_adjustSize]

theorem allNodes_withNode (hlt : fd < (s.adjustSize fd).descriptorNodes.length) :
    (s.withNode fd node).allNodes.Perm (s.allNodes ++ [node]) := by
  have hall := allNodes_setNodes hlt (s.nodesAt fd ++ [node])
  rw [nodesAt_adjustSize, allNodes_adjustSize] at hall
  refine (List.perm_append_right_iff (s.nodesAt fd)).mp (hall.trans ?_)
  rw [List.append_assoc]
  exact List.perm_append_comm.append_left _

theorem postCoro_returned (h : s.postCoro ok fd node = .returned s') :
    Posted s s' ok fd node := by
  by_cases hfd : 0 < fd ∧ fd < (s.adjustSize fd).descriptorNodes.length
  · obtain ⟨hpos, hlt⟩ := hfd
    rw [postCoro_eq hpos hlt] at h
    obtain ⟨u, hu, hs'⟩ := Outcome.bind_eq_returned.mp h
    obtain ⟨poller, hpoller, rfl⟩ := Outcome.map_eq_returned.mp hu
    obtain rfl := Outcome.returned.inj hs'
    obtain ⟨hcount, htime, -⟩ := adjustSize_frame s fd
    refine ⟨hpos, ?_, htime, ?_, ?_, nodesAt_withNode hlt, allNodes_withNode hlt, hpoller⟩
    · simp only [withNode, setNodes, hcount]
    · simp only [withNode, setNodes, List.length_set]
    · simpa only [withNode, setNodes, List.length_set] using hlt
  · rw [postCoro_fault hfd] at h
    cases h

/-- What a post has done to the rest of the scheduler, whether it returns or
throws. -/
theorem postCoro_state? (h : (s.postCoro ok fd node).state? = some s') :
    0 < fd ∧ fd < (s.adjustSize fd).descriptorNodes.length ∧
      s'.timeNodes = s.timeNodes ∧
      s'.descriptorNodes = (s.withNode fd node).descriptorNodes ∧
      (s.poller.subscribe ok fd (maskOf (s.nodesAt fd ++ [node]))).state? = some s'.poller := by
  by_cases hfd : 0 < fd ∧ fd < (s.adjustSize fd).descriptorNodes.length
  · obtain ⟨hpos, hlt⟩ := hfd
    have htime := (adjustSize_frame s fd).2.1
    rw [postCoro_eq hpos hlt] at h
    cases hsub : s.poller.subscribe ok fd (maskOf (s.nodesAt fd ++ [node])) with
    | returned poller =>
      simp only [hsub, Outcome.map, Outcome.bind, Outcome.state?, Option.some.injEq] at h
      subst h
      exact ⟨hpos, hlt, htime, rfl, rfl⟩
    | thrown poller =>
      simp only [hsub, Outcome.map, Outcome.bind, Outcome.state?, Option.some.injEq] at h
      subst h
      exact ⟨hpos, hlt, htime, rfl, rfl⟩
    | fault => simp [hsub, Outcome.map, Outcome.bind, Outcome.state?] at h
  · simp [postCoro_fault hfd, Outcome.state?] at h

theorem spliceBack_returned {list : List DescriptorNode}
    (h : s.spliceBack ok fd list = .returned s') : SplicedBack s s' ok fd list := by
  unfold spliceBack at h
  cases hnodes : s.descriptorNodes[fd]? with
  | none => simp [hnodes] at h
  | some nodes =>
    simp only [hnodes] at h
    obtain ⟨-, poller, hpoller, rfl⟩ := updateDescriptor_returned h
    obtain ⟨hlt, -⟩ := List.getElem?_eq_some_iff.mp hnodes
    have hold : s.nodesAt fd = nodes := nodesAt_eq_of_getElem? hnodes
    have hall := allNodes_setNodes hlt (list ++ nodes)
    rw [hold] at hall
    refine ⟨rfl, rfl, by simp only [setNodes, List.length_set], hlt, ?_, ?_, ?_⟩
    · rw [hold]
      exact nodesAt_setNodes hlt (list ++ nodes)
    · rw [← List.append_assoc] at hall
      exact (List.perm_append_right_iff nodes).mp hall
    · rw [nodesAt_setNodes hlt, if_pos rfl] at hpoller
      simpa only [setNodes, hold] using hpoller

/-- All that changes when the waiters of a descriptor leave the table. -/
theorem spliceOut_eq_some {list : List DescriptorNode} (h : s.spliceOut fd = some (list, s')) :
    fd < s.descriptorNodes.length ∧ list = s.nodesAt fd ∧ s' = s.setNodes fd [] := by
  unfold spliceOut at h
  obtain ⟨nodes, hnodes, heq⟩ := Option.map_eq_some_iff.mp h
  obtain ⟨hlt, -⟩ := List.getElem?_eq_some_iff.mp hnodes
  rw [nodesAt_eq_of_getElem? hnodes]
  simp only [Prod.mk.injEq] at heq
  exact ⟨hlt, heq.1.symm, heq.2.symm⟩

theorem unsubscribe_returned (h : s.unsubscribe ok fd = .returned s') :
    ∃ poller, s.poller.unsubscribe ok fd = .returned poller ∧ s' = { s with poller := poller } := by
  obtain ⟨poller, hpoller, rfl⟩ := Outcome.map_eq_returned.mp h
  exact ⟨poller, hpoller, rfl⟩

theorem Posted.focusAt (h : Posted s s' ok fd node) (k : ℕ) :
    s'.poller.focusAt k =
      if k = fd then maskOf (s.nodesAt fd ++ [node]) else s.poller.focusAt k :=
  Poller.subscribe_focusAt h.poller k

theorem SplicedBack.focusAt {list : List DescriptorNode} (h : SplicedBack s s' ok fd list)
    (k : ℕ) :
    s'.poller.focusAt k =
      if k = fd then maskOf (list ++ s.nodesAt fd) else s.poller.focusAt k :=
  Poller.subscribe_focusAt h.poller k

end Scheduler

end Bc.Scheduling
