import Bc.Dispatch

/-!
Posts that `epoll_ctl` refuses. The waiter is in the table before the poller is
asked and is counted after it, so a refusal leaves a waiter that is neither
counted nor subscribed, and the next event that meets its mask resumes it.
-/
namespace Bc.FailedPosts

open Cxx Polling Scheduling EraseLoop Dispatch

/-- What a caller can notice of a scheduler; the sizes of the vectors are left
out. -/
structure LeftAsBefore (s s' : Scheduler) : Prop where
  nodesAt : ∀ fd, s'.nodesAt fd = s.nodesAt fd
  coroCount : s'.coroCount = s.coroCount
  timeNodes : s'.timeNodes = s.timeNodes
  focusAt : ∀ fd, s'.poller.focusAt fd = s.poller.focusAt fd

structure Refused (s : Scheduler) (ok : Bool) (fd : ℕ) (node : DescriptorNode) : Prop where
  positive : 0 < fd
  inTable : fd < (s.adjustSize fd).descriptorNodes.length
  inFocus : fd < (s.poller.adjustSize fd).focus.length
  changes : s.poller.focusAt fd ≠ maskOf (s.nodesAt fd ++ [node])
  failed : ok = false

/-- What a post leaves behind when it throws. -/
structure HalfPosted (s s' : Scheduler) (fd : ℕ) (node : DescriptorNode) : Prop where
  nodesAt : ∀ k, s'.nodesAt k = if k = fd then s.nodesAt fd ++ [node] else s.nodesAt k
  coroCount : s'.coroCount = s.coroCount
  timeNodes : s'.timeNodes = s.timeNodes
  focusAt : ∀ k, s'.poller.focusAt k = s.poller.focusAt k

section Throws

variable {s s' : Scheduler} {ok : Bool} {fd : ℕ} {node : DescriptorNode}

theorem postCoro_thrown (h : s.postCoro ok fd node = .thrown s') :
    Refused s ok fd node ∧ HalfPosted s s' fd node := by
  by_cases hfd : 0 < fd ∧ fd < (s.adjustSize fd).descriptorNodes.length
  · obtain ⟨hpos, hlt⟩ := hfd
    rw [Scheduler.postCoro_eq hpos hlt] at h
    cases hsub : s.poller.subscribe ok fd (maskOf (s.nodesAt fd ++ [node])) with
    | returned poller =>
      rw [hsub] at h
      cases h
    | thrown poller =>
      rw [hsub] at h
      obtain rfl := Outcome.thrown.inj h
      obtain ⟨⟨-, hfocus⟩, ⟨hchanges, hfailed⟩, rfl⟩ := Poller.subscribe_thrown_iff.mp hsub
      obtain ⟨hcount, htime, -⟩ := Scheduler.adjustSize_frame s fd
      exact ⟨⟨hpos, hlt, hfocus, hchanges, hfailed⟩,
        Scheduler.nodesAt_withNode hlt, hcount, htime, Poller.focusAt_adjustSize s.poller fd⟩
    | fault =>
      rw [hsub] at h
      cases h
  · rw [Scheduler.postCoro_fault hfd] at h
    cases h

theorem postCoro_of_refused (h : Refused s ok fd node) :
    ∃ s', s.postCoro ok fd node = .thrown s' := by
  have hsub : s.poller.subscribe ok fd (maskOf (s.nodesAt fd ++ [node])) =
      .thrown (s.poller.adjustSize fd) :=
    Poller.subscribe_thrown_iff.mpr ⟨⟨h.positive, h.inFocus⟩, ⟨h.changes, h.failed⟩, rfl⟩
  rw [Scheduler.postCoro_eq h.positive h.inTable, hsub]
  exact ⟨_, rfl⟩

theorem HalfPosted.not_leftAsBefore (h : HalfPosted s s' fd node) : ¬LeftAsBefore s s' := by
  intro hsame
  have hnodes := (h.nodesAt fd).symm.trans (hsame.nodesAt fd)
  rw [if_pos rfl] at hnodes
  exact List.cons_ne_nil _ _ (List.append_right_eq_self.mp hnodes)

/-- A post that throws leaves the scheduler as it was just where it cannot
throw. -/
theorem left_as_before_iff (s : Scheduler) (ok : Bool) (fd : ℕ) (node : DescriptorNode) :
    (∀ s', s.postCoro ok fd node = .thrown s' → LeftAsBefore s s') ↔ ¬Refused s ok fd node := by
  constructor
  · intro hleft hrefused
    obtain ⟨s', hthrown⟩ := postCoro_of_refused hrefused
    exact (postCoro_thrown hthrown).2.not_leftAsBefore (hleft s' hthrown)
  · intro hnever s' hthrown
    exact absurd (postCoro_thrown hthrown).1 hnever

/-- A dispatch that returns has resumed a rejected waiter that its event
meets. -/
theorem rejected_waiter_resumed (h : s.postCoro ok fd node = .thrown s') {again : Bool}
    {behaviour : ℕ → Resumption} {n : ℕ} {e : Event} {w w' : World}
    {turns : List (Turn DescriptorNode World)} (hw : w.sched = s') (hmeets : triggers e node = true)
    (hdispatch : handler again behaviour n fd e w = some (w', turns)) :
    node ∈ turns.filterMap Turn.fired := by
  have hnodes := (postCoro_thrown h).2.nodesAt fd
  rw [if_pos rfl] at hnodes
  rw [(handler_served hdispatch).fired_eq, hw, hnodes]
  exact List.mem_filter.mpr ⟨List.mem_append_right _ List.mem_cons_self, hmeets⟩

end Throws

def sampleReader : DescriptorNode := ⟨Event.read, ⟨0, none⟩, .handle 0⟩

def sampleWriter : DescriptorNode := ⟨Event.write, ⟨1, none⟩, .handle 1⟩

/-- `epoll_ctl` refuses a reader of a new descriptor; a writer is posted after
it, and one event for both resumes both. -/
def sampleScheduler : Option (Scheduler × Scheduler) := do
  let rejected ← (Scheduler.empty.postCoro false 5 sampleReader).state?
  let posted ← (rejected.postCoro true 5 sampleWriter).returned?
  let dispatched ← handler true (fun _ => ⟨[], true⟩) 2 5 (Event.read ||| Event.write)
    { sched := posted, revents := fun _ => Event.none }
  pure (rejected, dispatched.1.sched)

/-- The rejected reader stays in the table without being counted, and a later
event drives the count below zero. -/
theorem rejected_reader_stays :
    (¬∀ s ok fd node s', s.postCoro ok fd node = .thrown s' → LeftAsBefore s s') ∧
      sampleScheduler.map (fun (rejected, dispatched) =>
        (rejected.nodesAt 5, rejected.coroCount, dispatched.coroCount)) =
          some ([sampleReader], 0, -1) := by
  constructor
  · intro h
    have hrefused : Refused Scheduler.empty false 5 sampleReader :=
      ⟨by decide, by decide, by decide, by decide, rfl⟩
    obtain ⟨s', hthrown⟩ := postCoro_of_refused hrefused
    exact (postCoro_thrown hthrown).2.not_leftAsBefore (h _ _ _ _ _ hthrown)
  · decide +kernel

end Bc.FailedPosts
