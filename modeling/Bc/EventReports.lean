import Bc.Coroutines
import Bc.SubscribedMasks

/-!
What the waiters of one descriptor have to do with each other. They share one
mask and are all given the event as it is reported, so what one of them has
asked for reaches the others, and what none has asked for reaches nobody.
-/
namespace Bc.EventReports

open Polling Scheduling EraseLoop Dispatch Awaiters SubscribedMasks Coroutines

/-- What epoll reports of a descriptor in some condition. Errors and hang-ups
need not be asked for. -/
def reported (conditions : Event) (nodes : List DescriptorNode) : Event :=
  conditions &&& (maskOf nodes ||| Event.error ||| Event.hangup)

section Bits

variable {a b c conditions : Event} {nodes : List DescriptorNode} {i : ℕ}

theorem meets_iff : Event.meets a b = true ↔ ∃ i, a.getLsbD i = true ∧ b.getLsbD i = true := by
  have hzero : a &&& b = 0#32 ↔ ∀ i, (a &&& b).getLsbD i = false := by
    constructor
    · intro h i
      rw [h, BitVec.getLsbD_zero]
    · intro h
      refine BitVec.eq_of_getLsbD_eq fun i _ => ?_
      rw [h i, BitVec.getLsbD_zero]
  rw [Event.meets, bne_iff_ne, ne_eq]
  refine (not_congr hzero).trans ?_
  simp only [BitVec.getLsbD_and, not_forall, Bool.not_eq_false, Bool.and_eq_true]

theorem meets_or (a b c : Event) :
    Event.meets a (b ||| c) = (Event.meets a b || Event.meets a c) := by
  rw [Bool.eq_iff_iff, Bool.or_eq_true, meets_iff, meets_iff, meets_iff, ← exists_or]
  simp only [BitVec.getLsbD_or, Bool.or_eq_true, and_or_left]

theorem meets_twoPow (a : Event) (i : ℕ) (hi : i < 32) :
    Event.meets a (BitVec.twoPow 32 i) = a.getLsbD i := by
  rw [Bool.eq_iff_iff, meets_iff]
  constructor
  · rintro ⟨j, ha, hj⟩
    rw [BitVec.getLsbD_twoPow, Bool.and_eq_true, decide_eq_true_eq, decide_eq_true_eq] at hj
    rwa [hj.2]
  · intro ha
    exact ⟨i, ha, by simp [hi]⟩

theorem meets_error (a : Event) : Event.meets a Event.error = a.getLsbD 3 :=
  meets_twoPow a 3 (by decide)

theorem meets_hangup (a : Event) : Event.meets a Event.hangup = a.getLsbD 4 :=
  meets_twoPow a 4 (by decide)

theorem meets_rdhangup (a : Event) : Event.meets a Event.rdhangup = a.getLsbD 13 :=
  meets_twoPow a 13 (by decide)

theorem getLsbD_reported (i : ℕ) : (reported conditions nodes).getLsbD i =
    (conditions.getLsbD i && ((maskOf nodes).getLsbD i || Event.error.getLsbD i ||
      Event.hangup.getLsbD i)) := by
  simp only [reported, BitVec.getLsbD_and, BitVec.getLsbD_or]

theorem reported_error (conditions : Event) (nodes : List DescriptorNode) :
    Event.meets (reported conditions nodes) Event.error = Event.meets conditions Event.error := by
  rw [meets_error, meets_error, getLsbD_reported, show Event.error.getLsbD 3 = true from rfl,
    Bool.or_true, Bool.true_or, Bool.and_true]

theorem reported_hangup (conditions : Event) (nodes : List DescriptorNode) :
    Event.meets (reported conditions nodes) Event.hangup =
      Event.meets conditions Event.hangup := by
  rw [meets_hangup, meets_hangup, getLsbD_reported, show Event.hangup.getLsbD 4 = true from rfl,
    Bool.or_true, Bool.and_true]

/-- A half-closed peer is reported if some waiter has asked for it. -/
theorem reported_rdhangup (conditions : Event) (nodes : List DescriptorNode) :
    Event.meets (reported conditions nodes) Event.rdhangup =
      (Event.meets conditions Event.rdhangup && Event.meets (maskOf nodes) Event.rdhangup) := by
  rw [meets_rdhangup, meets_rdhangup, meets_rdhangup, getLsbD_reported,
    show Event.error.getLsbD 13 = false from rfl, show Event.hangup.getLsbD 13 = false from rfl,
    Bool.or_false, Bool.or_false]

theorem meets_maskOf : Event.meets (maskOf nodes) a = true ↔
    ∃ node ∈ nodes, Event.meets node.ev a = true := by
  simp only [meets_iff, maskOf_getLsbD]
  constructor
  · rintro ⟨i, ⟨node, hnode, hev⟩, ha⟩
    exact ⟨node, hnode, i, hev, ha⟩
  · rintro ⟨node, hnode, i, hev, ha⟩
    exact ⟨i, ⟨node, hnode, hev⟩, ha⟩

end Bits

section Writes

variable {conditions : Event} {nodes : List DescriptorNode} {writer : DescriptorNode}

/-- The outcome of a write does not depend on the waiters beside it. -/
def WriteAgrees (conditions : Event) (nodes : List DescriptorNode) (writer : DescriptorNode) :
    Prop :=
  ∀ write, writeResume (reported conditions nodes) write =
    writeResume (reported conditions [writer]) write

/-- The peer has half-closed the connection and nothing worse has happened, and
a waiter wants to know. -/
structure HalfCloseShared (conditions : Event) (nodes : List DescriptorNode) : Prop where
  rdhangup : Event.meets conditions Event.rdhangup = true
  no_error : Event.meets conditions Event.error = false
  no_hangup : Event.meets conditions Event.hangup = false
  asked : ∃ node ∈ nodes, Event.meets node.ev Event.rdhangup = true

/-- In any dispatch of what is reported for `nodes`, the write is resumed and
sees all of it. -/
def WriteSees (conditions : Event) (nodes : List DescriptorNode) (writer : DescriptorNode) :
    Prop :=
  ∀ ok behaviour n fd w w' turns, w.sched.nodesAt fd = nodes →
    handler ok behaviour n fd (reported conditions nodes) w = some (w', turns) →
      writer ∈ turns.filterMap Turn.fired ∧ ∀ before ready, .called writer before ready ∈ turns →
        before.revents writer.revent = reported conditions nodes

theorem hangsUp_eq (revent : Event) :
    hangsUp revent = (Event.meets revent Event.hangup || Event.meets revent Event.rdhangup) :=
  meets_or _ _ _

/-- Two events that agree on errors and hang-ups are the same for a write. -/
theorem writeResume_congr {e e' : Event} (herror : Event.meets e Event.error =
    Event.meets e' Event.error) (hhangup : hangsUp e = hangsUp e') (write : Except Errno ℕ) :
    writeResume e write = writeResume e' write := by
  unfold writeResume transferResume
  rw [herror, hhangup]

/-- A write alone is not told of a half-closed peer. -/
theorem hangsUp_alone (hev : writer.ev = writeMask) :
    hangsUp (reported conditions [writer]) = Event.meets conditions Event.hangup := by
  have hmask : maskOf [writer] = writeMask := (BitVec.zero_or).trans hev
  have hquiet : Event.meets writeMask Event.rdhangup = false := by decide
  rw [hangsUp_eq, reported_hangup, reported_rdhangup, hmask, hquiet, Bool.and_false,
    Bool.or_false]

theorem writeAgrees_iff (hev : writer.ev = writeMask) :
    WriteAgrees conditions nodes writer ↔ ¬HalfCloseShared conditions nodes := by
  constructor
  · intro hagrees hshared
    have hasked : Event.meets (maskOf nodes) Event.rdhangup = true :=
      meets_maskOf.mpr hshared.asked
    have hbeside : writeResume (reported conditions nodes) (.ok 0) =
        .error ErrorCode.closedByPeer := by
      simp [writeResume, transferResume, hangsUp_eq, reported_error, reported_rdhangup,
        hshared.no_error, hshared.rdhangup, hasked]
    have halone : writeResume (reported conditions [writer]) (.ok 0) = .ok 0 := by
      simp [writeResume, transferResume, reported_error, hangsUp_alone hev, hshared.no_error,
        hshared.no_hangup]
    have h := hagrees (.ok 0)
    rw [hbeside, halone] at h
    cases h
  · intro hshared write
    cases herror : Event.meets conditions Event.error with
    | true => simp [writeResume, transferResume, reported_error, herror]
    | false =>
      refine writeResume_congr ?_ ?_ write
      · rw [reported_error, reported_error]
      · rw [hangsUp_alone hev, hangsUp_eq, reported_hangup, reported_rdhangup]
        cases hhangup : Event.meets conditions Event.hangup with
        | true => rfl
        | false =>
          rw [Bool.false_or, Bool.and_eq_false_iff]
          by_contra hboth
          simp only [not_or, Bool.not_eq_false] at hboth
          exact hshared ⟨hboth.1, herror, hhangup, meets_maskOf.mp hboth.2⟩

/-- A condition that a write waits for is reported to it. -/
theorem meets_reported_of_mem (hmem : writer ∈ nodes)
    (hready : Event.meets conditions writer.ev = true) :
    Event.meets writer.ev (reported conditions nodes) = true := by
  rw [meets_iff] at hready ⊢
  obtain ⟨i, hcondition, hev⟩ := hready
  refine ⟨i, hev, ?_⟩
  rw [getLsbD_reported, hcondition, (maskOf_getLsbD nodes i).mpr ⟨writer, hmem, hev⟩]
  rfl

theorem writeSees_of_mem (hmem : writer ∈ nodes)
    (hready : Event.meets conditions writer.ev = true) : WriteSees conditions nodes writer := by
  intro ok behaviour n fd w w' turns hnodes hdispatch
  refine ⟨?_, fun before ready hmem => handler_called hdispatch hmem⟩
  rw [(handler_served hdispatch).fired_eq, hnodes]
  exact List.mem_filter.mpr ⟨hmem, meets_reported_of_mem hmem hready⟩

/-- A write that is ready is resumed with the whole event, whatever waits beside
it. Its outcome is the same as alone unless another waiter has asked for the
peer's half-close and that is all there is. -/
theorem write_agrees_iff (conditions : Event) (nodes : List DescriptorNode)
    (writer : DescriptorNode) (hev : writer.ev = writeMask) (hmem : writer ∈ nodes)
    (hready : Event.meets conditions writeMask = true) :
    WriteSees conditions nodes writer ∧ WriteSees conditions [writer] writer ∧
      (WriteAgrees conditions nodes writer ↔ ¬HalfCloseShared conditions nodes) := by
  rw [← hev] at hready
  exact ⟨writeSees_of_mem hmem hready, writeSees_of_mem List.mem_cons_self hready,
    writeAgrees_iff hev⟩

def sampleReader : DescriptorNode := ⟨readMask, ⟨0, some 0⟩, SocketAwaiter.read.next 0⟩

def sampleWriter : DescriptorNode := ⟨writeMask, ⟨1, some 0⟩, SocketAwaiter.write.next 1⟩

theorem write_agrees_iff_sample :
    WriteSees Event.write [sampleReader, sampleWriter] sampleWriter ∧
      WriteAgrees Event.write [sampleReader, sampleWriter] sampleWriter := by
  have h := write_agrees_iff Event.write [sampleReader, sampleWriter] sampleWriter rfl (by decide)
    (by decide)
  exact ⟨h.1, h.2.2.mpr fun hshared => absurd hshared.rdhangup (by decide)⟩

/-- A write on a half-closed connection succeeds alone and fails beside a
read. -/
theorem half_close_reaches_write :
    (writeResume (reported (Event.write ||| Event.rdhangup) [sampleWriter]) (.ok 5),
      writeResume (reported (Event.write ||| Event.rdhangup) [sampleReader, sampleWriter])
        (.ok 5)) = (.ok 5, .error ErrorCode.closedByPeer) ∧
      ¬∀ conditions nodes writer, writer.ev = writeMask → writer ∈ nodes →
        Event.meets conditions writeMask = true → WriteAgrees conditions nodes writer := by
  refine ⟨by decide, fun h => ?_⟩
  have hagrees := h (Event.write ||| Event.rdhangup) [sampleReader, sampleWriter] sampleWriter rfl
    (by decide) (by decide) (.ok 5)
  exact absurd hagrees (by decide)

end Writes

section Spins

structure Waiter where
  awaiter : SocketAwaiter
  revent : Awaiter
  coro : Frame

def Waiter.node (waiter : Waiter) : DescriptorNode :=
  ⟨waiter.awaiter.mask, waiter.revent, waiter.awaiter.next waiter.coro⟩

/-- An event that epoll can report for a descriptor with these waiters. -/
structure Reportable (e : Event) (nodes : List DescriptorNode) : Prop where
  some_bit : e ≠ Event.none
  within : reported e nodes = e

/-- Whatever the resumed code does, a dispatch comes to a waiter and, if it
returns, has resumed one for good. -/
structure Resumes (e : Event) (nodes : List DescriptorNode) : Prop where
  calls : ∀ (effect : ℕ → DescriptorNode → World → World) (answer : ℕ → Bool) w, ∃ n walk,
    handlerLoop (fun k node w => some (effect k node w, answer k)) e n (Walk.start nodes w) =
        some walk ∧
      ∃ node before ready, .called node before ready ∈ walk.turns
  fires : ∀ ok behaviour n fd w w' turns, w.sched.nodesAt fd = nodes →
    handler ok behaviour n fd e w = some (w', turns) → turns.filterMap Turn.fired ≠ []

variable {e : Event} {nodes : List DescriptorNode} {waiters : List Waiter}

theorem resumes_iff_triggers : Resumes e nodes ↔ nodes.filter (triggers e) ≠ [] := by
  constructor
  · intro hresumes hnone
    obtain ⟨n, walk, hloop, node, before, ready, hcalled⟩ :=
      hresumes.calls (fun _ _ w => w) (fun _ => true) ⟨Scheduler.empty, fun _ => Event.none⟩
    rcases hit_of_called hloop hcalled with hstart | hhit
    · cases hstart
    · rw [hnone] at hhit
      cases hhit
  · intro hsome
    refine ⟨fun effect answer w => ?_, ?_⟩
    · obtain ⟨n, walk, hloop, hcalled⟩ := loop_calls hsome
      refine ⟨n, walk, ?_, hcalled⟩
      rw [handlerLoop, visitNext_total]
      exact hloop
    · intro ok behaviour n fd w w' turns hnodes hdispatch
      rwa [(handler_served hdispatch).fired_eq, hnodes]

/-- Every awaiter but one asks for errors and hang-ups itself. -/
theorem mask_of_ne_accept {awaiter : SocketAwaiter} (h : awaiter ≠ .accept) {i : ℕ}
    (hi : Event.error.getLsbD i = true ∨ Event.hangup.getLsbD i = true) :
    awaiter.mask.getLsbD i = true := by
  cases awaiter with
  | accept => exact absurd rfl h
  | read =>
    simp only [SocketAwaiter.mask, readMask, BitVec.getLsbD_or, Bool.or_eq_true]
    tauto
  | write =>
    simp only [SocketAwaiter.mask, writeMask, BitVec.getLsbD_or, Bool.or_eq_true]
    tauto
  | connect =>
    simp only [SocketAwaiter.mask, connectMask, BitVec.getLsbD_or, Bool.or_eq_true]
    tauto

theorem exists_bit (h : e ≠ Event.none) : ∃ i, e.getLsbD i = true := by
  by_contra hnone
  simp only [not_exists, Bool.not_eq_true] at hnone
  refine h (BitVec.eq_of_getLsbD_eq fun i _ => ?_)
  rw [hnone i]
  exact BitVec.getLsbD_zero.symm

theorem triggers_iff (hne : waiters ≠ []) (hreport : Reportable e (waiters.map Waiter.node)) :
    (waiters.map Waiter.node).filter (triggers e) ≠ [] ↔
      (∃ waiter ∈ waiters, waiter.awaiter ≠ .accept) ∨ Event.meets e Event.read = true := by
  have hfilter : (waiters.map Waiter.node).filter (triggers e) ≠ [] ↔
      ∃ waiter ∈ waiters, Event.meets waiter.awaiter.mask e = true := by
    rw [ne_eq, List.filter_eq_nil_iff]
    simp [triggers, Waiter.node]
  rw [hfilter]
  constructor
  · rintro ⟨waiter, hwaiter, hmeets⟩
    by_cases haccept : waiter.awaiter = .accept
    · rw [haccept, meets_iff] at hmeets
      obtain ⟨i, hmask, hevent⟩ := hmeets
      exact .inr (meets_iff.mpr ⟨i, hevent, hmask⟩)
    · exact .inl ⟨waiter, hwaiter, haccept⟩
  · intro h
    by_cases hother : ∃ waiter ∈ waiters, waiter.awaiter ≠ .accept
    · obtain ⟨waiter, hwaiter, haccept⟩ := hother
      obtain ⟨i, hi⟩ := exists_bit hreport.some_bit
      have hasked := hi
      rw [← hreport.within, getLsbD_reported, hi, Bool.true_and, Bool.or_eq_true,
        Bool.or_eq_true] at hasked
      -- The bit is one that some waiter has asked for, or one that is always reported.
      rcases hasked with (hmask | herror) | hhangup
      · obtain ⟨node, hnode, hev⟩ := (maskOf_getLsbD _ i).mp hmask
        obtain ⟨asking, hasking, rfl⟩ := List.mem_map.mp hnode
        exact ⟨asking, hasking, meets_iff.mpr ⟨i, hev, hi⟩⟩
      · exact ⟨waiter, hwaiter, meets_iff.mpr ⟨i, mask_of_ne_accept haccept (.inl herror), hi⟩⟩
      · exact ⟨waiter, hwaiter, meets_iff.mpr ⟨i, mask_of_ne_accept haccept (.inr hhangup), hi⟩⟩
    · obtain ⟨i, hevent, hbit⟩ := meets_iff.mp (h.resolve_left hother)
      obtain ⟨waiter, hwaiter⟩ := List.exists_mem_of_ne_nil waiters hne
      have haccept : waiter.awaiter = .accept := by
        by_contra hne
        exact hother ⟨waiter, hwaiter, hne⟩
      refine ⟨waiter, hwaiter, ?_⟩
      rw [haccept]
      exact meets_iff.mpr ⟨i, hbit, hevent⟩

/-- An event is taken to some waiter unless all of them are accepts, which have
not asked for errors and hang-ups, and there is nothing to read. -/
theorem resumes_iff (waiters : List Waiter) (e : Event) (hne : waiters ≠ [])
    (hreport : Reportable e (waiters.map Waiter.node)) :
    Resumes e (waiters.map Waiter.node) ↔
      (∃ waiter ∈ waiters, waiter.awaiter ≠ .accept) ∨ Event.meets e Event.read = true :=
  resumes_iff_triggers.trans (triggers_iff hne hreport)

def sampleAccept : Waiter := ⟨.accept, ⟨0, some 0⟩, 0⟩

/-- An accept and, behind it, a write and a read of the same descriptor. -/
def sampleMixed : List Waiter :=
  [sampleAccept, ⟨.write, ⟨0, some 1⟩, 1⟩, ⟨.read, ⟨0, some 2⟩, 2⟩]

theorem resumes_iff_sample :
    Resumes Event.hangup (sampleMixed.map Waiter.node) ∧
      Resumes Event.read ([sampleAccept].map Waiter.node) := by
  have hmixed : Reportable Event.hangup (sampleMixed.map Waiter.node) := ⟨by decide, by decide⟩
  have hread : Reportable Event.read ([sampleAccept].map Waiter.node) := ⟨by decide, by decide⟩
  exact ⟨(resumes_iff sampleMixed Event.hangup (List.cons_ne_nil _ _) hmixed).mpr
      (.inl ⟨⟨.write, ⟨0, some 1⟩, 1⟩, by simp [sampleMixed], nofun⟩),
    (resumes_iff [sampleAccept] Event.read (List.cons_ne_nil _ _) hread).mpr (.inr (by decide))⟩

/-- A hang-up of a socket that only an accept waits on. -/
theorem hangup_resumes_no_accept : ¬∀ (waiters : List Waiter) e, waiters ≠ [] →
    Reportable e (waiters.map Waiter.node) → Resumes e (waiters.map Waiter.node) := by
  intro h
  have hresumes := h [sampleAccept] Event.hangup (List.cons_ne_nil _ _) ⟨by decide, by decide⟩
  exact absurd (resumes_iff_triggers.mp hresumes) (by decide)

end Spins

end Bc.EventReports
