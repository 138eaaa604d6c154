import Bc.Scheduling
import Mathlib.Data.List.Induction

/-!
The sizes of the three vectors that are indexed by descriptors. Two copies of
`adjust_size_` grow them to `bit_ceil` of the descriptor, which leaves no
slot for a descriptor that is itself a power of two.
-/
namespace Bc.VectorSizes

open Cxx Polling Scheduling

/-- The size after an `adjust_size_` call on a vector of size `n`. -/
def grow (n fd : ℕ) : ℕ := if fd < n then n else bitCeil fd

def sizeAfter (fds : List ℕ) : ℕ := fds.foldl grow 0

theorem sizeAfter_snoc (fds : List ℕ) (fd : ℕ) :
    sizeAfter (fds ++ [fd]) = grow (sizeAfter fds) fd := by
  simp only [sizeAfter, List.foldl_append, List.foldl_cons, List.foldl_nil]

theorem le_grow (n fd : ℕ) : n ≤ grow n fd := by
  have h := le_bitCeil fd
  unfold grow
  split <;> omega

theorem lt_grow_iff (n fd : ℕ) : fd < grow n fd ↔ fd < n ∨ ¬ ∃ k, fd = 2 ^ k := by
  rw [← lt_bitCeil_iff]
  unfold grow
  split <;> omega

theorem two_pow_lt_grow_iff (n fd k : ℕ) : 2 ^ k < grow n fd ↔ 2 ^ k < n ∨ 2 ^ k < fd := by
  have h := two_pow_lt_bitCeil_iff k fd
  unfold grow
  split <;> omega

/-- A power of two fits after some calls exactly if one of them was for a
larger descriptor. -/
theorem two_pow_lt_sizeAfter_iff (fds : List ℕ) (k : ℕ) :
    2 ^ k < sizeAfter fds ↔ ∃ larger ∈ fds, 2 ^ k < larger := by
  induction fds using List.reverseRecOn with
  | nil => simp [sizeAfter]
  | append_singleton fds fd ih =>
    rw [sizeAfter_snoc, two_pow_lt_grow_iff, ih]
    simp only [List.mem_append, List.mem_singleton, or_and_right, exists_or, exists_eq_left]

/-- Every power of two in `fds` has a larger number before it, where `before`
has come before all of them. -/
def CoveredFrom (before : List ℕ) : List ℕ → Prop
  | [] => True
  | fd :: rest =>
    ((∃ k, fd = 2 ^ k) → ∃ larger ∈ before, fd < larger) ∧ CoveredFrom (before ++ [fd]) rest

def Covered (fds : List ℕ) : Prop := CoveredFrom [] fds

/-- After the calls for `before`, the call for `fd` makes room for it exactly
if `fd` is covered. -/
theorem lt_grow_sizeAfter_iff (before : List ℕ) (fd : ℕ) :
    fd < grow (sizeAfter before) fd ↔
      ((∃ k, fd = 2 ^ k) → ∃ larger ∈ before, fd < larger) := by
  rw [lt_grow_iff]
  constructor
  · intro hlt hpow
    obtain ⟨k, rfl⟩ := hpow
    refine (two_pow_lt_sizeAfter_iff before k).mp (hlt.resolve_right ?_)
    exact fun hnot => hnot ⟨k, rfl⟩
  · intro hcovered
    by_cases hpow : ∃ k, fd = 2 ^ k
    · obtain ⟨k, rfl⟩ := hpow
      exact Or.inl ((two_pow_lt_sizeAfter_iff before k).mpr (hcovered ⟨k, rfl⟩))
    · exact Or.inr hpow

/-- The operations on descriptors, with the kernel's answer to their
`epoll_ctl`. A dispatch stands for the `update_descriptor_` that ends it, with
the mask it computes; what its coroutines call stands before it. -/
inductive Op
  | postCoro (ok : Bool) (fd : ℕ) (node : DescriptorNode)
  | subscribe (ok : Bool) (fd : ℕ) (e : Event)
  | unsubscribe (ok : Bool) (fd : ℕ)
  | dispatch (ok : Bool) (fd : ℕ) (e : Event)

namespace Op

def fd : Op → ℕ
  | postCoro _ fd _ => fd
  | subscribe _ fd _ => fd
  | unsubscribe _ fd => fd
  | dispatch _ fd _ => fd

/-- The descriptor of the operation's own `scheduler::adjust_size_` call. -/
def schedulerFd : Op → Option ℕ
  | postCoro _ fd _ => some fd
  | _ => none

def subscribeWith (ok : Bool) (fd : ℕ) (e : Event) (s : Scheduler) : Option Scheduler :=
  ((s.poller.subscribe ok fd e).map fun poller => { s with poller := poller }).state?

/-- The state an operation leaves, also by an exception; an index out of
range leaves none. -/
def run : Op → Scheduler → Option Scheduler
  | postCoro ok fd node, s => (s.postCoro ok fd node).state?
  | subscribe ok fd e, s => subscribeWith ok fd e s
  | unsubscribe ok fd, s => subscribeWith ok fd Event.none s
  | dispatch ok fd e, s => subscribeWith ok fd e s

/-- What is promised of an operation that leads from `s` to `s'`. -/
structure Fits (op : Op) (s s' : Scheduler) : Prop where
  focus_room : op.fd < s'.poller.focus.length
  evs_room : op.fd < s'.poller.evs.length
  nodes_room : ∀ fd, op.schedulerFd = some fd → fd < s'.descriptorNodes.length
  poller_grows : s.poller.focus.length ≤ s'.poller.focus.length ∧
    s.poller.evs.length ≤ s'.poller.evs.length
  nodes_grow : s.descriptorNodes.length ≤ s'.descriptorNodes.length

end Op

/-- Every operation of a sequence stays in range after its `adjust_size_`. -/
def InRange : List Op → Scheduler → Prop
  | [], _ => True
  | op :: rest, s => ∃ s', op.run s = some s' ∧ op.Fits s s' ∧ InRange rest s'

theorem length_focus_adjustSize (p : Poller) (fd : ℕ) :
    (p.adjustSize fd).focus.length = grow p.focus.length fd := Poller.length_adjustSize p fd

theorem length_nodes_adjustSize (s : Scheduler) (fd : ℕ) :
    (s.adjustSize fd).descriptorNodes.length = grow s.descriptorNodes.length fd :=
  Scheduler.length_adjustSize s fd

/-- A subscription leaves a state exactly if its own call has made room. -/
theorem subscribe_state? (p : Poller) (ok : Bool) {fd : ℕ} (hpos : 0 < fd) (e : Event) :
    if fd < grow p.focus.length fd then
      ∃ q, (p.subscribe ok fd e).state? = some q ∧ q.focus.length = grow p.focus.length fd
    else (p.subscribe ok fd e).state? = none := by
  rw [← length_focus_adjustSize]
  simp only [Poller.subscribe, hpos, if_true]
  split
  · rename_i hlt
    rw [List.getElem?_eq_getElem hlt]
    simp only
    split
    · exact ⟨_, rfl, rfl⟩
    · exact ⟨_, rfl, by simp only [Poller.setFocus, List.length_set]⟩
  · rename_i hlt
    rw [List.getElem?_eq_none_iff.mpr (by omega)]
    rfl

namespace Op

def Room (op : Op) (s : Scheduler) : Prop :=
  op.fd < grow s.poller.focus.length op.fd ∧
    ∀ fd, op.schedulerFd = some fd → fd < grow s.descriptorNodes.length fd

def Grown (op : Op) (s s' : Scheduler) : Prop :=
  s'.poller.focus.length = grow s.poller.focus.length op.fd ∧
    s'.descriptorNodes.length =
      op.schedulerFd.elim s.descriptorNodes.length (grow s.descriptorNodes.length)

/-- An operation leaves a state exactly if there is room. -/
structure Exact (op : Op) (s : Scheduler) : Prop where
  grown : op.Room s → ∃ s', op.run s = some s' ∧ op.Grown s s'
  fault : ¬ op.Room s → op.run s = none

theorem exact_subscribeWith {op : Op} {s : Scheduler} {ok : Bool} {fd : ℕ} {e : Event}
    (hpos : 0 < fd) (hrun : op.run s = subscribeWith ok fd e s) (hfd : op.fd = fd)
    (hnone : op.schedulerFd = none) : op.Exact s := by
  have h := subscribe_state? s.poller ok hpos e
  have hroom : op.Room s ↔ fd < grow s.poller.focus.length fd := by
    simp [Room, hfd, hnone]
  rw [subscribeWith, Outcome.state?_map] at hrun
  constructor
  · intro hop
    rw [if_pos (hroom.mp hop)] at h
    obtain ⟨q, hq, hlength⟩ := h
    refine ⟨{ s with poller := q }, by rw [hrun, hq]; rfl, ?_, ?_⟩
    · rw [hfd]
      exact hlength
    · rw [hnone]
      rfl
  · intro hop
    rw [if_neg (fun hlt => hop (hroom.mpr hlt))] at h
    rw [hrun, h]
    rfl

theorem exact_postCoro (ok : Bool) {fd : ℕ} (hpos : 0 < fd) (node : DescriptorNode)
    (s : Scheduler) : (postCoro ok fd node).Exact s := by
  have h := subscribe_state? s.poller ok hpos (maskOf (s.nodesAt fd ++ [node]))
  have hroom : Room (.postCoro ok fd node) s ↔ fd < grow s.poller.focus.length fd ∧
      fd < (s.adjustSize fd).descriptorNodes.length := by
    simp [Room, Op.fd, schedulerFd, length_nodes_adjustSize]
  have hnodes : (s.withNode fd node).descriptorNodes.length =
      grow s.descriptorNodes.length fd := by
    simp only [Scheduler.withNode, Scheduler.setNodes, List.length_set, length_nodes_adjustSize]
  constructor
  · intro hop
    obtain ⟨hfocus, hlt⟩ := hroom.mp hop
    rw [if_pos hfocus] at h
    obtain ⟨q, hq, hlength⟩ := h
    rw [run, Scheduler.postCoro_eq hpos hlt]
    cases hcall : s.poller.subscribe ok fd (maskOf (s.nodesAt fd ++ [node])) with
    | returned poller =>
      rw [hcall] at hq
      obtain rfl := Option.some.inj hq
      exact ⟨_, rfl, hlength, hnodes⟩
    | thrown poller =>
      rw [hcall] at hq
      obtain rfl := Option.some.inj hq
      exact ⟨_, rfl, hlength, hnodes⟩
    | fault => simp [hcall, Outcome.state?] at hq
  · intro hop
    by_cases hlt : fd < (s.adjustSize fd).descriptorNodes.length
    · rw [if_neg (fun hfocus => hop (hroom.mpr ⟨hfocus, hlt⟩))] at h
      rw [run, Scheduler.postCoro_eq hpos hlt]
      cases hcall : s.poller.subscribe ok fd (maskOf (s.nodesAt fd ++ [node])) with
      | returned poller => simp [hcall, Outcome.state?] at h
      | thrown poller => simp [hcall, Outcome.state?] at h
      | fault => rfl
    · rw [run, Scheduler.postCoro_fault (fun hfd => hlt hfd.2)]
      rfl

theorem exact (op : Op) (s : Scheduler) (hpos : 0 < op.fd) : op.Exact s := by
  cases op with
  | postCoro ok fd node => exact exact_postCoro ok hpos node s
  | subscribe ok fd e => exact exact_subscribeWith hpos rfl rfl rfl
  | unsubscribe ok fd => exact exact_subscribeWith hpos rfl rfl rfl
  | dispatch ok fd e => exact exact_subscribeWith hpos rfl rfl rfl

theorem fits_of_grown {op : Op} {s s' : Scheduler} (hroom : op.Room s) (h : op.Grown s s') :
    op.Fits s s' := by
  obtain ⟨hfocus, hnodes⟩ := h
  have hle := le_grow s.poller.focus.length op.fd
  refine ⟨by rw [hfocus]; exact hroom.1, by rw [s'.poller.sizes_eq, hfocus]; exact hroom.1,
    ?_, ⟨by omega, by rw [s'.poller.sizes_eq, s.poller.sizes_eq]; omega⟩, ?_⟩
  · intro fd hfd
    rw [hnodes, hfd]
    exact hroom.2 fd hfd
  · rw [hnodes]
    cases op.schedulerFd with
    | none => exact le_refl _
    | some fd => exact le_grow _ _

end Op

/-- The vectors have the sizes that earlier operations leave, on the
descriptors `before` for the poller and `posted` for the scheduler. -/
def SizedBy (before posted : List ℕ) (s : Scheduler) : Prop :=
  s.poller.focus.length = sizeAfter before ∧ s.descriptorNodes.length = sizeAfter posted

/-- The posts that an operation adds to those before it. -/
def Op.postedAfter (op : Op) (posted : List ℕ) : List ℕ :=
  op.schedulerFd.elim posted fun fd => posted ++ [fd]

theorem SizedBy.after {op : Op} {s s' : Scheduler} {before posted : List ℕ}
    (hs : SizedBy before posted s) (h : op.Grown s s') :
    SizedBy (before ++ [op.fd]) (op.postedAfter posted) s' := by
  constructor
  · rw [h.1, hs.1, sizeAfter_snoc]
  · rw [h.2, hs.2, Op.postedAfter]
    cases op.schedulerFd with
    | none => rfl
    | some fd => exact (sizeAfter_snoc posted fd).symm

theorem coveredFrom_posts (op : Op) (rest : List Op) (posted : List ℕ) :
    CoveredFrom posted ((op :: rest).filterMap Op.schedulerFd) ↔
      (∀ fd, op.schedulerFd = some fd →
        (∃ k, fd = 2 ^ k) → ∃ larger ∈ posted, fd < larger) ∧
        CoveredFrom (op.postedAfter posted) (rest.filterMap Op.schedulerFd) := by
  cases hfd : op.schedulerFd <;> simp [hfd, CoveredFrom, Op.postedAfter]

theorem inRange_iff_coveredFrom {ops : List Op} {s : Scheduler} {before posted : List ℕ}
    (hpos : ∀ op ∈ ops, 0 < op.fd) (hs : SizedBy before posted s) :
    InRange ops s ↔ CoveredFrom before (ops.map Op.fd) ∧
      CoveredFrom posted (ops.filterMap Op.schedulerFd) := by
  induction ops generalizing s before posted with
  | nil => simp [InRange, CoveredFrom]
  | cons op rest ih =>
    have hexact := op.exact s (hpos op (List.mem_cons_self ..))
    have hroom : op.Room s ↔ ((∃ k, op.fd = 2 ^ k) → ∃ larger ∈ before, op.fd < larger) ∧
        ∀ fd, op.schedulerFd = some fd → (∃ k, fd = 2 ^ k) → ∃ larger ∈ posted, fd < larger := by
      simp only [Op.Room, hs.1, hs.2, lt_grow_sizeAfter_iff]
    rw [coveredFrom_posts, List.map_cons]
    by_cases hop : op.Room s
    · obtain ⟨s', hs', hgrown⟩ := hexact.grown hop
      have hih := ih (fun o ho => hpos o (List.mem_cons_of_mem op ho)) (hs.after hgrown)
      have hfits := Op.fits_of_grown hop hgrown
      obtain ⟨hcover, hcover'⟩ := hroom.mp hop
      constructor
      · intro hrange
        obtain ⟨u, hu, -, hrest⟩ := hrange
        obtain rfl : s' = u := Option.some.inj (hs'.symm.trans hu)
        exact ⟨⟨hcover, (hih.mp hrest).1⟩, hcover', (hih.mp hrest).2⟩
      · intro hall
        obtain ⟨⟨-, hrest⟩, -, hrest'⟩ := hall
        exact ⟨s', hs', hfits, hih.mpr ⟨hrest, hrest'⟩⟩
    · constructor
      · intro hrange
        obtain ⟨u, hu, -, -⟩ := hrange
        rw [hexact.fault hop] at hu
        cases hu
      · intro hall
        obtain ⟨⟨hcover, -⟩, hcover', -⟩ := hall
        exact absurd (hroom.mpr ⟨hcover, hcover'⟩) hop

/-- A sequence of operations stays in range exactly if each descriptor that is
a power of two comes after a larger one: among all operations for the poller,
and among the posts for the scheduler. -/
theorem inRange_iff_covered (ops : List Op) (hpos : ∀ op ∈ ops, 0 < op.fd) :
    InRange ops Scheduler.empty ↔
      Covered (ops.map Op.fd) ∧ Covered (ops.filterMap Op.schedulerFd) :=
  inRange_iff_coveredFrom hpos ⟨rfl, rfl⟩

def sampleNode : DescriptorNode := ⟨Event.read, ⟨0, none⟩, .handle 0⟩

theorem inRange_iff_covered_sample :
    (∀ op ∈ [Op.postCoro true 5 sampleNode, .postCoro true 4 sampleNode], 0 < op.fd) ∧
      (InRange [.postCoro true 5 sampleNode, .postCoro true 4 sampleNode] Scheduler.empty ↔
        Covered [5, 4] ∧ Covered [5, 4]) :=
  ⟨by simp [Op.fd], inRange_iff_covered _ (by simp [Op.fd])⟩

/-- The first waiter of a program on descriptor 4: four slots, the last is 3. -/
theorem power_of_two_out_of_range :
    ¬ ∀ ops : List Op, (∀ op ∈ ops, 0 < op.fd) → InRange ops Scheduler.empty := by
  intro h
  obtain ⟨s, hs, -⟩ := h [.postCoro true 4 sampleNode] (by simp [Op.fd])
  have hnone : (Scheduler.empty.postCoro true 4 sampleNode).state? = none := by decide +kernel
  exact absurd (hs.symm.trans hnone) (by simp)

end Bc.VectorSizes
