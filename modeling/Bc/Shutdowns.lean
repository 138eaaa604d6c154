import Bc.FlushWaiters
import Mathlib.Data.Finset.Card

/-!
The end of the worker. Once `stop_` is set nothing is admitted any more, and each
step of the worker's thread uses up some of what it has left to do; so the join of
the destructor comes to an end, and by then everything that was queued is written.
What was admitted before may still come to the shared vectors during the last drain.
-/
namespace Bc.Shutdowns

open OrderedMaps LogWorker LogDelivery FlushWaiters

/-- The steps from here to the end of the drain that are not made for a record, a
buffer or a waiter. -/
def ofDrainPc : DrainPc → ℕ
  | .record => 3
  | .format _ => 9
  | .pass _ => 5
  | .write => 2
  | .release _ => 4
  | .notify _ back => match back with
    | .records => 4
    | .buffers => 3
    | .waiters => 2
  | .flag => 1
  | .signal _ => 2

/-- A bound on the steps to the end of a drain. A record may make a buffer. -/
def ofDrain (d : Drain) : ℕ :=
  7 * d.logs.length + 3 * d.buffers.entries.length + 2 * d.waiters.length + ofDrainPc d.pc

/-- A bound on the steps of a stopped worker to its end, when the shared vectors are
empty. -/
def ofPc : Pc → ℕ
  | .head => 4
  | .locking => 10
  | .test => 9
  | .tested => 12
  | .asleep => 11
  | .expired => 9
  | .ready => 8
  | .drain d => ofDrain d + if d.last then 0 else 4
  | .ended => 0

/-- The calls of `append` that are past the assertion and have not queued their
record. -/
def isAdmitted : Append → Bool
  | .admitted _ => true
  | _ => false

/-- The calls of `flush` that are past the assertion and have not entered. -/
def admittedFlushes (s : State) : Finset ℕ :=
  (Finset.range s.flushCount).filter fun id => (s.flushes id).pc = .admitted

/-- A bound on the steps that a stopped worker has left, with what the callers may
still queue. -/
def left (s : State) : ℕ :=
  ofPc s.worker + 7 * (s.logs.length + s.appends.countP isAdmitted) +
    2 * (s.waiters.length + (admittedFlushes s).card)

def ofWorker : Act → Bool
  | .work => true
  | .wakeWorker _ => true
  | _ => false

theorem insertWith_length_le {κ β : Type*} [LinearOrder κ] (fresh : β) (key : κ) (f : β → β)
    (entries : List (κ × β)) :
    (insertWith fresh key f entries).length ≤ entries.length + 1 := by
  induction entries with
  | nil => exact le_rfl
  | cons entry rest ih =>
    unfold insertWith
    split_ifs <;> simp only [List.length_cons] <;> omega

section Steps

variable {c : Config} {s s' : State} {d : Drain}

theorem ofPc_drainAt (s : State) (d : Drain) :
    ofPc (s.drainAt d).worker = ofDrain d + if d.last then 0 else 4 := rfl

theorem drain_left (hstep : DrainStep c s d s') :
    ofPc s'.worker + 1 ≤ ofDrain d + if d.last then 0 else 4 := by
  cases hstep with
  | recordsEnd hpc hlogs =>
    simp only [ofPc_drainAt, ofDrain, hpc, ofDrainPc]
    omega
  | newRecord e rest hpc hlogs hnew =>
    simp only [ofPc_drainAt, ofDrain, hpc, hlogs, ofDrainPc, List.length_cons]
    omega
  | knownRecord e rest hpc hlogs hknown =>
    simp only [ofPc_drainAt, ofDrain, hpc, hlogs, ofDrainPc, List.length_cons]
    omega
  | format e hpc =>
    have hlength := insertWith_length_le default e.logger (fun chunk : Chunk =>
      ⟨chunk.text ++ c.line e.logger e.record, chunk.records ++ [e.record]⟩) d.buffers.entries
    simp only [ofPc_drainAt, ofDrain, hpc, ofDrainPc, OrderedMap.modify]
    omega
  | pass e hpc =>
    obtain ⟨pc, hs', hnext⟩ := s.unreference_cases d e.logger .records
    rw [hs']
    rcases hnext with rfl | rfl <;>
      simp only [ofPc_drainAt, ofDrain, hpc, ofDrainPc, Loop.head] <;> omega
  | writesEnd hpc hbuffers =>
    simp only [ofPc_drainAt, ofDrain, hpc, ofDrainPc]
    omega
  | write l chunk hpc hfirst =>
    have hsome : d.buffers.entries ≠ [] := by
      intro hnil
      have hkey := (hfirst.mem_keys l).mpr (Or.inl rfl)
      rw [OrderedMap.keys, hnil] at hkey
      cases hkey
    have hlength := List.length_pos_iff.mpr hsome
    simp only [ofPc_drainAt, ofDrain, hpc, ofDrainPc, OrderedMap.tail, List.length_tail]
    omega
  | release l hpc =>
    obtain ⟨pc, hs', hnext⟩ := s.unreference_cases d l .buffers
    rw [hs']
    rcases hnext with rfl | rfl <;>
      simp only [ofPc_drainAt, ofDrain, hpc, ofDrainPc, Loop.head] <;> omega
  | notify l back hpc =>
    cases back <;> simp only [ofPc_drainAt, ofDrain, hpc, ofDrainPc, Loop.head] <;> omega
  | flagsEnd hpc hwaiters =>
    cases hlast : d.last <;> simp [ofDrain, hpc, ofDrainPc, ofPc]
  | flag id rest hpc hwaiters =>
    simp only [ofPc_drainAt, ofDrain, hpc, hwaiters, ofDrainPc, List.length_cons]
    omega
  | signal id hpc =>
    simp only [ofPc_drainAt, ofDrain, hpc, ofDrainPc]
    omega

theorem admittedFlushes_congr (hcount : s'.flushCount = s.flushCount)
    (hpc : ∀ id, (s'.flushes id).pc = .admitted ↔ (s.flushes id).pc = .admitted) :
    admittedFlushes s' = admittedFlushes s := by
  rw [admittedFlushes, admittedFlushes, hcount]
  exact Finset.filter_congr fun id _ => hpc id

theorem setFlushPc_admitted {id : ℕ} {pc : FlushPc} (hold : (s.flushes id).pc ≠ .admitted)
    (hnew : pc ≠ .admitted) : admittedFlushes (s.setFlushPc id pc) = admittedFlushes s := by
  refine admittedFlushes_congr rfl fun k => ?_
  rw [State.setFlushPc, State.modifyFlush_flushes]
  split
  · rename_i heq
    rw [heq]
    exact iff_of_false hnew hold
  · rfl

/-- What is done to a flag leaves the call of `flush` where it is. -/
theorem modifyFlush_admitted (id : ℕ) {f : Flush → Flush} (hf : ∀ x, (f x).pc = x.pc) :
    admittedFlushes (s.modifyFlush id f) = admittedFlushes s := by
  refine admittedFlushes_congr rfl fun k => ?_
  rw [State.modifyFlush_flushes]
  split
  · rw [hf]
  · rfl

theorem drain_keeps (hstep : DrainStep c s d s') :
    s'.appends = s.appends ∧ s'.logs = s.logs ∧ s'.waiters = s.waiters ∧
      admittedFlushes s' = admittedFlushes s := by
  cases hstep with
  | recordsEnd | newRecord | knownRecord | format | pass | writesEnd | write | release | notify
  | flagsEnd => exact ⟨rfl, rfl, rfl, rfl⟩
  | flag id =>
    have hflushes := modifyFlush_admitted (s := s) id
      (f := fun x => { x with flushed := true, signalled := false, heard := false }) fun _ => rfl
    exact ⟨rfl, rfl, rfl, hflushes⟩
  | signal id =>
    have hflushes := modifyFlush_admitted (s := s) id
      (f := fun x => { x with signalled := true }) fun _ => rfl
    exact ⟨rfl, rfl, rfl, hflushes⟩

theorem work_left (hstop : s.owner ≠ .running) (h : WorkStep c s s') : left s' + 1 ≤ left s := by
  cases h with
  | headGo hpc hrun => exact absurd hrun hstop
  | testNone hpc hlogs hrun => exact absurd hrun hstop
  | headStop hpc | swap hpc =>
    have htaken : ∀ d, left ({ s with logs := [], waiters := [] }.drainAt d) =
        ofPc (.drain d) + 7 * (0 + s.appends.countP isAdmitted) +
          2 * (0 + (admittedFlushes s).card) := fun _ => rfl
    rw [htaken, left, hpc]
    simp only [ofPc, ofDrain, ofDrainPc, OrderedMap.empty, List.length_nil, if_true,
      Bool.false_eq_true, if_false]
    omega
  | lock hpc | testReady hpc | sleep hpc | expired hpc =>
    have hsame : ∀ pc, admittedFlushes { s with worker := pc } = admittedFlushes s := fun _ => rfl
    simp only [left, hsame, hpc, ofPc]
    omega
  | drain d _ hpc hstep =>
    have hless := drain_left hstep
    obtain ⟨happends, hlogs, hwaiters, hflushes⟩ := drain_keeps hstep
    have hworker : ofPc s.worker = ofDrain d + if d.last then 0 else 4 := by
      rw [hpc]
      rfl
    rw [left, left, happends, hlogs, hwaiters, hflushes, hworker]
    omega

theorem notified_left {woken : Option Sleeper} (h : Notified s woken s') : left s' ≤ left s := by
  have hheard : admittedFlushes s.notified = admittedFlushes s :=
    admittedFlushes_congr rfl fun _ => Iff.rfl
  cases h with
  | worker hpc =>
    have hwoken : left { s.notified with worker := .locking } =
        10 + 7 * (s.logs.length + s.appends.countP isAdmitted) +
          2 * (s.waiters.length + (admittedFlushes s.notified).card) := rfl
    rw [hwoken, hheard, left, hpc, ofPc]
    omega
  | flush id hpc =>
    have hsame : admittedFlushes (s.notified.setFlushPc id .testing) = admittedFlushes s := by
      rw [setFlushPc_admitted _ (by simp), hheard]
      rw [show (s.notified.flushes id).pc = .asleep from hpc]
      simp
    rw [left, hsame]
    exact le_rfl
  | nobody =>
    rw [left, hheard]
    exact le_rfl

theorem register_admitted {id : ℕ} (hs : Enrolled s) (hpc : (s.flushes id).pc = .admitted) :
    (admittedFlushes (s.setFlushPc id .registered)).card + 1 = (admittedFlushes s).card := by
  have hlt : id < s.flushCount := by
    by_contra hge
    rw [hs.fresh id (not_lt.mp hge)] at hpc
    cases hpc
  have hmem : id ∈ admittedFlushes s := by simp [admittedFlushes, hlt, hpc]
  have herase : admittedFlushes (s.setFlushPc id .registered) = (admittedFlushes s).erase id := by
    ext k
    simp only [admittedFlushes, State.setFlushPc, Finset.mem_erase, Finset.mem_filter,
      Finset.mem_range, State.modifyFlush_flushes]
    by_cases hk : k = id
    · simp [hk]
    · simp [hk, State.modifyFlush]
  rw [herase, Finset.card_erase_add_one hmem]

theorem countP_of_get {i : ℕ} {call : Append} (hget : s.appends[i]? = some call) :
    s.appends.countP isAdmitted =
      (s.appends.eraseIdx i).countP isAdmitted + (isAdmitted call).toNat := by
  rw [(perm_cons_eraseIdx hget).countP_eq, List.countP_cons]
  cases isAdmitted call <;> rfl

/-- No step of another thread adds to what a stopped worker has left, and each of its
own uses some of it up. -/
theorem step_left {a : Act} (hs : Enrolled s) (hstop : s.owner ≠ .running)
    (h : step c s a = some s') : left s' + (ofWorker a).toNat ≤ left s := by
  have hflush : ∀ {t : State} {id : ℕ} {pc : FlushPc}, (t.flushes id).pc ≠ .admitted →
      pc ≠ .admitted → left (t.setFlushPc id pc) = left t := by
    intro t id pc hold hnew
    rw [left, setFlushPc_admitted hold hnew]
    rfl
  cases step_cases h with
  | logBelow | setLevel => exact le_rfl
  | log l r =>
    have hcounted : left { s.modifyLogger l Logger.reference with
        appends := .counted ⟨l, { r with topic := c.topic l }⟩ :: s.appends } =
        ofPc s.worker + 7 * (s.logs.length + (s.appends.countP isAdmitted + 0)) +
          2 * (s.waiters.length + (admittedFlushes s).card) := rfl
    rw [hcounted]
    exact le_rfl
  | checkStop i e hget hrun => exact absurd hrun hstop
  | push i e hget =>
    -- The call stops counting, and its record counts instead.
    have hcount := countP_of_get hget
    have hpushed : ∀ flag : Bool, left { s.modifyLogger e.logger (Logger.enter e.record) with
        appends := .pushed e flag :: s.appends.eraseIdx i
        logs := s.logs ++ [e] } =
        ofPc s.worker +
          7 * ((s.logs ++ [e]).length + ((s.appends.eraseIdx i).countP isAdmitted + 0)) +
          2 * (s.waiters.length + (admittedFlushes s).card) := fun _ => rfl
    rw [hpushed, left, hcount, List.length_append]
    simp only [isAdmitted, ofWorker, Bool.toNat_true, Bool.toNat_false, List.length_singleton]
    omega
  | leave i woken e needFlush u hget hnotify =>
    have hu : u.appends = s.appends ∧ left u ≤ left s := by
      cases needFlush with
      | true => exact ⟨(Notified.sameRecords hnotify).appends, notified_left hnotify⟩
      | false =>
        obtain rfl : u = s := hnotify
        exact ⟨rfl, le_rfl⟩
    rw [← hu.1] at hget
    have hcount := countP_of_get hget
    have hleft : left { u.modifyLogger e.logger (Logger.leave e.record) with
        appends := u.appends.eraseIdx i } =
        ofPc u.worker + 7 * (u.logs.length + (u.appends.eraseIdx i).countP isAdmitted) +
          2 * (u.waiters.length + (admittedFlushes u).card) := rfl
    refine le_trans ?_ hu.2
    rw [hleft, left, hcount]
    simp only [isAdmitted, ofWorker, Bool.toNat_false]
    omega
  | flush hrun => exact absurd hrun hstop
  | register id hpc =>
    have hcard := register_admitted hs hpc
    have hleft : left { s.setFlushPc id .registered with waiters := s.waiters ++ [id] } =
        ofPc s.worker + 7 * (s.logs.length + s.appends.countP isAdmitted) +
          2 * ((s.waiters ++ [id]).length + (admittedFlushes (s.setFlushPc id .registered)).card) :=
      rfl
    rw [hleft, left, List.length_append]
    simp only [ofWorker, Bool.toNat_false, List.length_singleton]
    omega
  | notify id woken u hpc hnotify =>
    have hregistered : (u.flushes id).pc ≠ .admitted := by
      rw [notified_pc hnotify id (by simp [hpc]), hpc]
      simp
    rw [hflush hregistered (by simp)]
    exact notified_left hnotify
  | flagSet id hpc => exact (hflush (by simp [hpc]) (by simp)).le
  | flagUnset id hpc => exact (hflush (by simp [hpc]) (by simp)).le
  | sleep id hpc => exact (hflush (by simp [hpc]) (by simp)).le
  | wake id hpc => exact (hflush (by simp [hpc]) (by simp)).le
  | stop hrun => exact absurd hrun hstop
  | notifyStop woken u howner hnotify =>
    have hless := notified_left hnotify
    exact hless
  | wakeWorker timeout hpc =>
    have hleft : ∀ pc, left { s with worker := pc } =
        ofPc pc + 7 * (s.logs.length + s.appends.countP isAdmitted) +
          2 * (s.waiters.length + (admittedFlushes s).card) := fun _ => rfl
    rw [hleft, left, hpc]
    cases timeout <;> simp only [ofPc, ofWorker, Bool.toNat_true, if_true, Bool.false_eq_true,
      if_false] <;> omega
  | work _ hwork => exact work_left hstop hwork

theorem step_stopped {a : Act} (hstop : s.owner ≠ .running) (h : step c s a = some s') :
    s'.owner ≠ .running := by
  cases step_cases h with
  | logBelow | log | setLevel | checkStop | push | flush | register | flagSet | flagUnset | sleep
  | wake | wakeWorker => exact hstop
  | stop | notifyStop => simp
  | leave i woken e needFlush u hget hnotify =>
    cases needFlush with
    | true => cases hnotify <;> exact hstop
    | false =>
      obtain rfl : u = s := hnotify
      exact hstop
  | notify id woken u hpc hnotify => cases hnotify <;> exact hstop
  | work _ hwork =>
    cases hwork with
    | headStop | headGo | lock | testReady | testNone | sleep | expired | swap => exact hstop
    | drain d _ hpc hstep => cases hstep <;> exact hstop

/-- Nothing that another thread holds keeps the worker from going on. -/
theorem worker_progress (hended : s.worker ≠ .ended) :
    ∃ a s', ofWorker a = true ∧ step c s a = some s' := by
  have hwork : s.worker ≠ .asleep → ∃ s', step c s .work = some s' := by
    intro hawake
    cases hpc : s.worker with
    | asleep => exact absurd hpc hawake
    | ended => exact absurd hpc hended
    | head =>
      simp only [step, State.work, hpc]
      split <;> exact ⟨_, rfl⟩
    | locking | test | tested | expired | ready | drain d =>
      simp only [step, State.work, hpc]
      exact ⟨_, rfl⟩
  by_cases hasleep : s.worker = .asleep
  · refine ⟨.wakeWorker true, { s with worker := .expired }, rfl, ?_⟩
    simp [step, hasleep, Pc.sleeps]
  · obtain ⟨s', hstep⟩ := hwork hasleep
    exact ⟨.work, s', rfl, hstep⟩

/-- Only the end of the loop leads to the last drain. -/
theorem unguarded_of_step {a : Act} (h : step c s a = some s')
    (hunguarded : s'.worker.unguarded = true) :
    s.worker.unguarded = true ∨ a = .work ∧ s.worker = .head ∧ s.owner ≠ .running := by
  cases step_cases h with
  | logBelow | setLevel | log | checkStop | push | flush | register | flagSet | flagUnset | sleep
  | wake | stop => exact .inl hunguarded
  | leave i woken e needFlush u hget hnotify =>
    exact .inl ((sameRecords_of_leave hnotify).unguarded.symm.trans hunguarded)
  | notify id woken u hpc hnotify | notifyStop woken u hpc hnotify =>
    exact .inl (hnotify.sameRecords.unguarded.symm.trans hunguarded)
  | wakeWorker timeout hpc => cases timeout <;> cases hunguarded
  | work _ hwork =>
    cases hwork with
    | headStop hpc hstop => exact .inr ⟨rfl, hpc, hstop⟩
    | headGo | lock | testReady | testNone | sleep | expired | swap => cases hunguarded
    | drain d _ hpc hdrain =>
      refine .inl ?_
      rw [hpc]
      cases hdrain with
      | flagsEnd =>
        cases hlast : d.last with
        | true => exact hlast
        | false =>
          rw [hlast] at hunguarded
          cases hunguarded
      | recordsEnd | newRecord | knownRecord | format | pass | writesEnd | write | release
      | notify | flag | signal => exact hunguarded

theorem work_of_stopped (hhead : s.worker = .head) (hstop : s.owner ≠ .running)
    (h : step c s .work = some s') :
    s' = { s with logs := [], waiters := [] }.drainAt
      ⟨true, s.logs, s.waiters, OrderedMap.empty, .record⟩ := by
  have hset : s.stop = true := decide_eq_true hstop
  simp only [step, State.work, hhead, hset, if_true, Option.some.injEq] at h
  exact h.symm

theorem notified_keeps {woken : Option Sleeper} (h : Notified s woken s') :
    s'.appends = s.appends ∧ s'.waiters = s.waiters ∧ admittedFlushes s' = admittedFlushes s := by
  have hheard : admittedFlushes s.notified = admittedFlushes s :=
    admittedFlushes_congr rfl fun _ => Iff.rfl
  cases h with
  | worker | nobody => exact ⟨rfl, rfl, hheard⟩
  | flush id hpc =>
    have hasleep : (s.notified.flushes id).pc = .asleep := hpc
    exact ⟨rfl, rfl, (setFlushPc_admitted (by simp [hasleep]) (by simp)).trans hheard⟩

theorem leave_keeps {woken : Option Sleeper} {needFlush : Bool}
    (h : if needFlush then Notified s woken s' else s' = s) :
    s'.appends = s.appends ∧ s'.waiters = s.waiters ∧ admittedFlushes s' = admittedFlushes s := by
  cases needFlush with
  | true => exact notified_keeps h
  | false =>
    obtain rfl : s' = s := h
    exact ⟨rfl, rfl, rfl⟩

/-- Who enters after the last drain has begun is not among the waiters. -/
def NoneLeft (s : State) : Prop := s.worker.unguarded = true → s.waiters = []

theorem step_noneLeft {a : Act} (hs : NoneLeft s) (h : step c s a = some s') : NoneLeft s' := by
  intro hunguarded
  rcases unguarded_of_step h hunguarded with hbefore | ⟨rfl, hhead, hstop⟩
  · have hnone := hs hbefore
    cases step_cases h with
    | logBelow | log | setLevel | checkStop | push | flush | flagSet | flagUnset | sleep | wake
    | stop | wakeWorker => exact hnone
    | register id hpc hmutex hguarded =>
      rw [hguarded] at hbefore
      cases hbefore
    | leave i woken e needFlush u hget hnotify => exact (leave_keeps hnotify).2.1.trans hnone
    | notify id woken u hpc hnotify | notifyStop woken u hpc hnotify =>
      exact (notified_keeps hnotify).2.1.trans hnone
    | work _ hwork =>
      cases hwork with
      | headStop | swap => rfl
      | headGo | lock | testReady | testNone | sleep | expired => exact hnone
      | drain d _ hpc hdrain => exact (drain_keeps hdrain).2.2.1.trans hnone
  · rw [work_of_stopped hhead hstop h]
    rfl

end Steps

section Races

variable {c : Config} {s s' : State}

/-- No call is past its assertion without having used the shared vectors. -/
def Quiet (s : State) : Prop := s.appends.countP isAdmitted = 0 ∧ admittedFlushes s = ∅

instance (s : State) : Decidable (Quiet s) := inferInstanceAs (Decidable (_ ∧ _))

/-- A call goes on to use the shared vectors, under `mutex_`, while the last drain walks
them without it, or after the worker's end. -/
def Racing (s : State) : Prop := s.worker.unguarded = true ∧ ¬Quiet s

/-- The loop is left when every call that has passed its assertion has used the shared
vectors. -/
def EndsQuietly (s : State) (a : Act) : Prop :=
  a = .work → s.worker = .head → s.owner ≠ .running → Quiet s

instance (s : State) (a : Act) : Decidable (EndsQuietly s a) :=
  inferInstanceAs (Decidable (_ → _ → _ → _))

theorem Quiet.same (h : Quiet s) (happends : s'.appends = s.appends)
    (hflushes : admittedFlushes s' = admittedFlushes s) : Quiet s' := by
  rw [Quiet, happends, hflushes]
  exact h

/-- Once `stop_` is set, no call passes its assertion. -/
theorem step_quiet {a : Act} (henrolled : Enrolled s) (hstop : s.owner ≠ .running) (hs : Quiet s)
    (h : step c s a = some s') : Quiet s' := by
  cases step_cases h with
  | logBelow | setLevel | stop | wakeWorker => exact hs
  | log l r => exact hs
  | checkStop i e hget hrun => exact absurd hrun hstop
  | push i e hget =>
    have hcount := countP_of_get hget
    rw [hs.1] at hcount
    simp [isAdmitted] at hcount
  | leave i woken e needFlush u hget hnotify =>
    obtain ⟨happends, -, hflushes⟩ := leave_keeps hnotify
    rw [← happends] at hget
    have hcount := countP_of_get hget
    rw [happends, hs.1] at hcount
    refine ⟨?_, hflushes.trans hs.2⟩
    rw [← happends] at hcount
    exact (Nat.add_eq_zero_iff.mp hcount.symm).1
  | flush hrun => exact absurd hrun hstop
  | register id hpc =>
    have hcard := register_admitted henrolled hpc
    rw [hs.2] at hcard
    cases hcard
  | notify id woken u hpc hnotify =>
    obtain ⟨happends, -, hflushes⟩ := notified_keeps hnotify
    have hregistered : (u.flushes id).pc ≠ .admitted := by
      rw [notified_pc hnotify id (by simp [hpc]), hpc]
      simp
    exact hs.same happends ((setFlushPc_admitted hregistered (by simp)).trans hflushes)
  | flagSet id hpc | flagUnset id hpc | sleep id hpc | wake id hpc =>
    exact hs.same rfl (setFlushPc_admitted (by simp [hpc]) (by simp))
  | notifyStop woken u howner hnotify =>
    obtain ⟨happends, -, hflushes⟩ := notified_keeps hnotify
    exact hs.same happends hflushes
  | work _ hwork =>
    cases hwork with
    | headStop | headGo | lock | testReady | testNone | sleep | expired | swap => exact hs
    | drain d _ hpc hdrain =>
      obtain ⟨happends, -, -, hflushes⟩ := drain_keeps hdrain
      exact hs.same happends hflushes

/-- The last drain begins after `stop_` is set. -/
def StopsFirst (s : State) : Prop := s.worker.unguarded = true → s.owner ≠ .running

theorem step_stopsFirst {a : Act} (hs : StopsFirst s) (h : step c s a = some s') :
    StopsFirst s' := by
  intro hunguarded
  rcases unguarded_of_step h hunguarded with hbefore | ⟨-, -, hstop⟩
  · exact step_stopped (hs hbefore) h
  · exact step_stopped hstop h

theorem step_racing_iff {a : Act} (henrolled : Enrolled s) (hstop : StopsFirst s)
    (hs : ¬Racing s) (h : step c s a = some s') : ¬Racing s' ↔ EndsQuietly s a := by
  constructor
  · intro hnot ha hhead howner
    subst ha
    by_contra hquiet
    rw [work_of_stopped hhead howner h] at hnot
    exact hnot ⟨rfl, hquiet⟩
  · intro hends hracing
    refine hracing.2 ?_
    rcases unguarded_of_step h hracing.1 with hbefore | ⟨ha, hhead, howner⟩
    · have hquiet : Quiet s := by
        by_contra hnot
        exact hs ⟨hbefore, hnot⟩
      exact step_quiet henrolled (hstop hbefore) hquiet h
    · exact step_quiet henrolled howner (hends ha hhead howner) h

end Races

/-- After `stop_` is set the worker's thread takes at most `left` more steps, however
they interleave with those of the callers; until it has ended it can always take one,
so that its steps alone lead to the end. When it has ended, every record that was
queued has been written to the output of its logger, in order, and every call of
`flush` that has entered has its flag. A caller that was admitted before `stop_` and
comes to the vectors when the worker has left its loop has no step here. -/
theorem shutdown_completes {c : Config} {before after : List Act} {t s : State}
    (hbefore : Runs.exec (step c) init before = some t) (hstop : t.owner ≠ .running)
    (hafter : Runs.exec (step c) t after = some s) :
    after.countP ofWorker + left s ≤ left t ∧
      (∃ acts u, Runs.exec (step c) s acts = some u ∧ u.worker = .ended ∧
        (∀ a ∈ acts, ofWorker a = true) ∧ acts.length ≤ left s) ∧
      (s.worker = .ended →
        (∀ l, (s.loggers l).written = (s.loggers l).entered ∧
          (s.loggers l).output = (s.loggers l).entered.flatMap (c.line l)) ∧
        ∀ id, hasEntered (s.flushes id).pc = true → (s.flushes id).flushed = true) := by
  have hI : ∀ s a s', Enrolled s ∧ s.owner ≠ .running → step c s a = some s' →
      Enrolled s' ∧ s'.owner ≠ .running :=
    fun _ _ _ hs hstep => ⟨step_enrolled hs.1 hstep, step_stopped hs.2 hstep⟩
  have hless : ∀ s a s', Enrolled s ∧ s.owner ≠ .running → step c s a = some s' →
      left s' + (ofWorker a).toNat ≤ left s :=
    fun _ _ _ hs hstep => step_left hs.1 hs.2 hstep
  have ht : Enrolled t ∧ t.owner ≠ .running := ⟨run_enrolled hbefore, hstop⟩
  have hs : Enrolled s ∧ s.owner ≠ .running := Runs.exec_preserves hI ht hafter
  refine ⟨Runs.exec_countP_le hI hless ht hafter, ?_, ?_⟩
  · exact Runs.exists_exec_of_progress hI hless (fun _ _ hended => worker_progress hended) hs
  · intro hended
    have hrun : Runs.exec (step c) init (before ++ after) = some s := by
      rw [Runs.exec_append, hbefore]
      exact hafter
    have hdelivering := run_delivering hrun
    have hwritten : ∀ l, (s.loggers l).written = (s.loggers l).entered :=
      fun l => (hdelivering.written l).2 hended
    refine ⟨fun l => ⟨hwritten l, ?_⟩, ?_⟩
    · rw [hdelivering.1.output l, hwritten l]
    · intro id hentered
      have hnone : NoneLeft s :=
        Runs.exec_preserves (fun _ _ _ hs hstep => step_noneLeft hs hstep) (fun _ => rfl) hrun
      have hledger := hs.1.ledger id
      rw [hentered, FlushWaiters.waiting, hnone (by rw [hended]; rfl), hended] at hledger
      simpa [Pc.current, Drain.idle] using hledger

def sampleBefore : List Act :=
  sampleCall 0 1 ++ [.flush, .register 0, .notify 0 none, .stop]

theorem shutdown_completes_sample : ∃ t s,
    Runs.exec (step sampleConfig) init sampleBefore = some t ∧ left t = 13 ∧
      Runs.exec (step sampleConfig) t (List.replicate 12 .work) = some s ∧
        s.worker = .ended ∧ (s.loggers 0).output = ['a', 'x', '\n'] ∧
          (s.flushes 0).flushed = true := by
  have hrun : ((Runs.exec (step sampleConfig) init sampleBefore).bind fun t =>
      (Runs.exec (step sampleConfig) t (List.replicate 12 .work)).map fun s =>
        (decide (t.owner ≠ .running), left t, s.worker, (s.loggers 0).output,
          hasEntered (s.flushes 0).pc)) =
      some (true, 13, .ended, ['a', 'x', '\n'], true) := by
    decide +kernel
  obtain ⟨t, ht, hrun'⟩ := Option.bind_eq_some_iff.mp hrun
  obtain ⟨s, hs, hvalues⟩ := Option.map_eq_some_iff.mp hrun'
  simp only [Prod.mk.injEq, decide_eq_true_eq] at hvalues
  obtain ⟨hstop, hleft, hended, houtput, hentered⟩ := hvalues
  obtain ⟨-, -, hend⟩ := shutdown_completes ht hstop hs
  exact ⟨t, s, ht, hleft, hs, hended, houtput, (hend hended).2 0 hentered⟩

/-- In every run no call uses the shared vectors while the last drain walks them without
the lock, or after it, exactly if, whenever the worker leaves its loop, no call is
between its assertion and its use of the vectors. -/
theorem vectors_left_alone_iff {c : Config} {acts : List Act} {s : State}
    (h : Runs.exec (step c) init acts = some s) :
    Runs.Throughout (step c) (fun s => ¬Racing s) init acts ↔
      Runs.Along (step c) EndsQuietly init acts := by
  refine Runs.throughout_iff_along (I := fun s => Enrolled s ∧ StopsFirst s) ?_ ?_ ?_ ?_ h
  · exact fun _ _ _ hs hstep => ⟨step_enrolled hs.1 hstep, step_stopsFirst hs.2 hstep⟩
  · exact fun _ _ _ hs hquiet hstep => step_racing_iff hs.1 hs.2 hquiet hstep
  · exact ⟨init_enrolled, fun hunguarded => by cases hunguarded⟩
  · exact fun hracing => by cases hracing.1

/-- A call of `append` is past its assertion when the worker leaves its loop. -/
def lateRun : List Act :=
  [.log 0 ⟨0, .error, "", 1, ⟨"", 0⟩, ""⟩, .checkStop 0, .stop, .work]

theorem vectors_left_alone_iff_sample :
    Runs.Throughout (step sampleConfig) (fun s => ¬Racing s) init
        (sampleBefore ++ List.replicate 12 .work) ∧
      ¬Runs.Throughout (step sampleConfig) (fun s => ¬Racing s) init lateRun := by
  have hprompt : (Runs.exec (step sampleConfig) init
      (sampleBefore ++ List.replicate 12 .work)).isSome = true := by
    decide +kernel
  have hlate : (Runs.exec (step sampleConfig) init lateRun).isSome = true := by
    decide +kernel
  obtain ⟨s, hs⟩ := Option.isSome_iff_exists.mp hprompt
  obtain ⟨t, ht⟩ := Option.isSome_iff_exists.mp hlate
  refine ⟨(vectors_left_alone_iff hs).mpr (by decide +kernel), fun hthroughout => ?_⟩
  exact absurd ((vectors_left_alone_iff ht).mp hthroughout) (by decide +kernel)

end Bc.Shutdowns
