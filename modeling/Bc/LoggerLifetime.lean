import Bc.LogReferences

/-!
The destruction of loggers while the worker still writes for them. `~logger`
reads `ref_`, first without a lock and then as the predicate of its wait; the
worker decrements `ref_` in one step and notifies in the next, and takes no
lock for either.
-/
namespace Bc.LoggerLifetime

open Runs OrderedMaps LogDelivery LogReferences
open LogWorker hiding State Act init step Step step_cases

/-- Where `~logger` is: about to read `ref_`, about to test the predicate of
the wait, about to sleep after it was false, blocked on `cv_`, or past the
wait. `holding` and `tested` have `mutex_`. -/
inductive Phase
  | alive
  | entered
  | holding
  | tested
  | asleep
  | leaving
  | destroyed
  deriving DecidableEq

structure State where
  log : LogWorker.State
  phase : ℕ → Phase

def init : State := { log := LogWorker.init, phase := fun _ => .alive }

def callee : Append → ℕ
  | .counted e => e.logger
  | .admitted e => e.logger
  | .pushed e _ => e.logger

def called : LogWorker.Act → Option ℕ
  | .log l _ => some l
  | .setLevel l _ => some l
  | _ => none

/-- The logger whose `cv_` the worker is about to notify. -/
def notifying (s : LogWorker.State) : Option ℕ :=
  match s.worker.current.pc with
  | .notify l _ => some l
  | _ => none

namespace State

def setPhase (s : State) (l : ℕ) (phase : Phase) : State :=
  { s with phase := Function.update s.phase l phase }

/-- `cv_.notify_one()` of a logger; its destructor is the only one who waits. -/
def wake (s : State) (l : ℕ) : State :=
  if s.phase l = .asleep then s.setPhase l .holding else s

end State

/-- `wake` is a spurious wake-up of `~logger`, and `leave` its return. -/
inductive Act
  | log (a : LogWorker.Act)
  | destroy (l : ℕ)
  | check (l : ℕ)
  | test (l : ℕ)
  | sleep (l : ℕ)
  | wake (l : ℕ)
  | leave (l : ℕ)
  deriving DecidableEq

/-- Calls are made of live loggers only, and a logger is destroyed after its
last call has returned. -/
def step (c : Config) (s : State) : Act → Option State
  | .log a =>
    if (called a).all fun l => s.phase l = .alive then
      (LogWorker.step c s.log a).map fun log =>
        let s' := match a, notifying s.log with
          | .work, some l => s.wake l
          | _, _ => s
        { s' with log := log }
    else none
  | .destroy l =>
    if s.phase l = .alive ∧ ∀ call ∈ s.log.appends, callee call ≠ l then
      some (s.setPhase l .entered)
    else none
  | .check l =>
    if s.phase l = .entered then
      some (s.setPhase l (if (s.log.loggers l).ref ≠ 0 then .holding else .leaving))
    else none
  | .test l =>
    if s.phase l = .holding then
      some (s.setPhase l (if (s.log.loggers l).ref = 0 then .leaving else .tested))
    else none
  | .sleep l => if s.phase l = .tested then some (s.setPhase l .asleep) else none
  | .wake l => if s.phase l = .asleep then some (s.setPhase l .holding) else none
  | .leave l => if s.phase l = .leaving then some (s.setPhase l .destroyed) else none

def touchedBy (d : Drain) : List ℕ :=
  match d.pc with
  | .record => (d.logs.head?.filter fun e => e.logger ∉ d.buffers.keys).toList.map Entry.logger
  | .format e => [e.logger]
  | .pass e => [e.logger]
  | .write => d.buffers.keys.head?.toList
  | .release l => [l]
  | .notify l _ => [l]
  | .flag => []
  | .signal _ => []

def touched (s : LogWorker.State) : List ℕ := touchedBy s.worker.current

section Inversion

variable {c : Config} {s s' : State}

inductive Step (c : Config) (s : State) : Act → State → Prop
  | log (a : LogWorker.Act) (log : LogWorker.State) (hstep : LogWorker.step c s.log a = some log)
      (halive : ∀ l, called a = some l → s.phase l = .alive)
      (hquiet : a = .work → notifying s.log = none) : Step c s (.log a) { s with log := log }
  | notified (l : ℕ) (log : LogWorker.State)
      (hstep : LogWorker.step c s.log .work = some log) (hpc : notifying s.log = some l) :
      Step c s (.log .work) { s.wake l with log := log }
  | destroy (l : ℕ) (hphase : s.phase l = .alive)
      (hcalls : ∀ call ∈ s.log.appends, callee call ≠ l) :
      Step c s (.destroy l) (s.setPhase l .entered)
  | checkWait (l : ℕ) (hphase : s.phase l = .entered) (href : (s.log.loggers l).ref ≠ 0) :
      Step c s (.check l) (s.setPhase l .holding)
  | checkDone (l : ℕ) (hphase : s.phase l = .entered) (href : (s.log.loggers l).ref = 0) :
      Step c s (.check l) (s.setPhase l .leaving)
  | testDone (l : ℕ) (hphase : s.phase l = .holding) (href : (s.log.loggers l).ref = 0) :
      Step c s (.test l) (s.setPhase l .leaving)
  | testWait (l : ℕ) (hphase : s.phase l = .holding) (href : (s.log.loggers l).ref ≠ 0) :
      Step c s (.test l) (s.setPhase l .tested)
  | sleep (l : ℕ) (hphase : s.phase l = .tested) : Step c s (.sleep l) (s.setPhase l .asleep)
  | wake (l : ℕ) (hphase : s.phase l = .asleep) : Step c s (.wake l) (s.setPhase l .holding)
  | leave (l : ℕ) (hphase : s.phase l = .leaving) : Step c s (.leave l) (s.setPhase l .destroyed)

theorem step_cases {a : Act} (h : step c s a = some s') : Step c s a s' := by
  cases a with
  | log a =>
    simp only [step, Option.ite_none_right_eq_some, Option.map_eq_some_iff] at h
    obtain ⟨halive, log, hstep, rfl⟩ := h
    have halive' : ∀ l, called a = some l → s.phase l = .alive := by
      intro l hl
      rw [hl] at halive
      simpa using halive
    cases a with
    | work =>
      cases hpc : notifying s.log with
      | none => exact .log .work log hstep halive' fun _ => hpc
      | some l => exact .notified l log hstep hpc
    | _ => exact .log _ log hstep halive' nofun
  | destroy l =>
    simp only [step, Option.ite_none_right_eq_some, Option.some.injEq] at h
    obtain ⟨⟨hphase, hcalls⟩, rfl⟩ := h
    exact .destroy l hphase hcalls
  | check l =>
    simp only [step, Option.ite_none_right_eq_some, Option.some.injEq] at h
    obtain ⟨hphase, rfl⟩ := h
    by_cases href : (s.log.loggers l).ref = 0
    · rw [if_neg (not_not.mpr href)]
      exact .checkDone l hphase href
    · rw [if_pos href]
      exact .checkWait l hphase href
  | test l =>
    simp only [step, Option.ite_none_right_eq_some, Option.some.injEq] at h
    obtain ⟨hphase, rfl⟩ := h
    by_cases href : (s.log.loggers l).ref = 0
    · rw [if_pos href]
      exact .testDone l hphase href
    · rw [if_neg href]
      exact .testWait l hphase href
  | sleep l =>
    simp only [step, Option.ite_none_right_eq_some, Option.some.injEq] at h
    obtain ⟨hphase, rfl⟩ := h
    exact .sleep l hphase
  | wake l =>
    simp only [step, Option.ite_none_right_eq_some, Option.some.injEq] at h
    obtain ⟨hphase, rfl⟩ := h
    exact .wake l hphase
  | leave l =>
    simp only [step, Option.ite_none_right_eq_some, Option.some.injEq] at h
    obtain ⟨hphase, rfl⟩ := h
    exact .leave l hphase

end Inversion

section References

variable {c : Config} {s s' : LogWorker.State} {d : Drain} {l : ℕ}

/-- How a counter can change: by a new call, or by the worker, which then goes
on to notify if it has made it zero. -/
inductive RefChange (s : LogWorker.State) (a : LogWorker.Act) (s' : LogWorker.State) (l : ℕ) :
    Prop
  | same (href : (s'.loggers l).ref = (s.loggers l).ref)
  | counted (hcalled : called a = some l)
  | worker (hwork : a = .work) (htouched : l ∈ touched s) (hquiet : notifying s = none)
      (hzero : (s'.loggers l).ref = 0 → notifying s' = some l)

/-- An `unreference_` that reaches zero goes on to the notification. -/
theorem unreference_ref (d : Drain) (k : ℕ) (back : Loop) (htouched : k ∈ touched s)
    (hquiet : notifying s = none) : RefChange s .work (s.unreference d k back) l := by
  by_cases hl : l = k
  · subst hl
    refine .worker rfl htouched hquiet ?_
    intro hzero
    have hzero' : ((s.modifyLogger l Logger.unreference).loggers l).ref = 0 := hzero
    simp only [LogWorker.State.unreference, hzero', if_true, notifying, State.drainAt, Pc.current]
  · refine .same ?_
    simp only [LogWorker.State.unreference, State.drainAt, State.modifyLogger_loggers, if_neg hl]

theorem drain_ref (h : Referenced s) (hworker : s.worker = .drain d)
    (hstep : DrainStep c s d s') : RefChange s .work s' l := by
  have hcurrent : s.worker.current = d := by rw [hworker]; rfl
  cases hstep with
  | newRecord e rest hpc hlogs hnew =>
    by_cases hl : l = e.logger
    · have htouched : l ∈ touched s := by
        simp [touched, touchedBy, hcurrent, hpc, hlogs, hnew, hl]
      refine .worker rfl htouched (by simp only [notifying, hcurrent, hpc]) ?_
      intro hzero
      have hcounted := h.counted l
      simp only [State.drainAt, State.modifyLogger_loggers, if_pos hl, Logger.reference] at hzero
      omega
    · refine .same ?_
      simp only [State.drainAt, State.modifyLogger_loggers, if_neg hl]
  | pass e hpc =>
    exact unreference_ref d e.logger .records
      (by simp only [touched, touchedBy, hcurrent, hpc, List.mem_singleton])
      (by simp only [notifying, hcurrent, hpc])
  | release k hpc =>
    exact unreference_ref d k .buffers
      (by simp only [touched, touchedBy, hcurrent, hpc, List.mem_singleton])
      (by simp only [notifying, hcurrent, hpc])
  | write k chunk hpc hfirst =>
    exact .same (s.modifyLogger_keep (f := Logger.write chunk) Logger.ref k (fun _ => rfl) l)
  | recordsEnd | knownRecord | format | writesEnd | notify | flagsEnd | flag | signal =>
    exact .same rfl

theorem step_ref {a : LogWorker.Act} (h : Referenced s) (ha : LogWorker.step c s a = some s') :
    RefChange s a s' l := by
  cases LogWorker.step_cases ha with
  | log k r hlevel =>
    by_cases hl : l = k
    · exact .counted (congrArg some hl.symm)
    · refine .same ?_
      simp only [State.modifyLogger, Function.update_of_ne hl]
  | setLevel k level =>
    exact .same (s.modifyLogger_keep (f := fun x => { x with level := level }) Logger.ref k
      (fun _ => rfl) l)
  | push i e hget hmutex hguarded =>
    exact .same (s.modifyLogger_keep (f := Logger.enter e.record) Logger.ref e.logger
      (fun _ => rfl) l)
  | leave i woken e needFlush u hget hnotify =>
    have hloggers := (sameRecords_of_leave hnotify).loggers
    refine .same ?_
    rw [← hloggers]
    exact u.modifyLogger_keep (f := Logger.leave e.record) Logger.ref e.logger (fun _ => rfl) l
  | notify id woken u hpc hnotify =>
    exact .same (by rw [← hnotify.sameRecords.loggers]; rfl)
  | notifyStop woken u howner hnotify =>
    exact .same (by rw [← hnotify.sameRecords.loggers])
  | work _ hwork =>
    cases hwork with
    | drain d _ hworker hstep => exact drain_ref h hworker hstep
    | headStop | headGo | lock | testReady | testNone | sleep | expired | swap => exact .same rfl
  | logBelow | checkStop | flush | register | flagSet | flagUnset | sleep | wake | stop
  | wakeWorker => exact .same rfl

/-- What the worker is about to use has a reference, unless it is only left to
notify. -/
theorem touched_pos (h : Referenced s) (hl : l ∈ touched s) (hpc : notifying s ≠ some l) :
    0 < (s.loggers l).ref := by
  have hbatch : ∀ e ∈ batch s.worker.current, 0 < (s.loggers e.logger).ref := by
    intro e he
    exact h.pos_of_pending (List.mem_append_right _ he)
  unfold touched touchedBy at hl
  unfold notifying at hpc
  cases hd : s.worker.current.pc with
  | record =>
    rw [hd] at hl
    obtain ⟨e, he, rfl⟩ := List.mem_map.mp hl
    rw [Option.mem_toList, Option.filter_eq_some_iff] at he
    exact hbatch e (List.mem_append_right _ (List.mem_of_mem_head? he.1))
  | format e =>
    rw [hd] at hl
    obtain rfl := List.mem_singleton.mp hl
    exact hbatch e (by rw [batch, hd]; exact List.mem_cons_self)
  | pass e =>
    rw [hd] at hl
    obtain rfl := List.mem_singleton.mp hl
    exact hbatch e (by rw [batch, hd]; exact List.mem_cons_self)
  | write =>
    rw [hd] at hl
    exact h.pos_of_holds (.inl (List.mem_of_mem_head? (Option.mem_toList.mp hl)))
  | release k =>
    rw [hd] at hl
    exact h.pos_of_holds (.inr (by rw [hd]; exact hl))
  | notify k back =>
    rw [hd] at hl hpc
    exact absurd (congrArg some (List.mem_singleton.mp hl).symm) hpc
  | flag | signal id =>
    rw [hd] at hl
    cases hl

theorem touched_of_notifying (h : notifying s = some l) : l ∈ touched s := by
  unfold notifying at h
  split at h
  · rename_i k back hpc
    obtain rfl := Option.some.inj h
    simp only [touched, touchedBy, hpc, List.mem_singleton]
  · cases h

/-- Only the worker takes its drain on. -/
theorem current_other {a : LogWorker.Act} (ha : LogWorker.step c s a = some s')
    (hwork : a ≠ .work) : s'.worker.current = s.worker.current := by
  cases LogWorker.step_cases ha with
  | work => exact absurd rfl hwork
  | leave i woken e needFlush u hget hnotify => exact (sameRecords_of_leave hnotify).current
  | notify id woken u hpc hnotify => exact hnotify.sameRecords.current
  | notifyStop woken u howner hnotify => exact hnotify.sameRecords.current
  | wakeWorker timeout hpc =>
    rw [hpc]
    cases timeout <;> rfl
  | logBelow | log | setLevel | checkStop | push | flush | register | flagSet | flagUnset | sleep
  | wake | stop => rfl

theorem notifying_unreference {d : Drain} {k : ℕ} {back : Loop}
    (h : notifying (s.unreference d k back) = some l) : l = k := by
  obtain ⟨pc, hs', hpc⟩ := s.unreference_cases d k back
  rw [hs'] at h
  rcases hpc with rfl | rfl
  · exact (Option.some.inj h).symm
  · cases back <;> cases h

theorem drain_notifying (h : Referenced s) (hworker : s.worker = .drain d)
    (hstep : DrainStep c s d s') (hnext : notifying s' = some l) : 0 < (s.loggers l).ref := by
  have hcurrent : s.worker.current = d := by rw [hworker]; rfl
  cases hstep with
  | pass e hpc =>
    obtain rfl := notifying_unreference hnext
    refine touched_pos h ?_ (by simp only [notifying, hcurrent, hpc]; nofun)
    simp only [touched, touchedBy, hcurrent, hpc, List.mem_singleton]
  | release k hpc =>
    obtain rfl := notifying_unreference hnext
    refine touched_pos h ?_ (by simp only [notifying, hcurrent, hpc]; nofun)
    simp only [touched, touchedBy, hcurrent, hpc, List.mem_singleton]
  | notify k back hpc =>
    cases back <;> cases hnext
  | flagsEnd hpc hwaiters =>
    cases hlast : d.last <;> simp only [notifying, hlast] at hnext <;> cases hnext
  | recordsEnd | knownRecord | newRecord | format | writesEnd | write | flag | signal =>
    cases hnext

/-- The worker goes on to a notification only from a reference. -/
theorem notifying_work (h : Referenced s) (ha : LogWorker.step c s .work = some s')
    (hnext : notifying s' = some l) : 0 < (s.loggers l).ref := by
  cases LogWorker.step_cases ha with
  | work _ hwork =>
    cases hwork with
    | drain d _ hworker hstep => exact drain_notifying h hworker hstep hnext
    | headStop | headGo | lock | testReady | testNone | sleep | expired | swap => cases hnext

end References

section Lifetime

variable {c : Config} {s s' : State}

theorem setPhase_phase (s : State) (l : ℕ) (phase : Phase) (k : ℕ) :
    (s.setPhase l phase).phase k = if k = l then phase else s.phase k := by
  by_cases hk : k = l
  · subst hk
    simp [State.setPhase]
  · simp [State.setPhase, hk]

theorem wake_phase (s : State) (l k : ℕ) :
    (s.wake l).phase k = if k = l ∧ s.phase k = .asleep then .holding else s.phase k := by
  unfold State.wake
  by_cases hl : s.phase l = .asleep
  · rw [if_pos hl, setPhase_phase]
    by_cases hk : k = l
    · simp [hk, hl]
    · simp [hk]
  · rw [if_neg hl]
    by_cases hk : k = l
    · simp [hk, hl]
    · simp [hk]

def Phase.isPast : Phase → Bool
  | leaving => true
  | destroyed => true
  | _ => false

/-- No reference is left to a logger whose destructor is past its wait. -/
structure Kept (c : Config) (s : State) : Prop where
  delivering : Delivering c s.log
  referenced : Referenced s.log
  released : ∀ l, (s.phase l).isPast = true → (s.log.loggers l).ref = 0

theorem init_kept (c : Config) : Kept c init :=
  ⟨init_delivering c, init_referenced, nofun⟩

theorem Kept.setPhase (h : Kept c s) {l : ℕ} {phase : Phase}
    (hphase : phase.isPast = true → (s.log.loggers l).ref = 0) : Kept c (s.setPhase l phase) := by
  refine ⟨h.delivering, h.referenced, ?_⟩
  intro k
  rw [setPhase_phase]
  split
  · rename_i hk
    rw [hk]
    exact hphase
  · exact h.released k

theorem Kept.log (h : Kept c s) {a : LogWorker.Act} {log : LogWorker.State}
    (ha : LogWorker.step c s.log a = some log)
    (halive : ∀ l, called a = some l → s.phase l = .alive) {phase : ℕ → Phase}
    (hphase : ∀ l, (phase l).isPast = true → (s.phase l).isPast = true) :
    Kept c { log := log, phase := phase } := by
  refine ⟨step_delivering h.delivering ha, step_referenced h.delivering h.referenced ha, ?_⟩
  intro l hl
  have hpast := hphase l hl
  have hzero := h.released l hpast
  cases step_ref (l := l) h.referenced ha with
  | same href => exact href.trans hzero
  | counted hcalled =>
    rw [halive l hcalled] at hpast
    cases hpast
  | worker hwork htouched hquiet =>
    have hpos := touched_pos h.referenced htouched (by rw [hquiet]; nofun)
    omega

theorem step_kept {a : Act} (h : Kept c s) (ha : step c s a = some s') : Kept c s' := by
  cases step_cases ha with
  | log a log hstep halive hquiet => exact h.log hstep halive fun _ hl => hl
  | notified l log hstep hpc =>
    refine h.log hstep nofun ?_
    intro k
    rw [wake_phase]
    split
    · nofun
    · exact fun hk => hk
  | checkDone l hphase href | testDone l hphase href => exact h.setPhase fun _ => href
  | leave l hphase => exact h.setPhase fun _ => h.released l (by rw [hphase]; rfl)
  | destroy | checkWait | testWait | sleep | wake => exact h.setPhase nofun

/-- The worker is not about to use a member of a destroyed logger. -/
def Untouched (s : State) : Prop := ∀ l ∈ touched s.log, s.phase l ≠ .destroyed

/-- A destructor returns only when the worker is not at the notification of
its logger. -/
def LeavesAfterNotify (s : State) : Act → Prop
  | .leave l => notifying s.log ≠ some l
  | _ => True

instance (s : State) (a : Act) : Decidable (LeavesAfterNotify s a) :=
  match a with
  | .leave l => inferInstanceAs (Decidable (notifying s.log ≠ some l))
  | .log _ | .destroy _ | .check _ | .test _ | .sleep _ | .wake _ =>
    inferInstanceAs (Decidable True)

/-- A step of the worker never takes it to a logger that is destroyed, since
there was no reference left to reach it by. -/
theorem Untouched.log (h : Untouched s) (hkept : Kept c s) {a : LogWorker.Act}
    {log : LogWorker.State} (ha : LogWorker.step c s.log a = some log)
    (hkept' : Kept c s') (hlog : s'.log = log)
    (hphase : ∀ l, s'.phase l = .destroyed → s.phase l = .destroyed) : Untouched s' := by
  intro l hl hdestroyed
  have hbefore := hphase l hdestroyed
  have hzero := hkept.released l (by rw [hbefore]; rfl)
  have hzero' := hkept'.released l (by rw [hdestroyed]; rfl)
  have hnext : notifying s'.log = some l := by
    by_contra hpc
    have hpos := touched_pos hkept'.referenced hl hpc
    omega
  by_cases hwork : a = .work
  · subst hwork hlog
    have hpos := notifying_work hkept.referenced ha hnext
    omega
  · have hsame : touched s'.log = touched s.log := by
      rw [touched, hlog, current_other ha hwork, touched]
    exact h l (hsame ▸ hl) hbefore

theorem Untouched.setPhase (h : Untouched s) {l : ℕ} {phase : Phase} (hphase : phase ≠ .destroyed) :
    Untouched (s.setPhase l phase) := by
  intro k hk
  rw [setPhase_phase]
  split
  · exact hphase
  · exact h k hk

theorem step_untouched {a : Act} (hkept : Kept c s) (h : Untouched s)
    (ha : step c s a = some s') : Untouched s' ↔ LeavesAfterNotify s a := by
  have hkept' := step_kept hkept ha
  cases step_cases ha with
  | log a log hstep halive hquiet =>
    exact iff_of_true (h.log hkept hstep hkept' rfl fun _ hl => hl) trivial
  | notified l log hstep hpc =>
    refine iff_of_true (h.log hkept hstep hkept' rfl ?_) trivial
    intro k
    simp only [wake_phase]
    split
    · nofun
    · exact fun hk => hk
  | leave l hphase =>
    have hzero := hkept.released l (by rw [hphase]; rfl)
    constructor
    · intro hnext hpc
      exact hnext l (touched_of_notifying hpc) (by rw [setPhase_phase, if_pos rfl])
    · intro hpc k hk
      rw [setPhase_phase]
      split
      · rename_i hkl
        subst hkl
        have hpos := touched_pos hkept.referenced hk hpc
        omega
      · exact h k hk
  | destroy | checkWait | checkDone | testDone | testWait | sleep | wake =>
    exact iff_of_true (h.setPhase nofun) trivial

/-- `~logger` sleeps on `cv_` with no reference left and no notification to
come. -/
def Stuck (s : State) (l : ℕ) : Prop :=
  s.phase l = .asleep ∧ (s.log.loggers l).ref = 0 ∧ notifying s.log ≠ some l

/-- A destructor goes to sleep only while there is a reference left or the
notification that follows the last one. -/
def SleepsInTime (s : State) : Act → Prop
  | .sleep l => (s.log.loggers l).ref ≠ 0 ∨ notifying s.log = some l
  | _ => True

instance (s : State) (l : ℕ) : Decidable (Stuck s l) := inferInstanceAs (Decidable (_ ∧ _))

instance (s : State) (a : Act) : Decidable (SleepsInTime s a) :=
  match a with
  | .sleep l =>
    inferInstanceAs (Decidable ((s.log.loggers l).ref ≠ 0 ∨ notifying s.log = some l))
  | .log _ | .destroy _ | .check _ | .test _ | .wake _ | .leave _ =>
    inferInstanceAs (Decidable True)

theorem not_stuck_asleep {l : ℕ} (h : ¬Stuck s l) (hasleep : s.phase l = .asleep)
    (hzero : (s.log.loggers l).ref = 0) : notifying s.log = some l := by
  by_contra hpc
  exact h ⟨hasleep, hzero, hpc⟩

theorem setPhase_not_stuck (h : ∀ l, ¬Stuck s l) {l : ℕ} {phase : Phase} (hphase : phase ≠ .asleep)
    (k : ℕ) : ¬Stuck (s.setPhase l phase) k := by
  rintro ⟨hasleep, hrest⟩
  rw [setPhase_phase] at hasleep
  split at hasleep
  · exact hphase hasleep
  · exact h k ⟨hasleep, hrest⟩

theorem step_stuck {a : Act} (hkept : Kept c s) (h : ∀ l, ¬Stuck s l)
    (ha : step c s a = some s') : (∀ l, ¬Stuck s' l) ↔ SleepsInTime s a := by
  cases step_cases ha with
  | log a log hstep halive hquiet =>
    refine iff_of_true ?_ trivial
    rintro k ⟨hasleep, hzero, hpc⟩
    cases step_ref (l := k) hkept.referenced hstep with
    | same href =>
      have hbefore := not_stuck_asleep (h k) hasleep (href.symm.trans hzero)
      by_cases hwork : a = .work
      · rw [hquiet hwork] at hbefore
        cases hbefore
      · have hsame : notifying log = notifying s.log := by
          rw [notifying, current_other hstep hwork, notifying]
        exact hpc (hsame.trans hbefore)
    | counted hcalled =>
      rw [halive k hcalled] at hasleep
      cases hasleep
    | worker hwork htouched hquiet hnotify => exact hpc (hnotify hzero)
  | notified l log hstep hnotifying =>
    refine iff_of_true ?_ trivial
    rintro k ⟨hasleep, hzero, hpc⟩
    simp only [wake_phase] at hasleep
    split at hasleep
    · cases hasleep
    · rename_i hother
      cases step_ref (l := k) hkept.referenced hstep with
      | same href =>
        have hbefore := not_stuck_asleep (h k) hasleep (href.symm.trans hzero)
        have hkl : l = k := Option.some.inj (hnotifying.symm.trans hbefore)
        exact hother ⟨hkl.symm, hasleep⟩
      | counted hcalled => cases hcalled
      | worker hwork htouched hquiet hnotify => exact hpc (hnotify hzero)
  | sleep l hphase =>
    constructor
    · intro hnext
      by_contra hlate
      obtain ⟨hzero, hpc⟩ := not_or.mp hlate
      exact hnext l ⟨by rw [setPhase_phase, if_pos rfl], not_not.mp hzero, hpc⟩
    · intro hintime k
      by_cases hk : k = l
      · subst hk
        rintro ⟨-, hzero, hpc⟩
        rcases hintime with href | hnotify
        · exact href hzero
        · exact hpc hnotify
      · rintro ⟨hasleep, hrest⟩
        rw [setPhase_phase, if_neg hk] at hasleep
        exact h k ⟨hasleep, hrest⟩
  | destroy | checkWait | checkDone | testDone | testWait | wake | leave =>
    exact iff_of_true (setPhase_not_stuck h (by nofun)) trivial

end Lifetime

/-- In a run of any length the worker never comes to use a destroyed logger
exactly when no destructor returns before a notification that is due. -/
theorem logger_untouched_iff {c : Config} {acts : List Act} {s : State}
    (h : exec (step c) init acts = some s) :
    Throughout (step c) Untouched init acts ↔ Along (step c) LeavesAfterNotify init acts :=
  throughout_iff_along (I := Kept c) (fun _ _ _ hs ha => step_kept hs ha)
    (fun _ _ _ hs hQ ha => step_untouched hs hQ ha) (init_kept c) nofun h

/-- In a run of any length no destructor sleeps on exactly when none goes to
sleep after its last notification. -/
theorem wakeup_kept_iff {c : Config} {acts : List Act} {s : State}
    (h : exec (step c) init acts = some s) :
    Throughout (step c) (fun s => ∀ l, ¬Stuck s l) init acts ↔
      Along (step c) SleepsInTime init acts := by
  refine throughout_iff_along (I := Kept c) (fun _ _ _ hs ha => step_kept hs ha)
    (fun _ _ _ hs hQ ha => step_stuck hs hQ ha) (init_kept c) ?_ h
  rintro l ⟨hasleep, -⟩
  cases hasleep

def drainedTo (steps : ℕ) : List Act :=
  (sampleCall 0 1 ++ List.replicate steps LogWorker.Act.work).map .log

def orderlyRun : List Act :=
  List.flatten
    [drainedTo 9, [.destroy 0, .check 0, .test 0, .sleep 0], List.replicate 2 (.log .work),
      [.test 0, .leave 0], List.replicate 2 (.log .work)]

theorem logger_untouched_iff_sample : ∃ s, exec (step sampleConfig) init orderlyRun = some s ∧
    s.phase 0 = .destroyed ∧ Throughout (step sampleConfig) Untouched init orderlyRun := by
  have hrun : ((exec (step sampleConfig) init orderlyRun).map fun s => s.phase 0) =
      some .destroyed := by
    decide +kernel
  obtain ⟨s, hs, hphase⟩ := Option.map_eq_some_iff.mp hrun
  exact ⟨s, hs, hphase, (logger_untouched_iff hs).mpr (by decide +kernel)⟩

theorem wakeup_kept_iff_sample : ∃ s, exec (step sampleConfig) init orderlyRun = some s ∧
    Throughout (step sampleConfig) (fun s => ∀ l, ¬Stuck s l) init orderlyRun := by
  have hrun : (exec (step sampleConfig) init orderlyRun).isSome = true := by decide +kernel
  obtain ⟨s, hs⟩ := Option.isSome_iff_exists.mp hrun
  exact ⟨s, hs, (wakeup_kept_iff hs).mpr (by decide +kernel)⟩

/-- The counter is zero when the destructor first reads it, and the worker has
still to notify. -/
def earlyReturnRun : List Act := drainedTo 10 ++ [.destroy 0, .check 0, .leave 0]

theorem destroyed_logger_notified :
    ¬ ∀ acts s, exec (step sampleConfig) init acts = some s → Untouched s := by
  intro h
  have hrun : ((exec (step sampleConfig) init earlyReturnRun).map fun s =>
      (decide (0 ∈ touched s.log), s.phase 0)) = some (true, .destroyed) := by
    decide +kernel
  obtain ⟨s, hs, hvalues⟩ := Option.map_eq_some_iff.mp hrun
  simp only [Prod.mk.injEq, decide_eq_true_eq] at hvalues
  exact h earlyReturnRun s hs 0 hvalues.1 hvalues.2

/-- The decrement and the notification fall between the test of the predicate
and the sleep. -/
def lostWakeupRun : List Act :=
  List.flatten
    [drainedTo 9, [.destroy 0, .check 0, .test 0], List.replicate 2 (.log .work), [.sleep 0]]

theorem destructor_sleeps_on :
    ¬ ∀ acts s, exec (step sampleConfig) init acts = some s → ∀ l, ¬Stuck s l := by
  intro h
  have hrun : ((exec (step sampleConfig) init lostWakeupRun).map fun s => decide (Stuck s 0)) =
      some true := by
    decide +kernel
  obtain ⟨s, hs, hstuck⟩ := Option.map_eq_some_iff.mp hrun
  exact h lostWakeupRun s hs 0 (of_decide_eq_true hstuck)

end Bc.LoggerLifetime
