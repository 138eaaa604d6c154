import Bc.LoggerLifetime

/-!
Log calls that throw while they build their record. The reference of the call is taken
before and nobody gives it back. But for the counters everything goes on as in a run
without these calls, which the proofs follow beside the run itself.
-/
namespace Bc.ThrowingCalls

open Runs LogDelivery LogReferences LoggerLifetime
open LogWorker hiding State Act init step Step step_cases

/-- `thrown` counts the calls of a logger that have thrown at an enabled level. -/
structure State where
  life : LoggerLifetime.State
  thrown : ℕ → ℕ

def init : State := ⟨LoggerLifetime.init, fun _ => 0⟩

/-- `throws` is a log call whose record is not built, by the fault of `fmt::format`. -/
inductive Act
  | life (a : LoggerLifetime.Act)
  | throws (l : ℕ) (level : Level)
  deriving DecidableEq

/-- The test at the beginning of a log call. -/
def Below (s : State) (l : ℕ) (level : Level) : Prop :=
  level.toUnderlying < (s.life.log.loggers l).level.toUnderlying

instance (s : State) (l : ℕ) (level : Level) : Decidable (Below s l level) :=
  inferInstanceAs (Decidable (_ < _))

namespace State

def leak (s : State) (l : ℕ) : State :=
  { life := { s.life with log := s.life.log.modifyLogger l Logger.reference }
    thrown := Function.update s.thrown l (s.thrown l + 1) }

end State

def step (c : Config) (s : State) : Act → Option State
  | .life a => (LoggerLifetime.step c s.life a).map fun life => { s with life := life }
  | .throws l level =>
    if s.life.phase l = .alive then some (if Below s l level then s else s.leak l) else none

section Shifts

variable {c : Config} {thrown : ℕ → ℕ} {s s' : LogWorker.State} {d : Drain} {l : ℕ}

/-- A logger without some of its references. -/
def without (n : ℕ) (x : Logger) : Logger := { x with ref := x.ref - n }

/-- The loggers without the references of the calls that have thrown. -/
def shifted (thrown : ℕ → ℕ) (s : LogWorker.State) : LogWorker.State :=
  { s with loggers := fun l => without (thrown l) (s.loggers l) }

theorem shifted_appends : (shifted thrown s).appends = s.appends := rfl

theorem shifted_modifyLogger (thrown : ℕ → ℕ) {f : Logger → Logger}
    (hf : ∀ n x, f (without n x) = without n (f x)) (s : LogWorker.State) (l : ℕ) :
    (shifted thrown s).modifyLogger l f = shifted thrown (s.modifyLogger l f) := by
  have hloggers : Function.update (fun k => without (thrown k) (s.loggers k)) l
      (f (without (thrown l) (s.loggers l))) =
        fun k => without (thrown k) (Function.update s.loggers l (f (s.loggers l)) k) := by
    funext k
    by_cases hk : k = l
    · subst hk
      simp [hf]
    · simp [hk]
  exact congrArg (fun loggers => { s with loggers := loggers }) hloggers

theorem reference_without (n : ℕ) (x : Logger) :
    Logger.reference (without n x) = without n (Logger.reference x) := by
  have href : x.ref - n + 1 = x.ref + 1 - n := by omega
  exact congrArg (fun ref => { x with ref := ref }) href

theorem unreference_without (n : ℕ) (x : Logger) :
    Logger.unreference (without n x) = without n (Logger.unreference x) := by
  have href : x.ref - n - 1 = x.ref - 1 - n := by omega
  exact congrArg (fun ref => { x with ref := ref }) href

theorem shifted_notifyOne (s : LogWorker.State) (woken : Option Sleeper) :
    (shifted thrown s).notifyOne woken = (s.notifyOne woken).map (shifted thrown) := by
  unfold LogWorker.State.notifyOne
  rcases woken with _ | (_ | id)
  all_goals
    simp only [apply_ite (Option.map (shifted thrown))]
    rfl

/-- The steps of the callers do not look at the counters. -/
theorem shifted_step {a : LogWorker.Act} (ha : a ≠ .work) :
    LogWorker.step c (shifted thrown s) a = (LogWorker.step c s a).map (shifted thrown) := by
  unfold LogWorker.step
  cases a with
  | log l r =>
    simp only [apply_ite (Option.map (shifted thrown)),
      shifted_modifyLogger thrown reference_without]
    rfl
  | setLevel l level =>
    exact congrArg some (shifted_modifyLogger thrown (fun _ _ => rfl) s l)
  | checkStop i =>
    simp only [shifted_appends]
    rcases s.appends[i]? with _ | (e | e | ⟨e, needFlush⟩)
    · rfl
    · simp only [apply_ite (Option.map (shifted thrown))]
      rfl
    · rfl
    · rfl
  | push i =>
    simp only [shifted_appends]
    rcases s.appends[i]? with _ | (e | e | ⟨e, needFlush⟩)
    · rfl
    · rfl
    · have henter := shifted_modifyLogger thrown (f := Logger.enter e.record)
        (fun _ _ => rfl) s e.logger
      simp only [apply_ite (Option.map (shifted thrown)), henter]
      rfl
    · rfl
  | leave i woken =>
    simp only [shifted_appends]
    rcases s.appends[i]? with _ | (e | e | ⟨e, needFlush⟩)
    · rfl
    · rfl
    · rfl
    · have hwoken : (if needFlush then (shifted thrown s).notifyOne woken
          else if woken = none then some (shifted thrown s) else none) =
            (if needFlush then s.notifyOne woken
              else if woken = none then some s else none).map (shifted thrown) := by
        simp only [apply_ite (Option.map (shifted thrown)), shifted_notifyOne]
        rfl
      simp only [hwoken, Option.map_map]
      refine congrArg (fun f => Option.map f _) (funext fun u => ?_)
      have hleave := shifted_modifyLogger thrown (f := Logger.leave e.record)
        (fun _ _ => rfl) u e.logger
      exact congrArg (fun t => { t with appends := u.appends.eraseIdx i }) hleave
  | notify id woken | notifyStop woken =>
    simp only [apply_ite (Option.map (shifted thrown)), shifted_notifyOne, Option.map_map]
    rfl
  | flush | register id | testFlag id | sleep id | wake id | stop | wakeWorker timeout =>
    simp only [apply_ite (Option.map (shifted thrown))]
    rfl
  | work => exact absurd rfl ha

theorem shifted_unreference (s : LogWorker.State) (d : Drain) (l : ℕ) (back : Loop) :
    (shifted thrown s).unreference d l back =
      (shifted thrown (s.modifyLogger l Logger.unreference)).drainAt
        { d with pc := if (s.loggers l).ref - 1 - thrown l = 0 then .notify l back
                       else back.head } := by
  have href : ((shifted thrown (s.modifyLogger l Logger.unreference)).loggers l).ref =
      (s.loggers l).ref - 1 - thrown l := by
    simp only [shifted, without, State.modifyLogger_loggers, if_true, Logger.unreference]
  rw [LogWorker.State.unreference, shifted_modifyLogger thrown unreference_without, href]

/-- Without the references of the calls that have thrown an `unreference_` may reach zero
and go on to notify. That is one step more, and the drain is then where it is with them. -/
theorem exec_unreference {back : Loop} (hpos : 0 < (s.loggers l).ref - thrown l)
    (hstep : LogWorker.step c (shifted thrown s) .work =
      some ((shifted thrown s).unreference d l back)) :
    ∃ acts, exec (LogWorker.step c) (shifted thrown s) acts =
      some (shifted thrown (s.unreference d l back)) := by
  have hafter : s.unreference d l back = (s.modifyLogger l Logger.unreference).drainAt
      { d with pc := if (s.loggers l).ref - 1 = 0 then .notify l back else back.head } := by
    simp only [LogWorker.State.unreference, State.modifyLogger_loggers, if_true,
      Logger.unreference]
  rw [shifted_unreference] at hstep
  rw [hafter]
  by_cases hsame : thrown l = 0 ∨ (s.loggers l).ref - 1 - thrown l ≠ 0
  · have hiff : (s.loggers l).ref - 1 - thrown l = 0 ↔ (s.loggers l).ref - 1 = 0 := by omega
    refine ⟨[.work], exec_one ?_⟩
    simp only [hstep, hiff]
    rfl
  · have hzero : (s.loggers l).ref - 1 - thrown l = 0 := by omega
    have hleft : (s.loggers l).ref - 1 ≠ 0 := by omega
    rw [if_pos hzero] at hstep
    rw [if_neg hleft]
    exact ⟨[.work, .work], exec_cons_eq_some.mpr ⟨_, hstep, exec_one rfl⟩⟩

/-- A step of the drain but for an `unreference_` does not look at the counters. -/
theorem shifted_drain (hpass : ∀ e, d.pc ≠ .pass e) (hrelease : ∀ l, d.pc ≠ .release l) :
    (shifted thrown s).drain c d = shifted thrown (s.drain c d) := by
  unfold LogWorker.State.drain
  cases hpc : d.pc with
  | record =>
    cases hlogs : d.logs with
    | nil => rfl
    | cons e rest =>
      by_cases hknown : e.logger ∈ d.buffers.keys
      · simp only [if_pos hknown]
        rfl
      · simp only [if_neg hknown, shifted_modifyLogger thrown reference_without]
        rfl
  | format e => rfl
  | pass e => exact absurd hpc (hpass e)
  | write =>
    cases hbuffers : d.buffers.entries with
    | nil => rfl
    | cons first rest =>
      have hwrite := shifted_modifyLogger thrown (f := Logger.write first.2)
        (fun _ _ => rfl) s first.1
      exact congrArg (fun t : LogWorker.State =>
        t.drainAt { d with buffers := d.buffers.tail, pc := .release first.1 }) hwrite
  | release l => exact absurd hpc (hrelease l)
  | notify l back => rfl
  | flag =>
    cases hwaiters : d.waiters with
    | nil => rfl
    | cons id rest => rfl
  | signal id => rfl

/-- The worker has a reference to what it is about to release, also without those of the
calls that have thrown. -/
theorem exec_release (h : Referenced (shifted thrown s)) (hworker : s.worker = .drain d) (l : ℕ)
    (back : Loop) (htouched : l ∈ touched s) (hquiet : notifying s = none)
    (hdrain : ∀ t : LogWorker.State, t.drain c d = t.unreference d l back) :
    ∃ acts, exec (LogWorker.step c) (shifted thrown s) acts =
      some (shifted thrown (s.drain c d)) := by
  have hworker' : (shifted thrown s).worker = .drain d := hworker
  have hquiet' : notifying (shifted thrown s) = none := hquiet
  have hpos : 0 < ((shifted thrown s).loggers l).ref :=
    touched_pos h htouched (by simp [hquiet'])
  rw [hdrain s]
  refine exec_unreference hpos ?_
  simp only [LogWorker.step, LogWorker.State.work, hworker', hdrain]

/-- A step of the worker outside its drains does not look at the counters. -/
theorem shifted_work (hworker : ∀ d, s.worker ≠ .drain d) :
    (shifted thrown s).work c = (s.work c).map (shifted thrown) := by
  have hworker' : (shifted thrown s).worker = s.worker := rfl
  unfold LogWorker.State.work
  rw [hworker']
  cases hpc : s.worker with
  | drain d => exact absurd hpc (hworker d)
  | head =>
    simp only [apply_ite (Option.map (shifted thrown))]
    rfl
  | test | locking | tested | asleep | expired | ready | ended => rfl

theorem exec_work (h : Referenced (shifted thrown s)) (hwork : s.work c = some s') :
    ∃ acts, exec (LogWorker.step c) (shifted thrown s) acts = some (shifted thrown s') := by
  cases hworker : s.worker with
  | drain d =>
    have hdrain : s.drain c d = s' := by
      simpa only [LogWorker.State.work, hworker, Option.some.injEq] using hwork
    rw [← hdrain]
    have hcurrent : s.worker.current = d := by rw [hworker]; rfl
    cases hpc : d.pc with
    | pass e =>
      refine exec_release h hworker e.logger .records ?_ ?_ ?_
      · simp only [touched, touchedBy, hcurrent, hpc, List.mem_singleton]
      · simp only [notifying, hcurrent, hpc]
      · intro t
        simp only [LogWorker.State.drain, hpc]
    | release k =>
      refine exec_release h hworker k .buffers ?_ ?_ ?_
      · simp only [touched, touchedBy, hcurrent, hpc, List.mem_singleton]
      · simp only [notifying, hcurrent, hpc]
      · intro t
        simp only [LogWorker.State.drain, hpc]
    | _ =>
      refine ⟨[.work], exec_one ?_⟩
      rw [← shifted_drain (by simp [hpc]) (by simp [hpc])]
      have hworker' : (shifted thrown s).worker = .drain d := hworker
      simp only [LogWorker.step, LogWorker.State.work, hworker']
  | _ =>
    refine ⟨[.work], exec_one ?_⟩
    simp only [LogWorker.step]
    rw [shifted_work (by simp [hworker]), hwork, Option.map_some]

/-- A step is one or two steps without the references of the calls that have thrown. -/
theorem exec_shifted {a : LogWorker.Act} (h : Referenced (shifted thrown s))
    (ha : LogWorker.step c s a = some s') :
    ∃ acts, exec (LogWorker.step c) (shifted thrown s) acts = some (shifted thrown s') := by
  by_cases hwork : a = .work
  · subst hwork
    exact exec_work h ha
  · refine ⟨[a], exec_one ?_⟩
    rw [shifted_step hwork, ha]
    rfl

end Shifts

section Leaks

variable {c : Config} {s s' t : State} {l : ℕ}

/-- The counters without the references of the calls that have thrown are as in a run
without these calls. No destructor is past its wait with one of these references left. -/
structure Leaky (c : Config) (s : State) : Prop where
  delivering : Delivering c (shifted s.thrown s.life.log)
  referenced : Referenced (shifted s.thrown s.life.log)
  kept : ∀ l, (s.life.phase l).isPast = true → s.thrown l = 0

theorem Leaky.counted (h : Leaky c s) (l : ℕ) : (s.life.log.loggers l).ref =
    countOf l (pending s.life.log) + held s.life.log.worker.current l + s.thrown l := by
  have hcounted : (s.life.log.loggers l).ref - s.thrown l =
      countOf l (pending s.life.log) + held s.life.log.worker.current l := h.referenced.counted l
  omega

theorem Leaky.thrown_le (h : Leaky c s) (l : ℕ) : s.thrown l ≤ (s.life.log.loggers l).ref := by
  rw [h.counted l]
  omega

theorem init_leaky (c : Config) : Leaky c init := by
  have hnone : shifted init.thrown init.life.log = LogWorker.init := rfl
  exact ⟨hnone ▸ init_delivering c, hnone ▸ init_referenced, nofun⟩

theorem Leaky.log (h : Leaky c s) {a : LogWorker.Act} {log : LogWorker.State}
    (ha : LogWorker.step c s.life.log a = some log) {phase : ℕ → Phase}
    (hphase : ∀ l, (phase l).isPast = true → (s.life.phase l).isPast = true) :
    Leaky c { s with life := { log := log, phase := phase } } := by
  obtain ⟨acts, hrun⟩ := exec_shifted h.referenced ha
  have hboth := exec_preserves (I := fun u => Delivering c u ∧ Referenced u)
    (fun u a u' hu hstep => ⟨step_delivering hu.1 hstep, step_referenced hu.1 hu.2 hstep⟩)
    ⟨h.delivering, h.referenced⟩ hrun
  exact ⟨hboth.1, hboth.2, fun l hl => h.kept l (hphase l hl)⟩

theorem Leaky.setPhase (h : Leaky c s) {l : ℕ} {phase : Phase}
    (hphase : phase.isPast = true → s.thrown l = 0) :
    Leaky c { s with life := s.life.setPhase l phase } := by
  refine ⟨h.delivering, h.referenced, ?_⟩
  intro k
  simp only [setPhase_phase]
  split
  · rename_i hk
    rw [hk]
    exact hphase
  · exact h.kept k

theorem life_leaky {a : LoggerLifetime.Act} {life : LoggerLifetime.State} (h : Leaky c s)
    (ha : LoggerLifetime.step c s.life a = some life) : Leaky c { s with life := life } := by
  cases LoggerLifetime.step_cases ha with
  | log a log hstep halive hquiet => exact h.log hstep fun _ hl => hl
  | notified l log hstep hpc =>
    refine h.log hstep ?_
    intro k
    rw [wake_phase]
    split
    · nofun
    · exact fun hk => hk
  | checkDone l hphase href | testDone l hphase href =>
    refine h.setPhase fun _ => ?_
    have hle := h.thrown_le l
    omega
  | leave l hphase => exact h.setPhase fun _ => h.kept l (by rw [hphase]; rfl)
  | destroy | checkWait | testWait | sleep | wake => exact h.setPhase nofun

/-- The reference of a call that throws is among those that are left out. -/
theorem shifted_leak (s : State) (l : ℕ) :
    shifted (s.leak l).thrown (s.leak l).life.log = shifted s.thrown s.life.log := by
  have hloggers : (fun k => without ((s.leak l).thrown k) ((s.leak l).life.log.loggers k)) =
      fun k => without (s.thrown k) (s.life.log.loggers k) := by
    funext k
    by_cases hk : k = l
    · subst hk
      have href : (s.life.log.loggers k).ref + 1 - ((s.thrown k + 1 : ℕ) : ℤ) =
          (s.life.log.loggers k).ref - s.thrown k := by
        push_cast
        omega
      simp only [State.leak, without, State.modifyLogger_loggers, if_true, Function.update_self,
        Logger.reference, href]
    · simp only [State.leak, State.modifyLogger_loggers, if_neg hk, Function.update_of_ne hk]
  exact congrArg (fun loggers => { s.life.log with loggers := loggers }) hloggers

theorem Leaky.leak (h : Leaky c s) (hphase : s.life.phase l = .alive) : Leaky c (s.leak l) := by
  refine ⟨shifted_leak s l ▸ h.delivering, shifted_leak s l ▸ h.referenced, ?_⟩
  intro k hpast
  have hpast' : (s.life.phase k).isPast = true := hpast
  by_cases hk : k = l
  · rw [hk, hphase] at hpast'
    cases hpast'
  · simp only [State.leak, Function.update_of_ne hk]
    exact h.kept k hpast'

inductive Step (c : Config) (s : State) : Act → State → Prop
  | life (a : LoggerLifetime.Act) (life : LoggerLifetime.State)
      (hstep : LoggerLifetime.step c s.life a = some life) :
      Step c s (.life a) { s with life := life }
  | below (l : ℕ) (level : Level) (hbelow : Below s l level) : Step c s (.throws l level) s
  | leak (l : ℕ) (level : Level) (hphase : s.life.phase l = .alive) (henabled : ¬Below s l level) :
      Step c s (.throws l level) (s.leak l)

theorem step_cases {a : Act} (h : step c s a = some s') : Step c s a s' := by
  cases a with
  | life a =>
    obtain ⟨life, hstep, rfl⟩ := Option.map_eq_some_iff.mp h
    exact .life a life hstep
  | throws l level =>
    simp only [step, Option.ite_none_right_eq_some, Option.some.injEq] at h
    obtain ⟨hphase, rfl⟩ := h
    by_cases hbelow : Below s l level
    · rw [if_pos hbelow]
      exact .below l level hbelow
    · rw [if_neg hbelow]
      exact .leak l level hphase hbelow

theorem step_leaky {a : Act} (h : Leaky c s) (ha : step c s a = some s') : Leaky c s' := by
  cases step_cases ha with
  | life a life hstep => exact life_leaky h hstep
  | below l level hbelow => exact h
  | leak l level hphase henabled => exact h.leak hphase

theorem run_leaky {acts : List Act} (h : exec (step c) init acts = some s) : Leaky c s :=
  exec_preserves (fun _ _ _ => step_leaky) (init_leaky c) h

theorem step_thrown {a : Act} (ha : step c s a = some s') (l : ℕ) : s.thrown l ≤ s'.thrown l := by
  cases step_cases ha with
  | life a life hstep => exact le_rfl
  | below k level hbelow => exact le_rfl
  | leak k level hphase henabled =>
    simp only [State.leak]
    by_cases hl : l = k
    · subst hl
      rw [Function.update_self]
      exact Nat.le_succ _
    · rw [Function.update_of_ne hl]

theorem run_thrown {acts : List Act} (h : exec (step c) s acts = some t) (l : ℕ) :
    s.thrown l ≤ t.thrown l :=
  exec_preserves (I := fun u => s.thrown l ≤ u.thrown l)
    (fun _ _ _ hu hstep => hu.trans (step_thrown hstep l)) le_rfl h

end Leaks

/-- A logger with no record on its way and no buffer. -/
def Drained (s : State) (l : ℕ) : Prop :=
  (∀ e ∈ pending s.life.log, e.logger ≠ l) ∧ ¬Holds s.life.log.worker.current l

instance (s : State) (l : ℕ) : Decidable (Drained s l) := inferInstanceAs (Decidable (_ ∧ _))

/-- `ref_` is what the queued records and the buffers account for. It is zero when these
are drained, and then `~logger` does not wait or go on waiting. -/
structure Returned (c : Config) (s : State) : Prop where
  counted : ∀ l, (s.life.log.loggers l).ref =
    countOf l (pending s.life.log) + held s.life.log.worker.current l
  drained : ∀ l, Drained s l → (s.life.log.loggers l).ref = 0
  ends : ∀ l, Drained s l → ∀ s', step c s (.life (.check l)) = some s' ∨
    step c s (.life (.test l)) = some s' → s'.life.phase l = .leaving

/-- No call throws at an enabled level. -/
def NoThrow (s : State) : Act → Prop
  | .throws l level => Below s l level
  | .life _ => True

instance (s : State) (a : Act) : Decidable (NoThrow s a) :=
  match a with
  | .throws l level => inferInstanceAs (Decidable (Below s l level))
  | .life _ => inferInstanceAs (Decidable True)

section Returns

variable {c : Config} {s s' : State}

theorem drained_counts {l : ℕ} (h : Drained s l) :
    countOf l (pending s.life.log) = 0 ∧ held s.life.log.worker.current l = 0 := by
  constructor
  · rw [countOf, List.countP_eq_zero]
    intro e he
    simpa only [decide_eq_true_eq] using h.1 e he
  · rw [held, if_neg h.2]

theorem leaving_of_zero {l : ℕ} (hzero : (s.life.log.loggers l).ref = 0)
    (h : step c s (.life (.check l)) = some s' ∨ step c s (.life (.test l)) = some s') :
    s'.life.phase l = .leaving := by
  rcases h with h | h
  · cases step_cases h with
    | life a life hstep =>
      cases LoggerLifetime.step_cases hstep with
      | checkWait _ hphase href => exact absurd hzero href
      | checkDone => rw [setPhase_phase, if_pos rfl]
  · cases step_cases h with
    | life a life hstep =>
      cases LoggerLifetime.step_cases hstep with
      | testWait _ hphase href => exact absurd hzero href
      | testDone => rw [setPhase_phase, if_pos rfl]

theorem returned_iff (h : Leaky c s) : Returned c s ↔ ∀ l, s.thrown l = 0 := by
  constructor
  · intro hreturned l
    have hcounted := hreturned.counted l
    have hleaky := h.counted l
    omega
  · intro hnone
    have hcounted : ∀ l, (s.life.log.loggers l).ref =
        countOf l (pending s.life.log) + held s.life.log.worker.current l := by
      intro l
      have hleaky := h.counted l
      rw [hnone l] at hleaky
      omega
    have hdrained : ∀ l, Drained s l → (s.life.log.loggers l).ref = 0 := by
      intro l hl
      obtain ⟨hcount, hheld⟩ := drained_counts hl
      rw [hcounted l, hcount, hheld]
      rfl
    exact ⟨hcounted, hdrained, fun l hl _ => leaving_of_zero (hdrained l hl)⟩

theorem init_returned (c : Config) : Returned c init :=
  (returned_iff (init_leaky c)).mpr fun _ => rfl

theorem step_returned {a : Act} (h : Leaky c s) (hreturned : Returned c s)
    (ha : step c s a = some s') : Returned c s' ↔ NoThrow s a := by
  have hnone := (returned_iff h).mp hreturned
  rw [returned_iff (step_leaky h ha)]
  cases step_cases ha with
  | life a life hstep => exact iff_of_true hnone trivial
  | below l level hbelow => exact iff_of_true hnone hbelow
  | leak l level hphase henabled =>
    refine iff_of_false ?_ henabled
    intro hnone'
    have hl := hnone' l
    simp only [State.leak, Function.update_self] at hl
    omega

/-- A call that throws leaves the logger and the worker as they were only below the level. -/
theorem throws_life {l : ℕ} {level : Level} (h : step c s (.throws l level) = some s') :
    s'.life = s.life ↔ Below s l level := by
  cases step_cases h with
  | below _ _ hbelow => exact iff_of_true rfl hbelow
  | leak _ _ hphase henabled =>
    refine iff_of_false ?_ henabled
    intro hsame
    have href := congrArg (fun life => (life.log.loggers l).ref) hsame
    simp only [State.leak, State.modifyLogger_loggers, if_true, Logger.reference] at href
    omega

end Returns

/-- A call that throws leaves everything as it was exactly when its level is below that of
the logger. In a run of any length the counters come back to zero, where the destructors
pass, exactly when no call throws at an enabled level. -/
theorem reference_returned_iff (c : Config) :
    (∀ s s' l level, step c s (.throws l level) = some s' →
      (s'.life = s.life ↔ Below s l level)) ∧
    ∀ acts s, exec (step c) init acts = some s →
      (Throughout (step c) (Returned c) init acts ↔ Along (step c) NoThrow init acts) := by
  refine ⟨fun _ _ _ _ => throws_life, fun acts s hrun => ?_⟩
  exact throughout_iff_along (I := Leaky c) (fun _ _ _ => step_leaky)
    (fun _ _ _ => step_returned) (init_leaky c) (init_returned c) hrun

def quietRun : List Act := .throws 0 .debug :: orderlyRun.map .life

theorem reference_returned_iff_quiet : ∃ s, exec (step sampleConfig) init quietRun = some s ∧
    s.life.phase 0 = .destroyed ∧
      Throughout (step sampleConfig) (Returned sampleConfig) init quietRun := by
  have hrun : ((exec (step sampleConfig) init quietRun).map fun s => s.life.phase 0) =
      some .destroyed := by
    decide +kernel
  obtain ⟨s, hs, hphase⟩ := Option.map_eq_some_iff.mp hrun
  have hreturned := (reference_returned_iff sampleConfig).2 quietRun s hs
  exact ⟨s, hs, hphase, hreturned.mpr (by decide +kernel)⟩

/-- A call throws, and a second one is written. The destructor has gone to sleep. -/
def leakRun : List Act :=
  .throws 0 .error :: (drainedTo 13).map .life ++
    [.life (.destroy 0), .life (.check 0), .life (.test 0), .life (.sleep 0)]

theorem reference_left_over : ¬ ∀ acts s, exec (step sampleConfig) init acts = some s →
    ∀ l, Drained s l → (s.life.log.loggers l).ref = 0 := by
  intro h
  have hrun : ((exec (step sampleConfig) init leakRun).map fun s =>
      (decide (Drained s 0), (s.life.log.loggers 0).ref)) = some (true, 1) := by
    decide +kernel
  obtain ⟨s, hs, hvalues⟩ := Option.map_eq_some_iff.mp hrun
  simp only [Prod.mk.injEq, decide_eq_true_eq] at hvalues
  have hzero := h leakRun s hs 0 hvalues.1
  rw [hvalues.2] at hzero
  cases hzero

/-- After a call has thrown at an enabled level the destructor of its logger never gets past
its wait. -/
theorem destructor_never_ends {c : Config} {acts more : List Act} {s s' t : State} {l : ℕ}
    {level : Level} (h : exec (step c) init acts = some s)
    (hthrows : step c s (.throws l level) = some s') (henabled : ¬Below s l level)
    (hrun : exec (step c) s' more = some t) :
    0 < (t.life.log.loggers l).ref ∧ (t.life.phase l).isPast = false := by
  have hleaky : Leaky c t :=
    exec_preserves (fun _ _ _ => step_leaky) (step_leaky (run_leaky h) hthrows) hrun
  have hthrown : 0 < s'.thrown l := by
    cases step_cases hthrows with
    | below _ _ hbelow => exact absurd hbelow henabled
    | leak _ _ hphase =>
      simp only [State.leak, Function.update_self]
      exact Nat.succ_pos _
  have hpos : 0 < t.thrown l := hthrown.trans_le (run_thrown hrun l)
  constructor
  · have hle := hleaky.thrown_le l
    omega
  · rw [Bool.eq_false_iff]
    intro hpast
    have hnone := hleaky.kept l hpast
    omega

end Bc.ThrowingCalls
