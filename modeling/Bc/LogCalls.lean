import Bc.LogDelivery

/-!
Log calls of several threads. A call queues its record at one moment between its
start and its return. So the records stand in an order in which the calls could have
been made one after another: what one call has logged before another call began is in
front of what the other logs.
-/
namespace Bc.LogCalls

open Runs OrderedMaps LogWorker LogDelivery

/-- The record of a log call that has not queued it. -/
def unqueuedEntry : Append → Option Entry
  | .counted e => some e
  | .admitted e => some e
  | .pushed _ _ => none

def unqueued (l : ℕ) (calls : List Append) : List Record :=
  recordsOf l (calls.filterMap unqueuedEntry)

/-- The record that a call of `log` makes, if the level lets it. -/
def calledEntry (c : Config) : Act → Option Entry
  | .log l r => some ⟨l, { r with topic := c.topic l }⟩
  | _ => none

/-- The records that a logger has been called with. -/
def called (c : Config) (l : ℕ) (acts : List Act) : List Record :=
  recordsOf l (acts.filterMap (calledEntry c))

/-- What a logger has queued from one state to another stands behind what it had queued
before, and is of calls that had not queued their record or have begun since. -/
def Placed (c : Config) (l : ℕ) (t : State) (acts : List Act) (s : State) : Prop :=
  ∃ rest, (s.loggers l).entered = (t.loggers l).entered ++ rest ∧
    (rest ++ unqueued l s.appends).Subperm (unqueued l t.appends ++ called c l acts)

section Ledger

variable {c : Config} {l : ℕ} {s t u : State} {a : Act}

theorem unqueued_perm {calls others : List Append} (h : calls.Perm others) (l : ℕ) :
    (unqueued l calls).Perm (unqueued l others) :=
  ((h.filterMap unqueuedEntry).filter _).map _

theorem called_append (c : Config) (l : ℕ) (acts more : List Act) :
    called c l (acts ++ more) = called c l acts ++ called c l more := by
  rw [called, List.filterMap_append, recordsOf_append]
  rfl

theorem Placed.refl (c : Config) (l : ℕ) (s : State) : Placed c l s [] s :=
  ⟨[], by simp, by simp [called, recordsOf, List.Subperm.refl]⟩

theorem Placed.trans {acts more : List Act} (h : Placed c l t acts u)
    (hmore : Placed c l u more s) : Placed c l t (acts ++ more) s := by
  obtain ⟨first, hfirst, hledger⟩ := h
  obtain ⟨later, hlater, hledger'⟩ := hmore
  refine ⟨first ++ later, by rw [hlater, hfirst, List.append_assoc], ?_⟩
  rw [called_append, List.append_assoc]
  refine ((List.subperm_append_left first).mpr hledger').trans ?_
  rw [← List.append_assoc, ← List.append_assoc]
  exact (List.subperm_append_right _).mpr hledger

theorem Placed.same (hentered : (s.loggers l).entered = (t.loggers l).entered)
    (hcalls : (unqueued l s.appends).Perm (unqueued l t.appends)) : Placed c l t [a] s := by
  refine ⟨[], by rw [hentered, List.append_nil], ?_⟩
  rw [List.nil_append]
  exact hcalls.subperm.trans (List.sublist_append_left _ _).subperm

theorem step_placed (h : step c s a = some t) (l : ℕ) : Placed c l s [a] t := by
  cases step_cases h with
  | logBelow | flush | register | flagSet | flagUnset | sleep | wake | stop | wakeWorker =>
    exact .same rfl (List.Perm.refl _)
  | setLevel k level =>
    refine .same ?_ (List.Perm.refl _)
    exact s.modifyLogger_keep (f := fun x => { x with level := level }) Logger.entered k
      (fun _ => rfl) l
  | log k r =>
    have hentered := s.modifyLogger_keep (f := Logger.reference) Logger.entered k (fun _ => rfl) l
    refine ⟨[], by rw [List.append_nil]; exact hentered, ?_⟩
    have hcalls : unqueued l (.counted ⟨k, { r with topic := c.topic k }⟩ :: s.appends) =
        called c l [.log k r] ++ unqueued l s.appends := by
      exact recordsOf_append l [_] _
    rw [List.nil_append, hcalls]
    exact List.perm_append_comm.subperm
  | checkStop i e hget => exact .same rfl (unqueued_perm (perm_cons_eraseIdx hget) l).symm
  | push i e hget =>
    have hcalls := unqueued_perm (perm_cons_eraseIdx hget) l
    have hadmitted : unqueued l (.admitted e :: s.appends.eraseIdx i) =
        (if e.logger = l then [e.record] else []) ++ unqueued l (s.appends.eraseIdx i) :=
      recordsOf_cons l e _
    refine ⟨if e.logger = l then [e.record] else [], ?_, ?_⟩
    · simp only [State.modifyLogger_loggers]
      by_cases hl : l = e.logger
      · simp [hl, Logger.enter]
      · simp [hl, Ne.symm hl]
    · rw [hadmitted] at hcalls
      exact hcalls.symm.subperm.trans (List.sublist_append_left _ _).subperm
  | leave i woken e needFlush u hget hnotify =>
    have hsame := sameRecords_of_leave hnotify
    refine .same ?_ ?_
    · have hleft := u.modifyLogger_keep (f := Logger.leave e.record) Logger.entered e.logger
        (fun _ => rfl) l
      rw [hleft, hsame.loggers]
    · rw [← hsame.appends] at hget ⊢
      exact (unqueued_perm (perm_cons_eraseIdx hget) l).symm
  | notify id woken u hpc hnotify | notifyStop woken u hpc hnotify =>
    have hsame := hnotify.sameRecords
    have hentered := congrArg (fun x => (x l).entered) hsame.loggers
    exact .same hentered (List.Perm.of_eq (congrArg (unqueued l) hsame.appends))
  | work _ hwork =>
    cases hwork with
    | headStop | headGo | lock | testReady | testNone | sleep | expired | swap =>
      exact .same rfl (List.Perm.refl _)
    | drain d _ hpc hdrain =>
      have happends : t.appends = s.appends := by cases hdrain <;> rfl
      refine .same ((drain_calls hdrain).entered l) ?_
      rw [happends]

theorem run_placed {acts : List Act} (h : exec (step c) t acts = some s) (l : ℕ) :
    Placed c l t acts s := by
  induction acts generalizing t with
  | nil =>
    obtain rfl := Option.some.inj h
    exact .refl c l t
  | cons a rest ih =>
    obtain ⟨u, hu, hrest⟩ := exec_cons_eq_some.mp h
    exact (step_placed hu l).trans (ih hrest)

/-- A logger queues what it has been called with. -/
theorem entered_subperm_called {acts : List Act} (h : exec (step c) init acts = some s) (l : ℕ) :
    ((s.loggers l).entered).Subperm (called c l acts) := by
  obtain ⟨rest, hentered, hledger⟩ := run_placed h l
  have hrest : (s.loggers l).entered = rest := hentered
  rw [hrest]
  exact (List.sublist_append_left rest _).subperm.trans hledger

end Ledger

/-- At any moment of a run the records of the calls that have returned are among those
that the logger has queued, and these are of calls that have begun. What it queues from
then on stands behind them, and is of calls that had not queued their record or begin
later. In this order the records are written. -/
theorem logged_in_call_order {c : Config} {first second : List Act} {t s : State}
    (hfirst : exec (step c) init first = some t) (hsecond : exec (step c) t second = some s)
    (l : ℕ) :
    (t.loggers l).returned.Subperm (t.loggers l).entered ∧
      (t.loggers l).entered.Subperm (called c l first) ∧
      (∃ back, (s.loggers l).entered = (t.loggers l).entered ++ back ∧
        back.Subperm (unqueued l t.appends ++ called c l second)) ∧
      (s.loggers l).written <+: (s.loggers l).entered ∧
      (s.worker = .ended → (s.loggers l).written = (s.loggers l).entered) ∧
      (s.loggers l).output = (s.loggers l).written.flatMap (c.line l) := by
  have hreturned := (run_queued hfirst l).subperm
  obtain ⟨back, hentered, hledger⟩ := run_placed hsecond l
  have hrun : exec (step c) init (first ++ second) = some s := by
    rw [exec_append, hfirst]
    exact hsecond
  obtain ⟨hwritten, hwhole⟩ := (run_delivering hrun).written l
  exact ⟨(List.sublist_append_left _ _).subperm.trans hreturned, entered_subperm_called hfirst l,
    ⟨back, hentered, (List.sublist_append_left back _).subperm.trans hledger⟩, hwritten, hwhole,
    (run_delivering hrun).1.output l⟩

def sampleFirst : List Act :=
  [.log 0 ⟨0, .error, "", 2, ⟨"", 0⟩, ""⟩, .checkStop 0] ++
    [.log 0 ⟨0, .error, "", 1, ⟨"", 0⟩, ""⟩, .checkStop 0, .push 0, .leave 0 none]

def sampleSecond : List Act :=
  sampleCall 0 3 ++ [.push 0, .leave 0 none, .stop, .notifyStop none] ++ List.replicate 16 .work

theorem logged_in_call_order_sample : ∃ t s,
    exec (step sampleConfig) init sampleFirst = some t ∧
      exec (step sampleConfig) t sampleSecond = some s ∧
        (t.loggers 0).returned.map Record.tid = [1] ∧
          (s.loggers 0).written.map Record.tid = [1, 3, 2] ∧
            ∃ back, (s.loggers 0).written = (t.loggers 0).entered ++ back ∧
              back.Subperm (unqueued 0 t.appends ++ called sampleConfig 0 sampleSecond) := by
  have hrun : ((exec (step sampleConfig) init sampleFirst).bind fun t =>
      (exec (step sampleConfig) t sampleSecond).map fun s =>
        (s.worker, (t.loggers 0).returned.map Record.tid,
          (s.loggers 0).written.map Record.tid)) = some (.ended, [1], [1, 3, 2]) := by
    decide +kernel
  obtain ⟨t, ht, hrun'⟩ := Option.bind_eq_some_iff.mp hrun
  obtain ⟨s, hs, hvalues⟩ := Option.map_eq_some_iff.mp hrun'
  simp only [Prod.mk.injEq] at hvalues
  obtain ⟨hended, hreturned, hwritten⟩ := hvalues
  obtain ⟨-, -, ⟨back, hentered, hback⟩, -, hall, -⟩ := logged_in_call_order ht hs 0
  exact ⟨t, s, ht, hs, hreturned, hwritten, back, (hall hended).trans hentered, hback⟩

end Bc.LogCalls
