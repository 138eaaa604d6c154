import Bc.FlushWaiters

/-!
Whether a call of `flush` is woken. It sleeps on `cv_` of the worker, while
`drain_` signals the condition variable of the waiter. So a caller that is
asleep when it is signalled depends on a notification of `cv_` that somebody
else makes.
-/
namespace Bc.FlushWakeups

open Runs OrderedMaps LogWorker LogDelivery FlushWaiters

/-- The caller is asleep, the worker has flagged and signalled its waiter, and
`cv_` has not been notified since. -/
def Lost (s : State) (id : ℕ) : Prop :=
  (s.flushes id).pc = .asleep ∧ (s.flushes id).flushed = true ∧
    (s.flushes id).signalled = true ∧ (s.flushes id).heard = false

instance (s : State) (id : ℕ) : Decidable (Lost s id) := inferInstanceAs (Decidable (_ ∧ _))

/-- A waiter is signalled only while its caller is awake, and a caller goes to
sleep only before that, a notification of `cv_` since the flag excepted. -/
def SignalsAwake (s : State) : Act → Prop
  | .work => ∀ id ∈ s.worker.signalling, (s.flushes id).pc = .asleep →
      (s.flushes id).heard = true
  | .sleep id => (s.flushes id).flushed = true → (s.flushes id).signalled = true →
      (s.flushes id).heard = true
  | _ => True

instance (s : State) (a : Act) : Decidable (SignalsAwake s a) :=
  match a with
  | .work => inferInstanceAs (Decidable (∀ id ∈ s.worker.signalling, (_ = _ → _)))
  | .sleep id => inferInstanceAs (Decidable ((s.flushes id).flushed = true → (_ = _ → _)))
  | .log _ _ | .setLevel _ _ | .checkStop _ | .push _ | .leave _ _ | .flush | .register _
  | .notify _ _ | .testFlag _ | .wake _ | .stop | .notifyStop _ | .wakeWorker _ =>
    inferInstanceAs (Decidable True)

section Step

variable {c : Config} {s s' t : State} {id : ℕ}

theorem not_lost_of_eq (h : ¬Lost s id) (ht : t.flushes id = s.flushes id) : ¬Lost t id := by
  rw [Lost, ht]
  exact h

theorem signalsAwake_of_other {a : Act} (hwork : a ≠ .work) (hsleep : ∀ id, a ≠ .sleep id) :
    SignalsAwake s a := by
  cases a with
  | work => exact absurd rfl hwork
  | sleep id => exact absurd rfl (hsleep id)
  | _ => trivial

theorem signalsAwake_of_quiet (h : s.worker.signalling = none) : SignalsAwake s .work := by
  intro id hid
  rw [h] at hid
  cases hid

/-- A call that goes to another place than sleep is not lost. -/
theorem move_not_lost {k : ℕ} {pc : FlushPc} (hpc : pc ≠ .asleep) (h : ∀ id, ¬Lost s id)
    (id : ℕ) : ¬Lost (s.setFlushPc k pc) id := by
  by_cases hid : id = k
  · intro hlost
    rw [Lost, State.setFlushPc, State.modifyFlush_flushes, if_pos hid] at hlost
    exact hpc hlost.1
  · refine not_lost_of_eq (h id) ?_
    rw [State.setFlushPc, State.modifyFlush_flushes, if_neg hid]

theorem notified_not_lost {woken : Option Sleeper} (hnotify : Notified s woken t) (id : ℕ) :
    ¬Lost t id := by
  have hheard : ∀ id, ¬Lost s.notified id := by
    intro id hlost
    obtain ⟨-, hflushed, -, hheard⟩ := hlost
    simp only [State.notified, Bool.or_eq_false_iff] at hflushed hheard
    rw [hflushed] at hheard
    cases hheard.2
  cases hnotify with
  | worker hpc => exact hheard id
  | flush k hpc => exact move_not_lost (by decide) hheard id
  | nobody => exact hheard id

theorem step_signals {a : Act} (henrolled : Enrolled s) (h : ∀ id, ¬Lost s id)
    (ha : step c s a = some s') : (∀ id, ¬Lost s' id) ↔ SignalsAwake s a := by
  cases step_flushes ha with
  | same _ _ hsame hwork hsleep =>
    refine iff_of_true ?_ (signalsAwake_of_other hwork hsleep)
    exact fun id => not_lost_of_eq (h id) (by rw [hsame.flushes])
  | work _ hsame hsignal =>
    refine iff_of_true ?_ (signalsAwake_of_quiet hsignal)
    exact fun id => not_lost_of_eq (h id) (by rw [hsame.flushes])
  | cvNotified _ woken u _ hnotify hsame hwork hsleep =>
    refine iff_of_true ?_ (signalsAwake_of_other hwork hsleep)
    exact fun id => not_lost_of_eq (notified_not_lost hnotify id) (by rw [hsame.flushes])
  | flush => exact iff_of_true (move_not_lost (by nofun) h) trivial
  | register k hpc => exact iff_of_true (move_not_lost (by nofun) h) trivial
  | notify k woken u hpc hnotify =>
    exact iff_of_true (move_not_lost (by nofun) (notified_not_lost hnotify)) trivial
  | testFlag k pc hpc hnext =>
    refine iff_of_true (move_not_lost ?_ h) trivial
    rcases hnext with rfl | rfl <;> nofun
  | sleep k hpc =>
    constructor
    · intro hnext hflushed hsignalled
      have hk := hnext k
      rw [Lost, State.setFlushPc, State.modifyFlush_flushes, if_pos rfl] at hk
      by_contra hheard
      exact hk ⟨rfl, hflushed, hsignalled, Bool.not_eq_true _ ▸ hheard⟩
    · intro hsafe id
      by_cases hid : id = k
      · subst hid
        rintro ⟨-, hlost⟩
        rw [State.setFlushPc, State.modifyFlush_flushes, if_pos rfl] at hlost
        have hheard := hsafe hlost.1 hlost.2.1
        exact Bool.false_ne_true (hlost.2.2.symm.trans hheard)
      · refine not_lost_of_eq (h id) ?_
        rw [State.setFlushPc, State.modifyFlush_flushes, if_neg hid]
  | wake k hpc => exact iff_of_true (move_not_lost (by nofun) h) trivial
  | take last hidle hsignal => exact iff_of_true h (signalsAwake_of_quiet hsignal)
  | flag d k rest hworker hpc hwaiters =>
    refine iff_of_true ?_ (signalsAwake_of_quiet (by rw [hworker, Pc.signalling, hpc]; rfl))
    intro id
    by_cases hid : id = k
    · rintro ⟨-, -, hsignalled, -⟩
      simp only [State.drainAt, State.modifyFlush_flushes, if_pos hid] at hsignalled
      cases hsignalled
    · refine not_lost_of_eq (h id) ?_
      simp only [State.drainAt, State.modifyFlush_flushes, if_neg hid]
  | signal d k hworker hpc =>
    have hsignalling : s.worker.signalling = some k := by
      rw [hworker, Pc.signalling, hpc]
      rfl
    have hflushed := henrolled.signalled k hsignalling
    constructor
    · intro hnext id hid hasleep
      obtain rfl : k = id := Option.some.inj (hsignalling.symm.trans hid)
      have hk := hnext k
      simp only [Lost, State.drainAt, State.modifyFlush_flushes, if_true] at hk
      by_contra hheard
      exact hk ⟨hasleep, hflushed, trivial, Bool.not_eq_true _ ▸ hheard⟩
    · intro hsafe id
      by_cases hid : id = k
      · subst hid
        rintro ⟨hasleep, -, -, hheard⟩
        simp only [State.drainAt, State.modifyFlush_flushes, if_true] at hasleep hheard
        exact Bool.false_ne_true (hheard.symm.trans (hsafe id hsignalling hasleep))
      · refine not_lost_of_eq (h id) ?_
        simp only [State.drainAt, State.modifyFlush_flushes, if_neg hid]

end Step

/-- In a run of any length no caller is lost exactly when the worker finds
every caller awake that it signals. -/
theorem flush_woken_iff {c : Config} {acts : List Act} {s : State}
    (h : exec (step c) init acts = some s) :
    Throughout (step c) (fun s => ∀ id, ¬Lost s id) init acts ↔
      Along (step c) SignalsAwake init acts := by
  refine throughout_iff_along (I := Enrolled) (fun _ _ _ hs ha => step_enrolled hs ha)
    (fun _ _ _ hs hQ ha => step_signals hs hQ ha) init_enrolled ?_ h
  intro id hlost
  cases hlost.1

def promptRun : List Act :=
  List.flatten
    [[.flush, .register 0], List.replicate 4 .work, [.wakeWorker true],
      List.replicate 6 .work, [.notify 0 none, .testFlag 0]]

theorem flush_woken_iff_sample : ∃ s, exec (step sampleConfig) init promptRun = some s ∧
    (s.flushes 0).pc = .returned ∧
      Throughout (step sampleConfig) (fun s => ∀ id, ¬Lost s id) init promptRun := by
  have hrun : ((exec (step sampleConfig) init promptRun).map fun s => (s.flushes 0).pc) =
      some .returned := by
    decide +kernel
  obtain ⟨s, hs, hpc⟩ := Option.map_eq_some_iff.mp hrun
  exact ⟨s, hs, hpc, (flush_woken_iff hs).mpr (by decide +kernel)⟩

/-- The notification of `flush` wakes the worker, which finds no record and
sleeps again. When its wait has ended it sets the flag of the caller, who
sleeps on. -/
def lostRun : List Act :=
  List.flatten
    [List.replicate 4 .work,
      [.flush, .register 0, .notify 0 (some .worker), .testFlag 0, .sleep 0],
      List.replicate 3 .work, [.wakeWorker true], List.replicate 6 .work]

theorem flushed_caller_sleeps_on :
    ¬ ∀ acts s, exec (step sampleConfig) init acts = some s → ∀ id, ¬Lost s id := by
  intro h
  have hrun : ((exec (step sampleConfig) init lostRun).map fun s => decide (Lost s 0)) =
      some true := by
    decide +kernel
  obtain ⟨s, hs, hlost⟩ := Option.map_eq_some_iff.mp hrun
  exact h lostRun s hs 0 (of_decide_eq_true hlost)

end Bc.FlushWakeups
