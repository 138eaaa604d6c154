import Bc.Coroutines
import Mathlib.Data.List.Nodup

/-!
Where the handle of a suspended coroutine is: in a timer, in a waiter on a
descriptor, or in the task that the coroutine awaits. Each suspension puts it
in one place and each resumption takes it from there.
-/
namespace Bc.HandleOwnership

open Scheduling Coroutines
open EventLoop hiding Act step Step step_cases

/-- All places that hold a handle: the queues of the scheduler and the `prev`
fields of the unfinished tasks. -/
def held (s : Runtime) : List Frame := queued handleFrame s.loop ++ s.live.filterMap s.prev

/-- A task is awaited by one coroutine at most, and destroyed only at its end. -/
def Disciplined (s : Runtime) : Act → Prop
  | .awaitTask task => task ∈ s.live → s.prev task = none
  | .destroyTask task => task ∈ s.finished
  | _ => True

instance (s : Runtime) (a : Act) : Decidable (Disciplined s a) :=
  match a with
  | .awaitTask _ => inferInstanceAs (Decidable (_ → _))
  | .destroyTask _ => inferInstanceAs (Decidable (_ ∈ _))
  | .start _ | .sleep _ | .awaitSocket _ _ | .finish | .openSocket _ | .closeSocket _
  | .leave | .refuse | .sched _ =>
    inferInstanceAs (Decidable True)

/-- An unfinished coroutine runs or is held, once; and what is held is what
has been suspended more often than resumed. -/
structure HeldOnce (s : Runtime) : Prop where
  nodup : s.live.Nodup
  apart : ∀ coro ∈ s.finished, coro ∉ s.live
  place : ∀ coro, (held s).count coro + s.stack.count coro = s.live.count coro
  balance : ∀ coro, s.suspensions coro = s.resumptions coro + (held s).count coro

theorem HeldOnce.live_of_held {s : Runtime} {coro : Frame} (hs : HeldOnce s)
    (hheld : coro ∈ held s) : coro ∈ s.live := by
  have hplace := hs.place coro
  have hcount := List.count_pos_iff.mpr hheld
  exact List.count_pos_iff.mp (by omega)

theorem HeldOnce.live_of_running {s : Runtime} {coro : Frame} (hs : HeldOnce s)
    (hrunning : coro ∈ s.stack) : coro ∈ s.live := by
  have hplace := hs.place coro
  have hcount := List.count_pos_iff.mpr hrunning
  exact List.count_pos_iff.mp (by omega)

theorem start_heldOnce : HeldOnce start := by
  refine ⟨List.nodup_nil, by simp [start], ?_, ?_⟩
  · intro coro
    rfl
  · intro coro
    rfl

theorem filterMap_perm_erase {l : List Frame} {task : Frame} (htask : task ∈ l)
    (f : Frame → Option Frame) :
    (l.filterMap f).Perm ((f task).toList ++ (l.erase task).filterMap f) := by
  have h := (List.perm_cons_erase htask).filterMap f
  cases hf : f task <;> simpa [hf] using h

theorem filterMap_update {l : List Frame} {task : Frame} (htask : task ∉ l)
    (f : Frame → Option Frame) (v : Option Frame) :
    l.filterMap (Function.update f task v) = l.filterMap f := by
  apply List.filterMap_congr
  intro coro hcoro
  apply Function.update_of_ne
  intro heq
  rw [heq] at hcoro
  exact htask hcoro

/-- The step of a coroutine that leaves the stack for one of the places. -/
theorem HeldOnce.suspended {s s' : Runtime} {coro : Frame} {below : List Frame} (hs : HeldOnce s)
    (hstack : s.stack = coro :: below) (hheld : (held s').Perm (coro :: held s))
    (hlive : s'.live = s.live) (hfinished : s'.finished = s.finished)
    (hstack' : s'.stack = below) (hsuspensions : s'.suspensions = tally s.suspensions [coro])
    (hresumptions : s'.resumptions = s.resumptions) : HeldOnce s' := by
  refine ⟨?_, ?_, ?_, ?_⟩
  · rw [hlive]
    exact hs.nodup
  · rw [hlive, hfinished]
    exact hs.apart
  · intro other
    have hplace := hs.place other
    rw [hstack, List.count_cons] at hplace
    rw [hstack', hlive, hheld.count_eq, List.count_cons]
    omega
  · intro other
    have hbalance := hs.balance other
    rw [hsuspensions, hresumptions, hheld.count_eq, List.count_cons]
    simp only [tally, List.count_cons, List.count_nil]
    omega

/-- The step of the scheduler or of the resumed code that moves no handle. -/
theorem HeldOnce.of_queued {s : Runtime} {loop : EventLoop.State} (hs : HeldOnce s)
    (h : queued handleFrame loop = queued handleFrame s.loop) :
    HeldOnce { s with loop := loop } := by
  have hheld : held { s with loop := loop } = held s := by
    simp only [held, h]
  refine ⟨hs.nodup, hs.apart, ?_, ?_⟩
  · intro coro
    rw [hheld]
    exact hs.place coro
  · intro coro
    rw [hheld]
    exact hs.balance coro

theorem HeldOnce.started {s : Runtime} {coro : Frame} (hs : HeldOnce s) (hlive : coro ∉ s.live)
    (hfinished : coro ∉ s.finished) :
    HeldOnce { s with
      stack := coro :: s.stack
      live := coro :: s.live
      prev := Function.update s.prev coro none } := by
  have hheld : held { s with
      stack := coro :: s.stack
      live := coro :: s.live
      prev := Function.update s.prev coro none } = held s := by
    simp [held, filterMap_update hlive]
  refine ⟨List.nodup_cons.mpr ⟨hlive, hs.nodup⟩, ?_, ?_, ?_⟩
  · intro other hother hmem
    rcases List.mem_cons.mp hmem with rfl | hold
    · exact hfinished hother
    · exact hs.apart other hother hold
  · intro other
    have hplace := hs.place other
    rw [hheld, List.count_cons, List.count_cons]
    omega
  · intro other
    rw [hheld]
    exact hs.balance other

theorem HeldOnce.suspend {s : Runtime} {coro : Frame} {below : List Frame}
    {loop : EventLoop.State} (hs : HeldOnce s) (hstack : s.stack = coro :: below)
    (h : (queued handleFrame loop).Perm (coro :: queued handleFrame s.loop)) :
    HeldOnce (s.suspend coro below loop) := by
  refine hs.suspended hstack ?_ rfl rfl rfl rfl rfl
  exact h.append_right (s.live.filterMap s.prev)

theorem HeldOnce.await {s : Runtime} {task coro : Frame} {below : List Frame} (hs : HeldOnce s)
    (hstack : s.stack = coro :: below) (hlive : task ∈ s.live) (hprev : s.prev task = none) :
    HeldOnce (s.await task coro below) := by
  refine hs.suspended hstack ?_ rfl rfl rfl rfl rfl
  have hold := filterMap_perm_erase hlive s.prev
  have hnew := filterMap_perm_erase hlive (Function.update s.prev task (some coro))
  rw [hprev, Option.toList_none, List.nil_append] at hold
  rw [Function.update_self, Option.toList_some, List.singleton_append,
    filterMap_update hs.nodup.not_mem_erase] at hnew
  have hprevs := hnew.trans (hold.symm.cons coro)
  exact (hprevs.append_left (queued handleFrame s.loop)).trans List.perm_middle

theorem HeldOnce.finish {s : Runtime} {coro : Frame} {below : List Frame} (hs : HeldOnce s)
    (hstack : s.stack = coro :: below) : HeldOnce (s.finish coro below) := by
  have hlive : coro ∈ s.live := hs.live_of_running (by rw [hstack]; exact List.mem_cons_self ..)
  have hheld : (held s).Perm ((s.prev coro).toList ++ held (s.finish coro below)) := by
    have h := filterMap_perm_erase hlive s.prev
    refine (h.append_left (queued handleFrame s.loop)).trans ?_
    exact List.perm_append_comm_assoc _ _ _
  refine ⟨hs.nodup.erase coro, ?_, ?_, ?_⟩
  · intro other hother hmem
    rcases List.mem_cons.mp hother with rfl | hold
    · exact hs.nodup.not_mem_erase hmem
    · exact hs.apart other hold (List.mem_of_mem_erase hmem)
  · intro other
    have hplace := hs.place other
    rw [hheld.count_eq, hstack, List.count_append, List.count_cons] at hplace
    simp only [Runtime.finish, List.count_append, List.count_erase] at hplace ⊢
    omega
  · intro other
    have hbalance := hs.balance other
    rw [hheld.count_eq, List.count_append] at hbalance
    simp only [Runtime.finish, tally] at hbalance ⊢
    omega

theorem HeldOnce.destroyTask {s : Runtime} {task : Frame} (hs : HeldOnce s)
    (hfinished : task ∈ s.finished) : HeldOnce (s.destroyTask task) := by
  have hlive : s.live.erase task = s.live := List.erase_of_not_mem (hs.apart task hfinished)
  have hheld : held (s.destroyTask task) = held s := by
    simp only [held, Runtime.destroyTask, hlive]
  refine ⟨?_, ?_, ?_, ?_⟩
  · simp only [Runtime.destroyTask, hlive]
    exact hs.nodup
  · intro other hother
    simp only [Runtime.destroyTask, hlive] at hother ⊢
    exact hs.apart other (List.mem_of_mem_erase hother)
  · intro other
    rw [hheld]
    simp only [Runtime.destroyTask, hlive]
    exact hs.place other
  · intro other
    rw [hheld]
    exact hs.balance other

theorem HeldOnce.enter {s : Runtime} {loop : EventLoop.State} (hs : HeldOnce s)
    (hstack : s.stack = [])
    (h : (queued handleFrame loop ++ entered loop.pc).Perm (queued handleFrame s.loop)) :
    HeldOnce (s.enter loop) := by
  have hheld : (held s).Perm (entered loop.pc ++ held (s.enter loop)) := by
    refine (h.symm.append_right (s.live.filterMap s.prev)).trans ?_
    refine (List.perm_append_comm.append_right _).trans ?_
    rw [List.append_assoc]
    exact List.Perm.refl _
  refine ⟨hs.nodup, hs.apart, ?_, ?_⟩
  · intro other
    have hplace := hs.place other
    rw [hheld.count_eq, hstack, List.count_append, List.count_nil] at hplace
    simp only [Runtime.enter] at hplace ⊢
    omega
  · intro other
    have hbalance := hs.balance other
    rw [hheld.count_eq, List.count_append] at hbalance
    simp only [Runtime.enter, tally] at hbalance ⊢
    omega

theorem step_heldOnce {s s' : Runtime} {a : Act} (hs : HeldOnce s) (hd : Disciplined s a)
    (h : step s a = some s') : HeldOnce s' := by
  cases step_cases h with
  | start coro hactive hlive hfinished hdestroyed => exact hs.started hlive hfinished
  | sleep tp coro below loop hstack hpost => exact hs.suspend hstack (queued_postTimer hpost)
  | awaitSocket awaiter fd coro below loop hstack hpost =>
    have hqueued : (queued handleFrame loop).Perm (_ ++ queued handleFrame s.loop) :=
      queued_postCoro hpost
    rw [handleFrame, awaiter.next_frame, List.singleton_append] at hqueued
    exact hs.suspend hstack hqueued
  | awaitDone => exact hs
  | awaitTask task coro below hstack hlive => exact hs.await hstack hlive (hd hlive)
  | finish coro below hstack => exact hs.finish hstack
  | destroyTask task => exact hs.destroyTask hd
  | openSocket fd loop hopen => exact hs.of_queued (queued_openSocket hopen)
  | closeSocket fd loop hclose => exact hs.of_queued (queued_closeSocket hclose)
  | leave loop hstack hleave => exact hs.of_queued (queued_resumed hleave)
  | refuse called loop hstack hturn hcall hproxy hrefuse =>
    exact hs.of_queued (queued_refused hturn hproxy hcall hrefuse)
  | sched a loop hstack hsched hloop => exact hs.enter hstack (queued_scheduling hloop hsched)

theorem run_heldOnce {acts : List Act} {s : Runtime}
    (hd : Runs.Along step Disciplined start acts) (h : Runs.exec step start acts = some s) :
    HeldOnce s :=
  Runs.exec_invariant (fun _ _ _ hs hP hstep => step_heldOnce hs hP hstep) start_heldOnce hd h

/-- What the scheduler resumes has not ended, as the expiry loop asserts. -/
theorem resumes_unfinished {acts : List Act} {s s' : Runtime} {a : EventLoop.Act}
    (hd : Runs.Along step Disciplined start acts) (h : Runs.exec step start acts = some s)
    (hstep : step s (.sched a) = some s') : ∀ coro ∈ entered s'.loop.pc, coro ∈ s.live := by
  intro coro hcoro
  cases step_cases hstep with
  | sched _ loop hstack hsched hloop =>
    have hqueued : (_ ++ entered loop.pc).Perm (queued handleFrame s.loop) :=
      queued_scheduling hloop hsched
    apply (run_heldOnce hd h).live_of_held
    apply List.mem_append_left
    exact hqueued.subset (List.mem_append_right _ hcoro)

/-- When `run` returns, a coroutine that has not ended waits for a task that
has not ended either. -/
theorem left_over_awaits {acts : List Act} {s : Runtime}
    (hd : Runs.Along step Disciplined start acts) (h : Runs.exec step start acts = some s)
    (hpc : s.loop.pc = .finished) (hstack : s.stack = []) :
    ∀ coro ∈ s.live, ∃ task ∈ s.live, s.prev task = some coro := by
  intro coro hcoro
  obtain ⟨acts', hloop⟩ := run_loop h
  obtain ⟨htimers, hnodes⟩ := WaiterCount.run_finished_empty hloop hpc
  have hplace := (run_heldOnce hd h).place coro
  have hlive := List.count_pos_iff.mpr hcoro
  rw [hstack, List.count_nil] at hplace
  have hheld : coro ∈ held s := List.count_pos_iff.mp (by omega)
  simpa [held, queued, waiting, parkedIn, htimers, hnodes, hpc] using hheld

/-- `coro` has awaited `task`, and `task` has not ended or still knows it. -/
def AwaitedBy (task coro : Frame) (s : Runtime) : Prop :=
  (task ∈ s.live ∧ s.prev task = some coro) ∨
    (task ∉ s.live ∧ (task ∈ s.finished ∨ task ∈ s.destroyed))

theorem step_awaitedBy {task coro : Frame} {s s' : Runtime} {a : Act} (hs : HeldOnce s)
    (hawaited : AwaitedBy task coro s) (hd : Disciplined s a) (h : step s a = some s') :
    AwaitedBy task coro s' := by
  cases step_cases h with
  | sleep | awaitSocket | awaitDone | openSocket | closeSocket | leave | refuse | sched =>
    exact hawaited
  | start new hactive hlive hfinished hdestroyed =>
    rcases hawaited with ⟨hmem, hprev⟩ | ⟨hnot, hended⟩
    · have hne : task ≠ new := by
        intro heq
        rw [heq] at hmem
        exact hlive hmem
      exact Or.inl ⟨List.mem_cons_of_mem new hmem, (Function.update_of_ne hne _ _).trans hprev⟩
    · refine Or.inr ⟨?_, hended⟩
      intro hmem
      rcases List.mem_cons.mp hmem with rfl | hold
      · exact hended.elim hfinished hdestroyed
      · exact hnot hold
  | awaitTask other runner below hstack hlive =>
    rcases hawaited with ⟨hmem, hprev⟩ | hended
    · have hne : task ≠ other := by
        intro heq
        rw [heq, hd hlive] at hprev
        cases hprev
      exact Or.inl ⟨hmem, (Function.update_of_ne hne _ _).trans hprev⟩
    · exact Or.inr hended
  | finish runner below hstack =>
    by_cases heq : task = runner
    · subst heq
      exact Or.inr ⟨hs.nodup.not_mem_erase, Or.inl (List.mem_cons_self ..)⟩
    · rcases hawaited with ⟨hmem, hprev⟩ | ⟨hnot, hended⟩
      · exact Or.inl ⟨(List.mem_erase_of_ne heq).mpr hmem, hprev⟩
      · refine Or.inr ⟨fun hmem => hnot (List.mem_of_mem_erase hmem), ?_⟩
        exact hended.imp (List.mem_cons_of_mem runner) id
  | destroyTask other =>
    have hlive : s.live.erase other = s.live := List.erase_of_not_mem (hs.apart other hd)
    rcases hawaited with ⟨hmem, hprev⟩ | ⟨hnot, hended⟩
    · exact Or.inl ⟨by simpa only [Runtime.destroyTask, hlive] using hmem, hprev⟩
    · refine Or.inr ⟨by simpa only [Runtime.destroyTask, hlive] using hnot, ?_⟩
      by_cases heq : task = other
      · subst heq
        exact Or.inr (List.mem_cons_self ..)
      · exact hended.imp (List.mem_erase_of_ne heq).mpr (List.mem_cons_of_mem other)

/-- What a coroutine that is running has awaited has come to its end. -/
theorem AwaitedBy.ended {task coro : Frame} {s : Runtime} (h : AwaitedBy task coro s)
    (hs : HeldOnce s) (hrunning : coro ∈ s.stack) : task ∉ s.live := by
  rcases h with ⟨hmem, hprev⟩ | ⟨hnot, -⟩
  · -- Its handle would be in `prev` and on the stack at once.
    have hheld : coro ∈ held s := by
      apply List.mem_append_right
      exact List.mem_filterMap.mpr ⟨task, hmem, hprev⟩
    have hplace := hs.place coro
    have hone := List.nodup_iff_count_le_one.mp hs.nodup coro
    have hcount := List.count_pos_iff.mpr hheld
    have hcount' := List.count_pos_iff.mpr hrunning
    omega
  · exact hnot

theorem run_awaitedBy {before after : List Act} {t s : Runtime} {task coro : Frame}
    {below : List Frame}
    (hd : Runs.Along step Disciplined start (before ++ .awaitTask task :: after))
    (hbefore : Runs.exec step start before = some t) (hstack : t.stack = coro :: below)
    (hlive : task ∈ t.live) (h : Runs.exec step t (.awaitTask task :: after) = some s) :
    AwaitedBy task coro s := by
  obtain ⟨hd', hd''⟩ := Runs.along_append.mp hd
  have ht := run_heldOnce hd' hbefore
  obtain ⟨hfirst, hlater⟩ := Runs.along_cons.mp (hd'' t hbefore)
  obtain ⟨u, hu, hrest⟩ := Runs.exec_cons_eq_some.mp h
  have hawaited : AwaitedBy task coro u := by
    cases step_cases hu with
    | awaitDone _ runner below' hstack' hdone => exact absurd hlive (ht.apart task hdone)
    | awaitTask _ runner below' hstack' _ =>
      rw [hstack] at hstack'
      obtain ⟨rfl, rfl⟩ := List.cons.inj hstack'
      exact Or.inl ⟨hlive, by simp [Runtime.await]⟩
  refine (Runs.exec_invariant (I := fun s => HeldOnce s ∧ AwaitedBy task coro s) ?_
    ⟨step_heldOnce ht hfirst hu, hawaited⟩ (hlater u hu) hrest).2
  intro s a s' hs hP hstep
  exact ⟨step_heldOnce hs.1 hP hstep, step_awaitedBy hs.1 hs.2 hP hstep⟩

/-- Between two resumptions the handle of every unfinished coroutine is in one
place and that of a finished one in none; each suspension is resumed once; and
a coroutine that awaits a task runs again only when the task has ended. -/
theorem handle_held_once {acts : List Act} {s : Runtime}
    (hd : Runs.Along step Disciplined start acts) (h : Runs.exec step start acts = some s) :
    (s.stack = [] → ∀ coro ∈ s.live, (held s).count coro = 1) ∧
      (∀ coro ∈ s.finished, coro ∉ held s) ∧
      (∀ coro, s.suspensions coro = s.resumptions coro + (held s).count coro) ∧
      ∀ before after t task coro below, acts = before ++ .awaitTask task :: after →
        Runs.exec step start before = some t → t.stack = coro :: below → task ∈ t.live →
          coro ∈ s.stack → task ∉ s.live := by
  have hs := run_heldOnce hd h
  refine ⟨?_, ?_, hs.balance, ?_⟩
  · intro hstack coro hcoro
    have hplace := hs.place coro
    have hone := List.nodup_iff_count_le_one.mp hs.nodup coro
    have hcount := List.count_pos_iff.mpr hcoro
    rw [hstack, List.count_nil] at hplace
    omega
  · intro coro hfinished hheld
    exact hs.apart coro hfinished (hs.live_of_held hheld)
  · intro before after t task coro below hacts hbefore hstack hlive hrunning
    subst hacts
    have hrest : Runs.exec step t (.awaitTask task :: after) = some s := by
      rw [Runs.exec_append, hbefore] at h
      exact h
    exact (run_awaitedBy hd hbefore hstack hlive hrest).ended hs hrunning

/-- While the accept is dispatched, one coroutine is held by its task and the
task by its timer. -/
theorem handle_held_once_sample : ∃ s, Runs.exec step start (sampleRun.take 16) = some s ∧
    s.live = [1, 0] ∧ s.finished = [2] ∧ (held s).count 0 = 1 ∧ (held s).count 1 = 1 ∧
      2 ∉ held s := by
  have hrun : ((Runs.exec step start (sampleRun.take 16)).map fun s =>
      (s.stack, s.live, s.finished)) = some ([], [1, 0], [2]) := by
    decide +kernel
  obtain ⟨s, hs, heq⟩ := Option.map_eq_some_iff.mp hrun
  simp only [Prod.mk.injEq] at heq
  obtain ⟨hstack, hlive, hfinished⟩ := heq
  obtain ⟨honce, hnone, -⟩ := handle_held_once (by decide +kernel) hs
  refine ⟨s, hs, hlive, hfinished, honce hstack 0 ?_, honce hstack 1 ?_, hnone 2 ?_⟩
  · simp [hlive]
  · simp [hlive]
  · simp [hfinished]

end Bc.HandleOwnership
