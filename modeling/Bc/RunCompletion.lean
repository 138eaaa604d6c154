import Bc.HandleOwnership
import Mathlib.Dynamics.PeriodicPts.Lemmas

/-!
What is left when `run` returns. A coroutine that has not ended then is on a
cycle of coroutines that await each other, and there is none where a task is
awaited only by a coroutine that was started before it.
-/
namespace Bc.RunCompletion

open Scheduling Coroutines HandleOwnership

def Awaits (s : Runtime) (coro task : Frame) : Prop :=
  coro ∈ s.live ∧ task ∈ s.live ∧ s.prev task = some coro

theorem transGen_iterate {α : Type*} {r : α → α → Prop} {next : α → α} (h : ∀ a, r a (next a))
    (a : α) (n : ℕ) : Relation.TransGen r a (next^[n + 1] a) := by
  induction n with
  | zero => exact Relation.TransGen.single (h a)
  | succ n ih =>
    rw [Function.iterate_succ_apply']
    exact ih.tail (h _)

/-- Finitely many that each await one, and no two the same, await in cycles. -/
theorem on_cycle {α : Type*} [Finite α] {r : α → α → Prop} (next : α → α)
    (h : ∀ a, r a (next a)) (hinj : Function.Injective next) (a : α) : Relation.TransGen r a a := by
  obtain ⟨n, hpos, hperiod⟩ := Function.mem_periodicPts.mp (hinj.mem_periodicPts a)
  have hgen := transGen_iterate h a (n - 1)
  have hn : n - 1 + 1 = n := by omega
  rw [hn, hperiod.eq] at hgen
  exact hgen

/-- When `run` has returned, what has not ended is on a cycle. -/
theorem left_over_on_cycle {acts : List Act} {s : Runtime}
    (hd : Runs.Along step Disciplined start acts) (h : Runs.exec step start acts = some s)
    (hpc : s.loop.pc = .finished) (hstack : s.stack = []) {coro : Frame} (hlive : coro ∈ s.live) :
    Relation.TransGen (Awaits s) coro coro := by
  have hawaits := left_over_awaits hd h hpc hstack
  choose! task htask hprev using hawaits
  let next : {c // c ∈ s.live} → {c // c ∈ s.live} := fun c => ⟨task c, htask c c.2⟩
  have hinj : Function.Injective next := by
    intro c d heq
    have hsame : task c = task d := congrArg Subtype.val heq
    have hc := hprev c c.2
    rw [hsame, hprev d d.2] at hc
    exact Subtype.ext (Option.some.inj hc).symm
  have hcycle : Relation.TransGen (fun c d : {c // c ∈ s.live} => Awaits s c d)
      ⟨coro, hlive⟩ ⟨coro, hlive⟩ :=
    on_cycle next (fun c => ⟨c.2, htask c c.2, hprev c c.2⟩) hinj _
  exact hcycle.lift Subtype.val fun _ _ hedge => hedge

/-- Where every source of an edge satisfies `P`, so do the targets inside a
path, and the last one if it is given. -/
theorem transGen_targets {α : Type*} {r : α → α → Prop} {P : α → Prop}
    (h : ∀ a b, r a b → P a) {a b : α} (hab : Relation.TransGen r a b) (hb : P b) :
    Relation.TransGen (fun a b => r a b ∧ P b) a b := by
  induction hab using Relation.TransGen.head_induction_on with
  | single hac => exact Relation.TransGen.single ⟨hac, hb⟩
  | head hac hcb ih =>
    obtain ⟨d, hcd, -⟩ := Relation.TransGen.head'_iff.mp hcb
    exact Relation.TransGen.head ⟨hac, h _ d hcd⟩ ih

theorem awaits_of_prev {s : Runtime} {coro task : Frame} (hs : HeldOnce s) (htask : task ∈ s.live)
    (hprev : s.prev task = some coro) : Awaits s coro task := by
  refine ⟨hs.live_of_held ?_, htask, hprev⟩
  exact List.mem_append_right _ (List.mem_filterMap.mpr ⟨task, htask, hprev⟩)

theorem Awaits.suspended {s : Runtime} {coro task : Frame} (h : Awaits s coro task)
    (hs : HeldOnce s) : coro ∉ s.stack := by
  intro hrunning
  have hawaited : AwaitedBy task coro s := Or.inl ⟨h.2.1, h.2.2⟩
  exact hawaited.ended hs hrunning h.2.1

/-- While neither of the two runs, the one goes on awaiting the other. -/
theorem step_awaits {s s' : Runtime} {a : Act} {coro task : Frame} (hs : HeldOnce s)
    (hd : Disciplined s a) (h : step s a = some s') (hawaits : Awaits s coro task)
    (htask : task ∉ s.stack) : Awaits s' coro task := by
  have hcoro := hawaits.suspended hs
  obtain ⟨hlive, hlive', hprev⟩ := hawaits
  cases step_cases h with
  | sleep | awaitSocket | awaitDone | openSocket | closeSocket | leave | refuse | sched =>
    exact ⟨hlive, hlive', hprev⟩
  | start new hactive hnew hfinished hdestroyed =>
    refine ⟨List.mem_cons_of_mem new hlive, List.mem_cons_of_mem new hlive', ?_⟩
    have hne : task ≠ new := by
      intro heq
      rw [heq] at hlive'
      exact hnew hlive'
    exact (Function.update_of_ne hne _ _).trans hprev
  | awaitTask other runner below hstack hother =>
    refine ⟨hlive, hlive', ?_⟩
    have hne : task ≠ other := by
      intro heq
      rw [heq, hd hother] at hprev
      cases hprev
    exact (Function.update_of_ne hne _ _).trans hprev
  | finish runner below hstack =>
    have hrunner : runner ∈ s.stack := by
      rw [hstack]
      exact List.mem_cons_self ..
    have hne : coro ≠ runner := by
      intro heq
      rw [heq] at hcoro
      exact hcoro hrunner
    have hne' : task ≠ runner := by
      intro heq
      rw [heq] at htask
      exact htask hrunner
    exact ⟨(List.mem_erase_of_ne hne).mpr hlive, (List.mem_erase_of_ne hne').mpr hlive', hprev⟩
  | destroyTask other =>
    have hsame : s.live.erase other = s.live := List.erase_of_not_mem (hs.apart other hd)
    refine ⟨?_, ?_, hprev⟩
    · simpa only [Runtime.destroyTask, hsame] using hlive
    · simpa only [Runtime.destroyTask, hsame] using hlive'

theorem step_on_cycle {s s' : Runtime} {a : Act} {coro : Frame} (hs : HeldOnce s)
    (hd : Disciplined s a) (h : step s a = some s')
    (hcycle : Relation.TransGen (Awaits s) coro coro) :
    Relation.TransGen (Awaits s') coro coro := by
  obtain ⟨task, hfirst, -⟩ := Relation.TransGen.head'_iff.mp hcycle
  have hpath := transGen_targets (P := fun c => c ∉ s.stack)
    (fun _ _ hawaits => hawaits.suspended hs) hcycle (hfirst.suspended hs)
  refine hpath.lift id ?_
  intro c d hedge
  exact step_awaits hs hd h hedge.1 hedge.2

/-- Whatever follows, a coroutine on a cycle of coroutines that await each other
is never resumed and never ends; and when `run` has returned, those are all
that is left. -/
theorem left_over_iff_on_cycle {before after : List Act} {t s : Runtime}
    (hd : Runs.Along step Disciplined start (before ++ after))
    (hbefore : Runs.exec step start before = some t) (hafter : Runs.exec step t after = some s) :
    (∀ coro, Relation.TransGen (Awaits t) coro coro → coro ∈ s.live ∧ coro ∉ s.stack) ∧
      (s.loop.pc = .finished → s.stack = [] →
        ∀ coro, coro ∈ s.live ↔ Relation.TransGen (Awaits s) coro coro) := by
  obtain ⟨hd', hd''⟩ := Runs.along_append.mp hd
  have hrun : Runs.exec step start (before ++ after) = some s := by
    rw [Runs.exec_append, hbefore]
    exact hafter
  constructor
  · intro coro hcycle
    have hlast : HeldOnce s ∧ Relation.TransGen (Awaits s) coro coro := by
      refine Runs.exec_invariant
        (I := fun s => HeldOnce s ∧ Relation.TransGen (Awaits s) coro coro) ?_
        ⟨run_heldOnce hd' hbefore, hcycle⟩ (hd'' t hbefore) hafter
      intro s a s' hs hP hstep
      exact ⟨step_heldOnce hs.1 hP hstep, step_on_cycle hs.1 hP hstep hs.2⟩
    obtain ⟨task, hfirst, -⟩ := Relation.TransGen.head'_iff.mp hlast.2
    exact ⟨hfirst.1, hfirst.suspended hlast.1⟩
  · intro hpc hstack coro
    constructor
    · exact left_over_on_cycle hd hrun hpc hstack
    · intro hcycle
      obtain ⟨task, hfirst, -⟩ := Relation.TransGen.head'_iff.mp hcycle
      exact hfirst.1

theorem left_over_iff_on_cycle_pair : ∃ t s,
    Runs.exec step start [.start 0, .start 1, .awaitTask 0, .awaitTask 1] = some t ∧
      Runs.exec step t [.sched .run, .sched .test] = some s ∧ 0 ∈ s.live ∧
        Relation.TransGen (Awaits s) 0 0 := by
  have hrun : ((Runs.exec step start [.start 0, .start 1, .awaitTask 0, .awaitTask 1]).bind
      fun t => (Runs.exec step t [.sched .run, .sched .test]).map fun s =>
        (decide (s.loop.pc = .finished), s.stack, t.live, t.prev 0, t.prev 1)) =
        some (true, [], [1, 0], some 1, some 0) := by
    decide +kernel
  obtain ⟨t, ht, hrun'⟩ := Option.bind_eq_some_iff.mp hrun
  obtain ⟨s, hs, heq⟩ := Option.map_eq_some_iff.mp hrun'
  simp only [Prod.mk.injEq, decide_eq_true_eq] at heq
  obtain ⟨hpc, hstack, hlive, hzero, hone⟩ := heq
  have hcycle : Relation.TransGen (Awaits t) 0 0 := by
    refine Relation.TransGen.tail (Relation.TransGen.single (b := 1) ⟨?_, ?_, hone⟩) ⟨?_, ?_, hzero⟩
    all_goals simp [hlive]
  obtain ⟨hstays, hiff⟩ := left_over_iff_on_cycle (by decide +kernel) ht hs
  exact ⟨t, s, ht, hs, (hstays 0 hcycle).1, (hiff hpc hstack 0).mp (hstays 0 hcycle).1⟩

/-- A task that has not ended is awaited only by a coroutine that was started
before it, as the caller of a coroutine function was. -/
def Structured (s : Runtime) : Act → Prop
  | .awaitTask task => ∀ coro ∈ s.stack.head?, task ∈ s.live → [task, coro].Sublist s.live
  | _ => True

instance (s : Runtime) (a : Act) : Decidable (Structured s a) :=
  match a with
  | .awaitTask _ => inferInstanceAs (Decidable (∀ coro ∈ s.stack.head?, _))
  | .start _ | .sleep _ | .awaitSocket _ _ | .finish | .destroyTask _ | .openSocket _
  | .closeSocket _ | .leave | .refuse | .sched _ =>
    inferInstanceAs (Decidable True)

/-- `live` has the newest first. -/
def Younger (s : Runtime) : Prop :=
  ∀ coro task, Awaits s coro task → [task, coro].Sublist s.live

theorem pair_sublist_erase {l : List Frame} {task coro runner : Frame}
    (h : [task, coro].Sublist l) (htask : task ≠ runner) (hcoro : coro ≠ runner) :
    [task, coro].Sublist (l.erase runner) := by
  have herase := h.erase runner
  rwa [List.erase_of_not_mem (by simp [htask.symm, hcoro.symm])] at herase

theorem step_younger {s s' : Runtime} {a : Act} (hs : HeldOnce s) (hyounger : Younger s)
    (hd : Disciplined s a) (hstructured : Structured s a) (h : step s a = some s') :
    Younger s' := by
  intro coro task hawaits
  obtain ⟨hlive, hlive', hprev⟩ := hawaits
  cases step_cases h with
  | sleep | awaitSocket | awaitDone | openSocket | closeSocket | leave | refuse | sched =>
    exact hyounger coro task ⟨hlive, hlive', hprev⟩
  | start new hactive hnew hfinished hdestroyed =>
    by_cases heq : task = new
    · subst heq
      simp at hprev
    · replace hprev := (Function.update_of_ne heq _ _).symm.trans hprev
      have hold : task ∈ s.live := (List.mem_cons.mp hlive').resolve_left heq
      exact (hyounger coro task (awaits_of_prev hs hold hprev)).cons new
  | awaitTask other runner below hstack hother =>
    by_cases heq : task = other
    · subst heq
      simp only [Runtime.await, Function.update_self, Option.some.injEq] at hprev
      subst hprev
      exact hstructured runner (by simp [hstack]) hother
    · replace hprev := (Function.update_of_ne heq _ _).symm.trans hprev
      exact hyounger coro task ⟨hlive, hlive', hprev⟩
  | finish runner below hstack =>
    have hne : coro ≠ runner := fun heq => hs.nodup.not_mem_erase (heq ▸ hlive)
    have hne' : task ≠ runner := fun heq => hs.nodup.not_mem_erase (heq ▸ hlive')
    apply pair_sublist_erase _ hne' hne
    exact hyounger coro task ⟨List.mem_of_mem_erase hlive, List.mem_of_mem_erase hlive', hprev⟩
  | destroyTask other =>
    have hsame : s.live.erase other = s.live := List.erase_of_not_mem (hs.apart other hd)
    simp only [Runtime.destroyTask, hsame] at hlive hlive' hprev ⊢
    exact hyounger coro task ⟨hlive, hlive', hprev⟩

theorem run_younger {acts : List Act} {s : Runtime}
    (hd : Runs.Along step (fun s a => Disciplined s a ∧ Structured s a) start acts)
    (h : Runs.exec step start acts = some s) : HeldOnce s ∧ Younger s := by
  refine Runs.exec_invariant (I := fun s => HeldOnce s ∧ Younger s) ?_ ⟨start_heldOnce, ?_⟩ hd h
  · intro s a s' hs hP hstep
    exact ⟨step_heldOnce hs.1 hP.1 hstep, step_younger hs.1 hs.2 hP.1 hP.2 hstep⟩
  · intro coro task hawaits
    simp [Awaits, start] at hawaits

theorem idxOf_lt_of_sublist {l : List Frame} {task coro : Frame} (h : [task, coro].Sublist l)
    (hnodup : l.Nodup) : l.idxOf task < l.idxOf coro := by
  obtain ⟨left, right, rfl, htask, hcoro⟩ := List.cons_sublist_iff.mp h
  replace hcoro : coro ∈ right := List.singleton_sublist.mp hcoro
  have hnot : coro ∉ left := fun hmem => List.disjoint_of_nodup_append hnodup hmem hcoro
  rw [List.idxOf_append_of_mem htask, List.idxOf_append_of_notMem hnot]
  have hlt := List.idxOf_lt_length_of_mem htask
  omega

/-- Along a chain of awaited tasks each was started later than the one before. -/
theorem Younger.idxOf_lt {s : Runtime} (hyounger : Younger s) (hnodup : s.live.Nodup)
    {coro task : Frame} (h : Relation.TransGen (Awaits s) coro task) :
    s.live.idxOf task < s.live.idxOf coro := by
  induction h with
  | single hawaits => exact idxOf_lt_of_sublist (hyounger _ _ hawaits) hnodup
  | tail hpath hawaits ih => exact (idxOf_lt_of_sublist (hyounger _ _ hawaits) hnodup).trans ih

/-- A coroutine that has been started runs to its end or is destroyed. -/
theorem step_accounted {s s' : Runtime} {a : Act} {coro : Frame}
    (hs : coro ∈ s.live ∨ coro ∈ s.finished ∨ coro ∈ s.destroyed) (h : step s a = some s') :
    coro ∈ s'.live ∨ coro ∈ s'.finished ∨ coro ∈ s'.destroyed := by
  cases step_cases h with
  | sleep | awaitSocket | awaitDone | openSocket | closeSocket | leave | refuse | sched
  | awaitTask => exact hs
  | start new => exact hs.imp (List.mem_cons_of_mem new) id
  | finish runner below hstack =>
    by_cases heq : coro = runner
    · exact Or.inr (Or.inl (heq ▸ List.mem_cons_self ..))
    · exact hs.imp (List.mem_erase_of_ne heq).mpr (Or.imp (List.mem_cons_of_mem runner) id)
  | destroyTask other =>
    by_cases heq : coro = other
    · exact Or.inr (Or.inr (heq ▸ List.mem_cons_self ..))
    · exact hs.imp (List.mem_erase_of_ne heq).mpr
        (Or.imp (List.mem_erase_of_ne heq).mpr (List.mem_cons_of_mem other))

theorem run_accounted {acts : List Act} {s t : Runtime} {coro : Frame}
    (h : Runs.exec step t acts = some s) (hstart : Act.start coro ∈ acts) :
    coro ∈ s.live ∨ coro ∈ s.finished ∨ coro ∈ s.destroyed := by
  obtain ⟨before, after, rfl⟩ := List.append_of_mem hstart
  rw [Runs.exec_append, Option.bind_eq_some_iff] at h
  obtain ⟨u, -, hafter⟩ := h
  obtain ⟨v, hv, hrest⟩ := Runs.exec_cons_eq_some.mp hafter
  refine Runs.exec_preserves (fun _ _ _ hs hstep => step_accounted hs hstep) ?_ hrest
  cases step_cases hv with
  | start => exact Or.inl (List.mem_cons_self ..)

/-- A cycle would have to go on to ever later coroutines. -/
theorem none_left_over {acts : List Act} {s : Runtime}
    (hd : Runs.Along step (fun s a => Disciplined s a ∧ Structured s a) start acts)
    (h : Runs.exec step start acts = some s) (hpc : s.loop.pc = .finished) (hstack : s.stack = []) :
    s.live = [] := by
  obtain ⟨hs, hyounger⟩ := run_younger hd h
  rw [List.eq_nil_iff_forall_not_mem]
  intro coro hmem
  have hcycle := left_over_on_cycle (hd.mono fun _ _ hP => hP.1) h hpc hstack hmem
  exact lt_irrefl _ (hyounger.idxOf_lt hs.nodup hcycle)

/-- Where tasks are awaited only by older coroutines, every coroutine has ended
when `run` returns, and each of its suspensions has been resumed. -/
theorem all_ended {acts : List Act} {s : Runtime}
    (hd : Runs.Along step (fun s a => Disciplined s a ∧ Structured s a) start acts)
    (h : Runs.exec step start acts = some s) (hpc : s.loop.pc = .finished) (hstack : s.stack = []) :
    s.live = [] ∧ ∀ coro, s.suspensions coro = s.resumptions coro ∧
      (Act.start coro ∈ acts → coro ∈ s.finished ∨ coro ∈ s.destroyed) := by
  have hlive := none_left_over hd h hpc hstack
  obtain ⟨hs, -⟩ := run_younger hd h
  refine ⟨hlive, ?_⟩
  intro coro
  constructor
  · have hplace := hs.place coro
    have hbalance := hs.balance coro
    rw [hlive, List.count_nil] at hplace
    omega
  · intro hstart
    exact (run_accounted h hstart).resolve_left (by simp [hlive])

theorem all_ended_sample : ∃ s, Runs.exec step start sampleRun = some s ∧ s.live = [] ∧
    (1 ∈ s.finished ∨ 1 ∈ s.destroyed) := by
  have hrun : ((Runs.exec step start sampleRun).map fun s =>
      (decide (s.loop.pc = .finished), s.stack)) = some (true, []) := by
    decide +kernel
  obtain ⟨s, hs, heq⟩ := Option.map_eq_some_iff.mp hrun
  simp only [Prod.mk.injEq, decide_eq_true_eq] at heq
  obtain ⟨hpc, hstack⟩ := heq
  obtain ⟨hlive, hall⟩ := all_ended (by decide +kernel) hs hpc hstack
  exact ⟨s, hs, hlive, (hall 1).2 (by decide)⟩

end Bc.RunCompletion
