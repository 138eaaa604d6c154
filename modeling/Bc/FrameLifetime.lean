import Bc.Coroutines

/-!
Frames that `~task` has destroyed. The scheduler refers to a frame by handle
and through `revent`, and nothing takes these references back when a task is
destroyed.
-/
namespace Bc.FrameLifetime

open Scheduling Coroutines
open EventLoop hiding Act step Step step_cases

/-- A waiter refers to the frame with its event variable and to the one that
it resumes. -/
def references (node : DescriptorNode) : List Frame := [node.revent.frame, node.next.frame]

/-- The frames that a step of the scheduler resumes or writes an event into. -/
def touched (s : Runtime) : Act → List Frame
  | .sched a => (EventLoop.step s.loop a).elim [] fun loop => resumedAt references loop.pc
  | .refuse => (EventLoop.step s.loop .turn).elim [] fun called => resumedAt references called.pc
  | _ => []

/-- A task is destroyed when its coroutine neither runs nor is referred to by
the scheduler, and does not end after the coroutine that awaits it is gone. -/
def KeepsFrames (s : Runtime) : Act → Prop
  | .destroyTask task => task ∉ queued references s.loop ∧ task ∉ s.stack
  | .finish => ∀ coro ∈ s.stack.head?, ∀ awaiting ∈ s.prev coro, awaiting ∉ s.destroyed
  | _ => True

instance (s : Runtime) (a : Act) : Decidable (KeepsFrames s a) :=
  match a with
  | .destroyTask _ => inferInstanceAs (Decidable (_ ∧ _))
  | .finish => inferInstanceAs (Decidable (∀ coro ∈ _, _))
  | .start _ | .sleep _ | .awaitSocket _ _ | .awaitTask _ | .openSocket _ | .closeSocket _
  | .leave | .refuse | .sched _ =>
    inferInstanceAs (Decidable True)

/-- Nothing that runs or is going to be resumed has been destroyed. -/
def Intact (s : Runtime) : Prop :=
  ∀ coro ∈ queued references s.loop ++ s.stack, coro ∉ s.destroyed

theorem start_intact : Intact start := by
  intro coro hcoro
  simp [start]

theorem Intact.of_subset {s s' : Runtime} (hs : Intact s)
    (hsub : queued references s'.loop ++ s'.stack ⊆ queued references s.loop ++ s.stack)
    (hdestroyed : s'.destroyed = s.destroyed) : Intact s' := by
  intro coro hcoro
  rw [hdestroyed]
  exact hs coro (hsub hcoro)

/-- A coroutine that posts itself has been running. -/
theorem Intact.suspend {s : Runtime} {coro : Frame} {below : List Frame}
    {loop : EventLoop.State} (hs : Intact s) (hstack : s.stack = coro :: below)
    (hsub : queued references loop ⊆ coro :: queued references s.loop) :
    Intact (s.suspend coro below loop) := by
  apply hs.of_subset
  · intro other hother
    rw [hstack]
    rcases List.mem_append.mp hother with hqueued | hbelow
    · rcases List.mem_cons.mp (hsub hqueued) with rfl | hold
      · exact List.mem_append_right _ (List.mem_cons_self ..)
      · exact List.mem_append_left _ hold
    · exact List.mem_append_right _ (List.mem_cons_of_mem coro hbelow)
  · rfl

theorem Intact.of_queued {s : Runtime} {loop : EventLoop.State} (hs : Intact s)
    (h : queued references loop = queued references s.loop) : Intact { s with loop := loop } := by
  apply hs.of_subset
  · rw [h]
    exact List.Subset.refl _
  · rfl

theorem Intact.finish {s : Runtime} {coro : Frame} {below : List Frame} (hs : Intact s)
    (hstack : s.stack = coro :: below) (hkeeps : KeepsFrames s .finish) :
    Intact (s.finish coro below) := by
  intro other hother
  rcases List.mem_append.mp hother with hqueued | hrunning
  · exact hs other (List.mem_append_left _ hqueued)
  · rcases List.mem_append.mp hrunning with hprev | hbelow
    · exact hkeeps coro (by rw [hstack]; rfl) other (Option.mem_toList.mp hprev)
    · apply hs other
      rw [hstack]
      exact List.mem_append_right _ (List.mem_cons_of_mem coro hbelow)

theorem Intact.destroyTask {s : Runtime} {task : Frame} (hs : Intact s)
    (hkeeps : KeepsFrames s (.destroyTask task)) : Intact (s.destroyTask task) := by
  intro other hother hmem
  rcases List.mem_cons.mp hmem with rfl | hold
  · rcases List.mem_append.mp hother with hqueued | hrunning
    · exact hkeeps.1 hqueued
    · exact hkeeps.2 hrunning
  · exact hs other hother hold

theorem entered_subset (pc : Pc) : entered pc ⊆ resumedAt references pc := by
  intro coro hcoro
  rcases List.mem_append.mp hcoro with htimer | hnode
  · exact List.mem_append_left _ htimer
  · obtain ⟨node, hmem, hframe⟩ := List.mem_flatMap.mp hnode
    apply List.mem_append_right
    exact List.mem_flatMap.mpr ⟨node, hmem, List.mem_cons_of_mem _ hframe⟩

theorem Intact.enter {s : Runtime} {loop : EventLoop.State} (hs : Intact s)
    (h : (queued references loop ++ resumedAt references loop.pc).Perm
      (queued references s.loop)) : Intact (s.enter loop) := by
  apply hs.of_subset
  · intro other hother
    apply List.mem_append_left
    apply h.subset
    rcases List.mem_append.mp hother with hqueued | hentered
    · exact List.mem_append_left _ hqueued
    · exact List.mem_append_right _ (entered_subset loop.pc hentered)
  · rfl

theorem step_intact {s s' : Runtime} {a : Act} (hs : Intact s) (hkeeps : KeepsFrames s a)
    (h : step s a = some s') : Intact s' := by
  cases step_cases h with
  | start coro hactive hlive hfinished hdestroyed =>
    intro other hother
    rcases List.mem_append.mp hother with hqueued | hrunning
    · exact hs other (List.mem_append_left _ hqueued)
    · rcases List.mem_cons.mp hrunning with rfl | hold
      · exact hdestroyed
      · exact hs other (List.mem_append_right _ hold)
  | sleep tp coro below loop hstack hpost => exact hs.suspend hstack (queued_postTimer hpost).subset
  | awaitSocket awaiter fd coro below loop hstack hpost =>
    apply hs.suspend hstack
    intro other hother
    have hmem := (queued_postCoro hpost).subset hother
    rw [references, awaiter.next_frame] at hmem
    simpa using hmem
  | awaitDone => exact hs
  | awaitTask task coro below hstack hlive =>
    apply hs.of_subset
    · rw [hstack]
      exact ((List.sublist_cons_self coro below).append_left _).subset
    · rfl
  | finish coro below hstack => exact hs.finish hstack hkeeps
  | destroyTask task => exact hs.destroyTask hkeeps
  | openSocket fd loop hopen => exact hs.of_queued (queued_openSocket hopen)
  | closeSocket fd loop hclose => exact hs.of_queued (queued_closeSocket hclose)
  | leave loop hstack hleave => exact hs.of_queued (queued_resumed hleave)
  | refuse called loop hstack hturn hcall hproxy hrefuse =>
    exact hs.of_queued (queued_refused hturn hproxy hcall hrefuse)
  | sched a loop hstack hsched hloop => exact hs.enter (queued_scheduling hloop hsched)

theorem run_intact {acts : List Act} {s : Runtime}
    (hkeeps : Runs.Along step KeepsFrames start acts) (h : Runs.exec step start acts = some s) :
    Intact s :=
  Runs.exec_invariant (fun _ _ _ hs hP hstep => step_intact hs hP hstep) start_intact hkeeps h

/-- What the scheduler touches in a step comes out of its queues. -/
theorem touched_subset {s s' : Runtime} {a : Act} (h : step s a = some s') :
    touched s a ⊆ queued references s.loop := by
  cases step_cases h with
  | refuse called loop hstack hturn =>
    have hqueued : (_ ++ resumedAt references called.pc).Perm (queued references s.loop) :=
      queued_scheduling hturn rfl
    intro coro hcoro
    simp only [touched, hturn, Option.elim_some] at hcoro
    exact hqueued.subset (List.mem_append_right _ hcoro)
  | sched a loop hstack hsched hloop =>
    have hqueued : (_ ++ resumedAt references loop.pc).Perm (queued references s.loop) :=
      queued_scheduling hloop hsched
    intro coro hcoro
    simp only [touched, hloop, Option.elim_some] at hcoro
    exact hqueued.subset (List.mem_append_right _ hcoro)
  | _ => exact List.nil_subset _

/-- In a run that keeps the frames it needs, no step of the scheduler resumes
a destroyed frame or writes an event into one. -/
theorem destroyed_untouched {acts : List Act} {s : Runtime}
    (hkeeps : Runs.Along step KeepsFrames start acts) (h : Runs.exec step start acts = some s)
    {a : Act} {s' : Runtime} (hstep : step s a = some s') :
    ∀ coro ∈ touched s a, coro ∉ s.destroyed := by
  intro coro hcoro
  apply run_intact hkeeps h
  exact List.mem_append_left _ (touched_subset hstep hcoro)

theorem destroyed_untouched_sample : ∃ s, Runs.exec step start (sampleRun.take 27) = some s ∧
    s.destroyed = [1, 2] ∧ touched s (.sched (.expire 6 0)) = [0] ∧
      ∀ coro ∈ touched s (.sched (.expire 6 0)), coro ∉ s.destroyed := by
  have hrun : ((Runs.exec step start (sampleRun.take 27)).map fun s =>
      (s.destroyed, touched s (.sched (.expire 6 0)),
        (step s (.sched (.expire 6 0))).isSome)) = some ([1, 2], [0], true) := by
    decide +kernel
  obtain ⟨s, hs, heq⟩ := Option.map_eq_some_iff.mp hrun
  simp only [Prod.mk.injEq] at heq
  obtain ⟨hdestroyed, htouched, hsome⟩ := heq
  obtain ⟨s', hstep⟩ := Option.isSome_iff_exists.mp hsome
  exact ⟨s, hs, hdestroyed, htouched, destroyed_untouched (by decide +kernel) hs hstep⟩

def sleeperDestroyed : List Act :=
  [.start 0, .sleep 5, .destroyTask 0, .sched .run, .sched .test]

theorem destroyed_sleeper_resumed : ¬ ∀ acts s a s', Runs.exec step start acts = some s →
    step s a = some s' → ∀ coro ∈ touched s a, coro ∉ s.destroyed := by
  intro h
  have hrun : ((Runs.exec step start sleeperDestroyed).map fun s =>
      (s.destroyed, touched s (.sched (.expire 5 0)),
        (step s (.sched (.expire 5 0))).isSome)) = some ([0], [0], true) := by
    decide +kernel
  obtain ⟨s, hs, heq⟩ := Option.map_eq_some_iff.mp hrun
  simp only [Prod.mk.injEq] at heq
  obtain ⟨hdestroyed, htouched, hsome⟩ := heq
  obtain ⟨s', hstep⟩ := Option.isSome_iff_exists.mp hsome
  have huntouched := h _ s _ s' hs hstep 0 (by simp [htouched])
  simp [hdestroyed] at huntouched

end Bc.FrameLifetime
