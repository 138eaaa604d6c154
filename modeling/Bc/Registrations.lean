import Bc.TaskThreads

/-!
What suspended coroutines wait for. A coroutine that has left the stack is in one place
of the scheduler or of a task, and that is the place for which its code has left: the
descriptor that it awaits, with the mask of its awaiter, a timer, or the task.
-/
namespace Bc.Registrations

open Scheduling TaskPrograms TaskThreads WaiterTables
open CallStacks hiding step Step step_cases
open Coroutines hiding Act step Step step_cases start
open HandleOwnership hiding step_heldOnce

variable {σ ε α : Type*} {code : σ → Op σ (Operation ε) (Answer α)} {m m' : Machine σ ε α}

structure Registered (code : σ → Op σ (Operation ε) (Answer α)) (m : Machine σ ε α) : Prop where
  waiters : ∀ fd, ∀ node ∈ placed m.runtime.loop fd, Puts code (m.phase node.next.frame) fd node
  timers : ∀ node ∈ m.runtime.loop.sched.timeNodes, ∃ point, m.phase node.next = .body point
  awaited : ∀ task ∈ m.runtime.live, ∀ coro, m.runtime.prev task = some coro →
    ∃ next, m.phase coro = .leaving task next

section Held

variable {s : Runtime} {coro : Frame}

theorem held_of_placed {fd : ℕ} {node : DescriptorNode} (h : node ∈ placed s.loop fd) :
    node.next.frame ∈ held s := by
  refine List.mem_append_left _ (List.mem_append_right _ ?_)
  exact List.mem_flatMap.mpr ⟨node, waiting_of_mem_placed h, List.mem_singleton_self _⟩

theorem held_of_timer {node : TimeNode} (h : node ∈ s.loop.sched.timeNodes) :
    node.next ∈ held s :=
  List.mem_append_left _ (List.mem_append_left _ (List.mem_map_of_mem h))

theorem held_of_prev {task : Frame} (hlive : task ∈ s.live) (h : s.prev task = some coro) :
    coro ∈ held s :=
  List.mem_append_right _ (List.mem_filterMap.mpr ⟨task, hlive, h⟩)

theorem place_of_held (h : coro ∈ held s) :
    (∃ node ∈ s.loop.sched.timeNodes, node.next = coro) ∨
      (∃ fd, ∃ node ∈ placed s.loop fd, node.next.frame = coro) ∨
        ∃ task ∈ s.live, s.prev task = some coro := by
  rcases List.mem_append.mp h with hqueued | hprev
  · rcases List.mem_append.mp hqueued with htimer | hwaiter
    · exact Or.inl (List.mem_map.mp htimer)
    · obtain ⟨node, hnode, hframe⟩ := List.mem_flatMap.mp hwaiter
      obtain ⟨fd, hplaced⟩ := mem_placed_of_waiting hnode
      exact Or.inr (Or.inl ⟨fd, node, hplaced, (List.mem_singleton.mp hframe).symm⟩)
  · exact Or.inr (Or.inr (List.mem_filterMap.mp hprev))

theorem notHeld_of_running (hs : HeldOnce s) (h : coro ∈ s.stack) : coro ∉ held s := by
  intro hheld
  have hplace := hs.place coro
  have hlive := List.nodup_iff_count_le_one.mp hs.nodup coro
  have hrunning := List.count_pos_iff.mpr h
  have hcount := List.count_pos_iff.mpr hheld
  omega

end Held

/-- A step that moves none of those who are held, and puts who it moves where its phase
says. -/
theorem Registered.moved (hs : Registered code m)
    (hphase : ∀ coro ∈ held m.runtime, m'.phase coro = m.phase coro)
    (hwaiters : ∀ fd, ∀ node ∈ placed m'.runtime.loop fd,
      node ∈ placed m.runtime.loop fd ∨ Puts code (m'.phase node.next.frame) fd node)
    (htimers : ∀ node ∈ m'.runtime.loop.sched.timeNodes,
      node ∈ m.runtime.loop.sched.timeNodes ∨ ∃ point, m'.phase node.next = .body point)
    (hprev : ∀ task ∈ m'.runtime.live, ∀ coro, m'.runtime.prev task = some coro →
      (task ∈ m.runtime.live ∧ m.runtime.prev task = some coro) ∨
        ∃ next, m'.phase coro = .leaving task next) : Registered code m' := by
  refine ⟨?_, ?_, ?_⟩
  · intro fd node hnode
    rcases hwaiters fd node hnode with hold | hnew
    · rw [hphase _ (held_of_placed hold)]
      exact hs.waiters fd node hold
    · exact hnew
  · intro node hnode
    rcases htimers node hnode with hold | hnew
    · rw [hphase _ (held_of_timer hold)]
      exact hs.timers node hold
    · exact hnew
  · intro task htask coro hcoro
    rcases hprev task htask coro hcoro with ⟨hlive, hold⟩ | hnew
    · rw [hphase _ (held_of_prev hlive hold)]
      exact hs.awaited task hlive coro hold
    · exact hnew

/-- A step of the coroutine on top that begins `task`. -/
theorem Registered.started {task : Frame} (hs : Registered code m) (hheld : HeldOnce m.runtime)
    (hstart : Coroutines.step m.runtime (.start task) = some m'.runtime)
    (hphase : ∀ coro ∈ held m.runtime, coro ≠ task → m'.phase coro = m.phase coro) :
    Registered code m' := by
  generalize hruntime : m'.runtime = runtime at hstart
  cases Coroutines.step_cases hstart with
  | start _ hactive hlive =>
    refine hs.moved ?_ ?_ ?_ ?_
    · intro coro hcoro
      refine hphase coro hcoro ?_
      rintro rfl
      exact hlive (hheld.live_of_held hcoro)
    · rw [hruntime]
      exact fun _ _ hnode => Or.inl hnode
    · rw [hruntime]
      exact fun _ hnode => Or.inl hnode
    · rw [hruntime]
      intro other hother coro hcoro
      have hne : other ≠ task := by
        rintro rfl
        simp at hcoro
      dsimp only at hcoro
      rw [Function.update_of_ne hne] at hcoro
      exact Or.inl ⟨(List.mem_cons.mp hother).resolve_left hne, hcoro⟩

/-- A step that destroys `task`. -/
theorem Registered.dropped {task : Frame} (hs : Registered code m)
    (hdestroy : Coroutines.step m.runtime (.destroyTask task) = some m'.runtime)
    (hphase : ∀ coro ∈ held m.runtime, m'.phase coro = m.phase coro) : Registered code m' := by
  generalize hruntime : m'.runtime = runtime at hdestroy
  cases Coroutines.step_cases hdestroy with
  | destroyTask =>
    refine hs.moved hphase ?_ ?_ ?_ <;> rw [hruntime]
    · exact fun _ _ hnode => Or.inl hnode
    · exact fun _ hnode => Or.inl hnode
    · exact fun other hother waiter hwaiter => Or.inl ⟨List.mem_of_mem_erase hother, hwaiter⟩

theorem start_registered [Inhabited σ] : Registered code (TaskPrograms.start : Machine σ ε α) := by
  refine ⟨?_, ?_, ?_⟩
  · intro fd node hnode
    cases held_of_placed hnode
  · intro node hnode
    cases hnode
  · intro task htask
    cases htask

variable [DecidableEq ε]

theorem step_registered {a : Act σ α} (hm : Threaded code m) (hs : Registered code m)
    (h : step code m a = some m') : Registered code m' := by
  have hrunning : ∀ {coro below}, m.runtime.stack = coro :: below → coro ∉ held m.runtime :=
    fun hstack => notHeld_of_running hm.held (by simp [hstack])
  cases step_cases h with
  | main coro body runtime hstack hstart =>
    exact hs.started hm.held hstart fun other _ hne => Function.update_of_ne hne ..
  | loop a ract runtime hact hstep =>
    have hsame := step_quiet hstep (Act.quiet_ofLoop hact)
    refine hs.moved (fun _ _ => rfl) ?_ ?_ ?_
    · intro fd node hnode
      refine (placed_of_runtime hstep hnode).imp_right ?_
      rintro ⟨awaiter, coro, below, rfl, -⟩
      cases a <;> cases hact
    · intro node hnode
      refine (timers_of_runtime hstep hnode).imp_right ?_
      rintro ⟨tp, coro, below, rfl, -⟩
      cases a <;> cases hact
    · intro task htask coro hcoro
      rw [hsame.live] at htask
      rw [hsame.prev] at hcoro
      exact Or.inl ⟨htask, hcoro⟩
  | advance _ coro below phase marks runtime hstack hadvance heffects =>
    have hsame := hadvance.rests.sameTasks
    refine hs.moved ?_ ?_ ?_ ?_
    · exact fun other hother =>
        Function.update_of_ne (ne_of_mem_of_not_mem hother (hrunning hstack)) ..
    · intro fd node hnode
      refine (heffects.registers.waiters fd node hnode).imp_right ?_
      rintro ⟨rfl, hputs⟩
      simpa [Machine.advance] using hputs
    · intro node hnode
      refine (heffects.registers.timers node hnode).imp_right ?_
      rintro ⟨rfl, point, rfl⟩
      exact ⟨point, Function.update_self ..⟩
    · intro task htask other hother
      simp only [Machine.advance, hsame.live, hsame.prev] at htask hother
      exact Or.inl ⟨htask, hother⟩
  | call task coro below point body next runtime hstack hphase hcode hstart =>
    refine hs.started hm.held hstart fun other hother hne => ?_
    have hne' := ne_of_mem_of_not_mem hother (hrunning hstack)
    simp [Machine.enter, Machine.advance, hne, hne']
  | spawn task coro below point body next runtime hstack hphase hcode hadvance hstart =>
    refine hs.started hm.held hstart fun other hother hne => ?_
    have hne' := ne_of_mem_of_not_mem hother (hrunning hstack)
    simp [Machine.begin, Machine.advance, hne, hne']
  | awaitTask task coro below next runtime hstack hphase hawait =>
    have hmoved : ∀ other ∈ held m.runtime,
        Function.update m.phase coro (.leaving task next) other = m.phase other :=
      fun other hother => Function.update_of_ne (ne_of_mem_of_not_mem hother (hrunning hstack)) ..
    cases Coroutines.step_cases hawait with
    | awaitDone =>
      exact hs.moved hmoved (fun _ _ hnode => Or.inl hnode) (fun _ hnode => Or.inl hnode)
        fun task htask other hother => Or.inl ⟨htask, hother⟩
    | awaitTask _ runner below' hstack' hlive =>
      obtain ⟨rfl, -⟩ := List.cons.inj (hstack.symm.trans hstack')
      refine hs.moved hmoved (fun _ _ hnode => Or.inl hnode) (fun _ hnode => Or.inl hnode) ?_
      intro other hother waiter hwaiter
      simp only [Machine.advance, Runtime.await] at hother hwaiter ⊢
      by_cases heq : other = task
      · subst heq
        rw [Function.update_self] at hwaiter
        obtain rfl := Option.some.inj hwaiter
        exact Or.inr ⟨next, Function.update_self ..⟩
      · rw [Function.update_of_ne heq] at hwaiter
        exact Or.inl ⟨hother, hwaiter⟩
  | destroyTask task coro below next runtime hstack hphase hdestroy
  | destroy task coro below point next runtime hstack hphase hcode hended hbody hdestroy =>
    exact hs.dropped hdestroy fun other hother =>
      Function.update_of_ne (ne_of_mem_of_not_mem hother (hrunning hstack)) ..
  | finish coro below point hstack hphase hcode =>
    refine hs.moved ?_ (fun _ _ hnode => Or.inl hnode) (fun _ hnode => Or.inl hnode) ?_
    · exact fun other hother =>
        Function.update_of_ne (ne_of_mem_of_not_mem hother (hrunning hstack)) ..
    · intro other hother waiter hwaiter
      exact Or.inl ⟨List.mem_of_mem_erase hother, hwaiter⟩

theorem run_registered [Inhabited σ] {acts : List (Act σ α)}
    (h : Runs.exec (step code) start acts = some m) : Threaded code m ∧ Registered code m := by
  refine Runs.exec_preserves (I := fun m => Threaded code m ∧ Registered code m) ?_
    ⟨start_threaded, start_registered⟩ h
  intro m a m' hm hstep
  exact ⟨(step_threaded hm.1 hstep).2, step_registered hm.1 hm.2 hstep⟩

/-- The coroutine is where its code waits. -/
def AwaitsAt (code : σ → Op σ (Operation ε) (Answer α)) (m : Machine σ ε α) (coro : Frame) :
    Phase σ → Prop
  | .body _ => ∃ node ∈ m.runtime.loop.sched.timeNodes, node.next = coro
  | .parked point => ∃ awaiter fd next, code point = .perform (.awaitSocket awaiter fd) next ∧
      ∃ node ∈ placed m.runtime.loop fd, node.ev = awaiter.mask ∧ node.next = awaiter.next coro
  | .joining _ _ => False
  | .leaving task _ => task ∈ m.runtime.live ∧ m.runtime.prev task = some coro

def readCode : ℕ → Op ℕ (Operation Empty) (Answer Unit)
  | 0 => .call 1 2
  | 1 => .perform (.awaitSocket .read 5) fun _ => 2
  | _ => .ret

end Bc.Registrations
