import Bc.SleepTimers
import Bc.TaskThreads

/-!
The time that threads of coroutines take. The machine runs beside a clock that does
not go back, and a sleep reads it once for its deadline and once to see whether that
has passed. A thread is then never ahead of its sleeps, those of the coroutines it
has called among them.
-/
namespace Bc.SleepingThreads

open Scheduling TaskPrograms TaskThreads
open CallStacks hiding step Step step_cases
open Coroutines hiding Act step Step step_cases start
open HandleOwnership hiding step_heldOnce

variable {σ ε α : Type*}

/-- `clock` is the last reading, and `begun` the one with which a thread has begun. -/
structure Clocked (σ ε α : Type*) where
  machine : Machine σ ε α
  clock : Time
  begun : Frame → Time

def start [Inhabited σ] (clock : Time) : Clocked σ ε α :=
  ⟨TaskPrograms.start, clock, fun _ => clock⟩

/-- The readings of the clock that a step makes, in their order. -/
def readings : Act σ α → List Time
  | .sleep created checked => [created, checked]
  | .sched a => (SleepTimers.reading a).toList
  | _ => []

def step (code : σ → Op σ (Operation ε) (Answer α)) (s : Clocked σ ε α) (a : Act σ α) :
    Option (Clocked σ ε α) :=
  if (s.clock :: readings a).IsChain (· ≤ ·) then
    (TaskPrograms.step code s.machine a).map fun machine =>
      { machine := machine
        clock := (readings a).getLastD s.clock
        begun := fun thread =>
          if (s.machine.bodies thread).isNone then s.clock else s.begun thread }
  else none

def Fits (code : σ → Op σ (Operation ε) (Answer α)) (s : Clocked σ ε α) : Act σ α → Prop
  | .sleep created _ => ∀ period ∈ sleepPeriod code s.machine,
      -2 ^ 63 ≤ created + period ∧ created + period < 2 ^ 63
  | _ => True

instance (code : σ → Op σ (Operation ε) (Answer α)) (s : Clocked σ ε α) (a : Act σ α) :
    Decidable (Fits code s a) :=
  match a with
  | .sleep _ _ => inferInstanceAs (Decidable (∀ period ∈ _, _))
  | .spawn _ _ | .emit | .suspend _ | .answer _ | .openSocket _ | .closeSocket | .done | .call _
  | .awaitTask | .destroyTask | .finish | .leave | .refuse | .sched _ =>
    inferInstanceAs (Decidable True)

def periodOf : Mark (Operation ε) (Answer α) → Time
  | .performed (.sleep period) _ => period
  | _ => 0

def slept (log : List (Mark (Operation ε) (Answer α))) : Time := (log.map periodOf).sum

/-- The thread has had the time for its sleeps. -/
def Elapsed (s : Clocked σ ε α) (thread : Frame) : Prop :=
  s.begun thread + slept (s.machine.log thread) ≤ s.clock

/-- The innermost coroutine of the thread waits for a time that suffices for its
sleeps. -/
def Sleeping (s : Clocked σ ε α) (thread : Frame) : Prop :=
  ∃ node ∈ s.machine.runtime.loop.sched.timeNodes,
    s.begun thread + slept (s.machine.log thread) ≤ node.time ∧
      ∃ rest, s.machine.calls thread = node.next :: rest

structure Paced (s : Clocked σ ε α) : Prop where
  past : ∀ thread, s.begun thread ≤ s.clock
  pace : ∀ thread, s.machine.bodies thread ≠ none → Elapsed s thread ∨ Sleeping s thread

section Clock

theorem le_getLastD {clock : Time} {times : List Time}
    (h : (clock :: times).IsChain (· ≤ ·)) : clock ≤ times.getLastD clock := by
  induction times generalizing clock with
  | nil => exact le_refl clock
  | cons now rest ih =>
    rw [List.isChain_cons_cons] at h
    rw [List.getLastD_cons]
    exact h.1.trans (ih h.2)

theorem slept_append (log marks : List (Mark (Operation ε) (Answer α))) :
    slept (log ++ marks) = slept log + slept marks := by
  rw [slept, List.map_append, List.sum_append]
  rfl

theorem slept_of_awake {marks : List (Mark (Operation ε) (Answer α))}
    (h : ∀ period answer, .performed (.sleep period) answer ∉ marks) : slept marks = 0 := by
  refine List.sum_eq_zero ?_
  rw [List.forall_mem_map]
  intro mark hmark
  cases mark with
  | performed op answer =>
    cases op with
    | sleep period => exact absurd hmark (h period answer)
    | emit | awaitSocket | openSocket | adoptSocket | closeSocket | done | destroyTask => rfl
  | called | spawned | returned => rfl

theorem slept_spawned (answer : Answer α) :
    slept [(.spawned answer : Mark (Operation ε) (Answer α))] = 0 := rfl

theorem slept_one (period : Time) (answer : Answer α) :
    slept [(.performed (.sleep period) answer : Mark (Operation ε) (Answer α))] = period :=
  add_zero period

end Clock

section Steps

variable {code : σ → Op σ (Operation ε) (Answer α)}
  {s s' : Clocked σ ε α} {thread : Frame}

theorem elapsed_of_begun (hlog : s'.machine.log thread = []) (hpast : s'.begun thread ≤ s'.clock) :
    Elapsed s' thread := by
  rw [Elapsed, hlog, slept, List.map_nil, List.sum_nil, add_zero]
  exact hpast

theorem Elapsed.appended {marks : List (Mark (Operation ε) (Answer α))} (h : Elapsed s thread)
    (hlog : s'.machine.log thread = s.machine.log thread ++ marks)
    (hbegun : s'.begun thread = s.begun thread) (hclock : s.clock + slept marks ≤ s'.clock) :
    Elapsed s' thread := by
  rw [Elapsed, hlog, slept_append, hbegun, ← add_assoc]
  exact (Int.add_le_add_right h _).trans hclock

theorem deadline_eq {created checked period : Time} (hfits : Fits code s (.sleep created checked))
    (hperiod : sleepPeriod code s.machine = some period) :
    deadline created period = created + period := by
  obtain ⟨hleast, hgreatest⟩ := hfits period hperiod
  exact Int.bmod_eq_of_le hleast hgreatest

/-- What a step does to the clock and to the beginnings. -/
structure Ticked (s : Clocked σ ε α) (a : Act σ α) (s' : Clocked σ ε α) : Prop where
  chain : (s.clock :: readings a).IsChain (· ≤ ·)
  clock : s'.clock = (readings a).getLastD s.clock
  past : ∀ thread, s'.begun thread = s.clock ∨ s'.begun thread = s.begun thread
  begun : ∀ thread, s.machine.bodies thread ≠ none → s'.begun thread = s.begun thread

theorem ticked_of_step {a : Act σ α} (h : step code s a = some s') :
    TaskPrograms.step code s.machine a = some s'.machine ∧ Ticked s a s' := by
  obtain ⟨hchain, hstep⟩ := Option.ite_none_right_eq_some.mp h
  obtain ⟨machine, hmachine, rfl⟩ := Option.map_eq_some_iff.mp hstep
  refine ⟨hmachine, hchain, rfl, ?_, ?_⟩
  · intro thread
    by_cases hnone : (s.machine.bodies thread).isNone
    · exact Or.inl (if_pos hnone)
    · exact Or.inr (if_neg hnone)
  · intro thread hbody
    exact if_neg (by simpa using hbody)

theorem Ticked.le {a : Act σ α} (h : Ticked s a s') : s.clock ≤ s'.clock := by
  rw [h.clock]
  exact le_getLastD h.chain

theorem Ticked.past_le {a : Act σ α} (h : Ticked s a s') (hs : Paced s) (thread : Frame) :
    s'.begun thread ≤ s'.clock := by
  rcases h.past thread with heq | heq
  · exact heq.le.trans h.le
  · exact heq.le.trans ((hs.past thread).trans h.le)

/-- A step that leaves a thread alone takes away no timer before its time. -/
theorem Paced.carried {a : Act σ α} (hs : Paced s) (hticked : Ticked s a s')
    (hbody : s.machine.bodies thread ≠ none)
    (hlog : slept (s'.machine.log thread) = slept (s.machine.log thread))
    (hcalls : s'.machine.calls thread = s.machine.calls thread)
    (htimers : ∀ node ∈ s.machine.runtime.loop.sched.timeNodes,
      node ∈ s'.machine.runtime.loop.sched.timeNodes ∨ node.time ≤ s'.clock) :
    Elapsed s' thread ∨ Sleeping s' thread := by
  rw [Elapsed, Sleeping, hlog, hcalls, hticked.begun thread hbody]
  rcases hs.pace thread hbody with helapsed | ⟨node, hnode, htime, hnext⟩
  · exact Or.inl (helapsed.trans hticked.le)
  · rcases htimers node hnode with hkept | hdue
    · exact Or.inr ⟨node, hkept, htime, hnext⟩
    · exact Or.inl (htime.trans hdue)

/-- The scheduler takes a timer out only when a reading of the clock has got to it. -/
theorem timers_of_loop {a : Act σ α} {ract : Coroutines.Act} {runtime runtime' : Runtime}
    (hact : a.ofLoop = some ract) (h : Coroutines.step runtime ract = some runtime') :
    ∀ node ∈ runtime.loop.sched.timeNodes, node ∈ runtime'.loop.sched.timeNodes ∨
      ∃ now, readings a = [now] ∧ node.time ≤ now := by
  intro node hnode
  cases a with
  | leave | refuse =>
    obtain rfl := Option.some.inj hact
    rw [step_untimed h trivial]
    exact Or.inl hnode
  | sched b =>
    obtain rfl := Option.some.inj hact
    cases Coroutines.step_cases h with
    | sched _ loop hstack hsched hloop =>
      have hpost : SleepTimers.isPostTimer b = false := by
        cases b <;> first | rfl | cases hsched
      cases SleepTimers.timers_of_step hpost hloop with
      | kept htimers hdrawn => exact Or.inl (htimers ▸ hnode)
      | popped now top first hexpire hperm hleast hdue hdrawn =>
        subst hexpire
        rcases List.mem_append.mp (hperm.mem_iff.mpr hnode) with hkept | hfirst
        · exact Or.inl hkept
        · obtain rfl := List.mem_singleton.mp hfirst
          exact Or.inr ⟨now, rfl, hdue⟩
  | spawn | emit | sleep | suspend | answer | openSocket | closeSocket | done | call | awaitTask
  | destroyTask | finish => cases hact

theorem posted_of_sleep {runtime runtime' : Runtime} {coro : Frame} {below : List Frame} {tp : Time}
    (hstack : runtime.stack = coro :: below)
    (h : Coroutines.step runtime (.sleep tp) = some runtime') :
    runtime'.loop.sched.timeNodes = runtime.loop.sched.timeNodes ++ [⟨tp, coro⟩] := by
  cases Coroutines.step_cases h with
  | sleep _ runner below' loop hstack' hpost =>
    obtain ⟨rfl, -⟩ := List.cons.inj (hstack.symm.trans hstack')
    exact (EventLoop.step_postTimer hpost).2

theorem timers_of_sleeps {m : Machine σ ε α} {a : Act σ α} {coro : Frame} {below : List Frame}
    {marks : List (Mark (Operation ε) (Answer α))} {runtime : Runtime}
    (hstack : m.runtime.stack = coro :: below) (h : Sleeps code m a marks runtime) :
    ∀ node ∈ m.runtime.loop.sched.timeNodes, node ∈ runtime.loop.sched.timeNodes := by
  intro node hnode
  cases h with
  | none _ _ _ hmarks htimers => exact htimers ▸ hnode
  | passed => exact hnode
  | posted created checked period _ hperiod hsleep =>
    rw [posted_of_sleep hstack hsleep]
    exact List.mem_append_left _ hnode

variable [DecidableEq ε]

/-- A coroutine that runs waits for no time. -/
theorem elapsed_of_running {coro : Frame} {below : List Frame} (hm : Threaded code s.machine)
    (hs : Paced s) (hstack : s.machine.runtime.stack = coro :: below)
    (hfree : (s.machine.phase coro).joins = none)
    (hbody : s.machine.bodies (s.machine.thread coro) ≠ none) :
    Elapsed s (s.machine.thread coro) := by
  refine (hs.pace _ hbody).resolve_right ?_
  rintro ⟨node, hnode, -, rest, hcalls⟩
  obtain ⟨rest', hcalls'⟩ := hm.innermost (hm.live_of_running hstack) (by simp [hfree])
  obtain ⟨hnext, -⟩ := List.cons.inj (hcalls.symm.trans hcalls')
  have hheld : coro ∈ held s.machine.runtime := by
    rw [held, queued, ← hnext]
    exact List.mem_append_left _ (List.mem_append_left _ (List.mem_map_of_mem hnode))
  have hplace := hm.held.place coro
  have hlive := List.nodup_iff_count_le_one.mp hm.held.nodup coro
  have hcount := List.count_pos_iff.mpr hheld
  rw [hstack, List.count_cons_self] at hplace
  omega

/-- What a coroutine does without a sleep takes no time that its thread would miss. -/
theorem Paced.acted {a : Act σ α} {coro : Frame} {below : List Frame}
    {marks : List (Mark (Operation ε) (Answer α))} (hs : Paced s) (hm : Threaded code s.machine)
    (hticked : Ticked s a s') (hstack : s.machine.runtime.stack = coro :: below)
    (hfree : (s.machine.phase coro).joins = none)
    (hbody : s.machine.bodies (s.machine.thread coro) ≠ none)
    (hlog : s'.machine.log (s.machine.thread coro) =
      s.machine.log (s.machine.thread coro) ++ marks) (hmarks : slept marks = 0) :
    Elapsed s' (s.machine.thread coro) := by
  refine (elapsed_of_running hm hs hstack hfree hbody).appended hlog (hticked.begun _ hbody) ?_
  rw [hmarks, add_zero]
  exact hticked.le

/-- The thread of the coroutine that goes on: a sleep is over, or the coroutine has
suspended for it. -/
theorem paced_of_sleeps {a : Act σ α} {coro : Frame} {below : List Frame} {phase : Phase σ}
    {marks : List (Mark (Operation ε) (Answer α))} {runtime : Runtime}
    (hm : Threaded code s.machine) (hs : Paced s)
    (hstack : s.machine.runtime.stack = coro :: below)
    (hfree : (s.machine.phase coro).joins = none)
    (hbody : s.machine.bodies (s.machine.thread coro) ≠ none) (hticked : Ticked s a s')
    (hsleeps : Sleeps code s.machine a marks runtime) (hfits : Fits code s a)
    (hs' : s'.machine = s.machine.advance coro phase marks runtime) :
    Elapsed s' (s.machine.thread coro) ∨ Sleeping s' (s.machine.thread coro) := by
  have helapsed := elapsed_of_running hm hs hstack hfree hbody
  have hbegun := hticked.begun _ hbody
  have hlog : s'.machine.log (s.machine.thread coro) =
      s.machine.log (s.machine.thread coro) ++ marks := by
    rw [hs']
    exact Function.update_self ..
  have hchain := hticked.chain
  have hclock := hticked.clock
  cases hsleeps with
  | none _ _ _ hmarks htimers =>
    exact Or.inl (hs.acted hm hticked hstack hfree hbody hlog (slept_of_awake hmarks))
  | passed created checked period hperiod hover =>
    rw [deadline_eq hfits hperiod] at hover
    simp only [readings, List.isChain_cons_cons] at hchain
    refine Or.inl (helapsed.appended hlog hbegun ?_)
    rw [slept_one, hclock]
    exact (Int.add_le_add_right hchain.1 period).trans hover
  | posted created checked period _ hperiod hsleep =>
    rw [deadline_eq hfits hperiod] at hsleep
    simp only [readings, List.isChain_cons_cons] at hchain
    obtain ⟨rest, hcalls⟩ := hm.innermost (hm.live_of_running hstack) (by simp [hfree])
    refine Or.inr ⟨⟨created + period, coro⟩, ?_, ?_, rest, ?_⟩
    · rw [hs']
      change _ ∈ runtime.loop.sched.timeNodes
      rw [posted_of_sleep hstack hsleep]
      exact List.mem_append_right _ (List.mem_singleton_self _)
    · rw [hlog, slept_append, slept_one, hbegun, ← add_assoc]
      exact Int.add_le_add_right (helapsed.trans hchain.1) period
    · rw [hs']
      exact hcalls

theorem step_paced {a : Act σ α} (hm : Threaded code s.machine) (hs : Paced s)
    (hfits : Fits code s a) (h : step code s a = some s') : Paced s' := by
  obtain ⟨hstep, hticked⟩ := ticked_of_step h
  refine ⟨hticked.past_le hs, ?_⟩
  intro thread hbody
  have hpast := hticked.past_le hs thread
  have hclock := hticked.clock
  obtain ⟨machine, clock, begun⟩ := s'
  dsimp only at hstep hbody hclock
  cases TaskPrograms.step_cases hstep with
  | main coro body runtime hstack hstart =>
    have htimers := step_untimed hstart trivial
    by_cases heq : thread = coro
    · subst heq
      exact Or.inl (elapsed_of_begun (Function.update_self ..) hpast)
    · refine hs.carried hticked ?_ (congrArg slept (Function.update_of_ne heq _ _))
        (Function.update_of_ne heq _ _) fun node hnode => Or.inl (htimers ▸ hnode)
      exact fun hnone => hbody ((Function.update_of_ne heq _ _).trans hnone)
  | loop _ ract runtime hact hloop =>
    refine hs.carried hticked hbody rfl rfl fun node hnode => ?_
    refine (timers_of_loop hact hloop node hnode).imp_right ?_
    rintro ⟨now, hnow, hdue⟩
    rw [hclock, hnow]
    exact hdue
  | advance _ coro below phase marks runtime hstack hadvance heffects =>
    by_cases heq : thread = s.machine.thread coro
    · subst heq
      exact paced_of_sleeps hm hs hstack hadvance.free hbody hticked heffects.sleeps hfits rfl
    · refine hs.carried hticked hbody (congrArg slept (Function.update_of_ne heq _ _)) rfl
        fun node hnode => ?_
      exact Or.inl (timers_of_sleeps hstack heffects.sleeps node hnode)
  | call task coro below point body next runtime hstack hphase hcode hstart =>
    have htimers := step_untimed hstart trivial
    by_cases heq : thread = s.machine.thread coro
    · subst heq
      refine Or.inl (hs.acted hm hticked hstack ?_ hbody (Function.update_self ..) rfl)
      rw [hphase]
      rfl
    · exact hs.carried hticked hbody (congrArg slept (Function.update_of_ne heq _ _))
        (Function.update_of_ne heq _ _) fun node hnode => Or.inl (htimers ▸ hnode)
  | spawn task coro below point body next runtime hstack hphase hcode hadvance hstart =>
    have htimers := step_untimed hstart trivial
    by_cases htask : thread = task
    · subst htask
      exact Or.inl (elapsed_of_begun (Function.update_self ..) hpast)
    · have hbody' : s.machine.bodies thread ≠ none := fun hnone =>
        hbody ((Function.update_of_ne htask _ _).trans hnone)
      by_cases heq : thread = s.machine.thread coro
      · subst heq
        refine Or.inl (hs.acted hm hticked hstack hadvance.free hbody' ?_
          (slept_spawned (.task task)))
        exact (Function.update_of_ne htask _ _).trans (Function.update_self ..)
      · refine hs.carried hticked hbody' (congrArg slept ?_) (Function.update_of_ne htask _ _)
          fun node hnode => Or.inl (htimers ▸ hnode)
        exact (Function.update_of_ne htask _ _).trans (Function.update_of_ne heq _ _)
  | awaitTask task coro below next runtime hstack hphase hawait =>
    have htimers := step_untimed hawait trivial
    refine hs.carried hticked hbody (congrArg slept ?_) rfl
      fun node hnode => Or.inl (htimers ▸ hnode)
    simp [Machine.advance]
  | destroyTask task coro below next runtime hstack hphase hdestroy =>
    have htimers := step_untimed hdestroy trivial
    refine hs.carried hticked hbody (congrArg slept ?_) rfl
      fun node hnode => Or.inl (htimers ▸ hnode)
    simp [Machine.advance]
  | destroy task coro below point next runtime hstack hphase hcode hended _ hdestroy =>
    have htimers := step_untimed hdestroy trivial
    by_cases heq : thread = s.machine.thread coro
    · subst heq
      refine Or.inl (hs.acted hm hticked hstack ?_ hbody (Function.update_self ..) rfl)
      rw [hphase]
      rfl
    · exact hs.carried hticked hbody (congrArg slept (Function.update_of_ne heq _ _)) rfl
        fun node hnode => Or.inl (htimers ▸ hnode)
  | finish coro below point hstack hphase hcode =>
    by_cases heq : thread = s.machine.thread coro
    · subst heq
      refine Or.inl (hs.acted hm hticked hstack ?_ hbody (Function.update_self ..) rfl)
      rw [hphase]
      rfl
    · exact hs.carried hticked hbody (congrArg slept (Function.update_of_ne heq _ _))
        (Function.update_of_ne heq _ _) fun node hnode => Or.inl hnode

theorem run_paced [Inhabited σ] {clock : Time} {acts : List (Act σ α)}
    (hfits : Runs.Along (step code) (Fits code) (start clock) acts)
    (h : Runs.exec (step code) (start clock) acts = some s) :
    Kept Coroutines.start s.machine.runtime ∧ Threaded code s.machine ∧ Paced s := by
  refine Runs.exec_invariant (I := fun s =>
    Kept Coroutines.start s.machine.runtime ∧ Threaded code s.machine ∧ Paced s) ?_ ?_ hfits h
  · rintro s a s' ⟨hkept, hm, hs⟩ hfit hstep
    obtain ⟨hkept', hm'⟩ := step_threaded hm (ticked_of_step hstep).1
    exact ⟨hkept.trans hkept', hm', step_paced hm hs hfit hstep⟩
  · exact ⟨⟨[], rfl, trivial⟩, start_threaded, fun _ => le_refl clock, fun _ hbody =>
      absurd rfl hbody⟩

end Steps

/-- Where the coroutines of `sleep.cxx` are: `async_run` in the first three, and
`async_sleep_loop`. -/
inductive SleepPoint
  | run
  | awaited
  | done
  | begin
  | first (i : ℕ)
  | woken (i : ℕ)
  | second (i : ℕ)
  | wokenAgain (i : ℕ)
  deriving DecidableEq

instance : Inhabited SleepPoint := ⟨.done⟩

def second : Time := 1000000000

def sleepCode : SleepPoint → Op SleepPoint (Operation String) (Answer Unit)
  | .run => .call .begin .awaited
  | .awaited => .perform (.emit "async run finished\n") fun _ => .done
  | .done => .ret
  | .begin => .perform (.emit "async run\n") fun _ => .first 0
  | .first i =>
    if i < 5 then .perform (.sleep second) fun _ => .woken i
    else .perform (.emit "loop finished\n") fun _ => .second 0
  | .woken i => .perform (.emit "waked loop\n") fun _ => .first (i + 1)
  | .second i => if i < 5 then .perform (.sleep second) fun _ => .wokenAgain i else .ret
  | .wokenAgain i => .perform (.emit "waked loop 2\n") fun _ => .second (i + 1)

/-- From one sleep to the next; the timer is taken out in the moment at which it is
due. -/
def sleepRound (i : ℕ) : List (Act SleepPoint Unit) :=
  let now : Time := (i + 1) * second
  let rest : List (Act SleepPoint Unit) :=
    [.emit, .sleep now now, .leave, .sched (.expire now 0), .sched .test]
  .sched (.expire now 0) :: if i = 4 then .emit :: rest else rest

def sleepRun : List (Act SleepPoint Unit) :=
  List.flatten
    [[.spawn 0 .run, .call 1, .emit, .sleep 0 0, .awaitTask, .sched .run, .sched .test],
      (List.range 9).flatMap sleepRound,
      [.sched (.expire (10 * second) 0), .emit, .finish, .destroyTask, .emit, .finish, .leave,
        .sched (.expire (10 * second) 0), .sched .test]]

end Bc.SleepingThreads
