import Bc.TaskThreads

/-!
Which threads a run has. A spawn in the code of a thread begins one thread, at the
body that the code names, and nothing else does but `main`; so what a thread has
spawned in any run is what its code spawns when it runs by itself.
-/
namespace Bc.SpawnedThreads

open Scheduling TaskPrograms TaskThreads
open CallStacks hiding step Step step_cases
open Coroutines hiding Act step Step step_cases start

variable {σ ε α : Type*}

/-- A thread that is begun at `body` by another one, or by `main`. -/
structure Birth (σ : Type*) where
  parent : Option Frame
  thread : Frame
  body : σ
  deriving DecidableEq

/-- What the code on top of the stack spawns with its next mark. -/
def spawnAt (code : σ → Op σ (Operation ε) (Answer α)) :
    List σ → Mark (Operation ε) (Answer α) → List σ
  | point :: _, .spawned _ =>
    match code point with
    | .spawn body _ => [body]
    | _ => []
  | _, _ => []

def births (code : σ → Op σ (Operation ε) (Answer α)) (m : Machine σ ε α) :
    Act σ α → List (Birth σ)
  | .spawn coro body => [⟨none, coro, body⟩]
  | .call task =>
    match m.runtime.stack with
    | [] => []
    | coro :: _ =>
      (spawnAt code [(m.phase coro).current] (.spawned (.task task))).map fun body =>
        ⟨some (m.thread coro), task, body⟩
  | _ => []

def children (born : List (Birth σ)) (thread : Frame) : List (Birth σ) :=
  born.filter fun birth => birth.parent = some thread

/-- `born` has the threads of the run so far. -/
structure Born [DecidableEq ε] (code : σ → Op σ (Operation ε) (Answer α)) (m : Machine σ ε α)
    (born : List (Birth σ)) : Prop where
  known : ∀ birth ∈ born, Known m.runtime birth.thread
  nodup : (born.map Birth.thread).Nodup
  bodies : ∀ thread body, m.bodies thread = some body ↔
    ∃ parent, ⟨parent, thread, body⟩ ∈ born
  rooted : ∀ thread, m.calls thread ≠ [] → m.bodies thread ≠ none
  parents : ∀ birth ∈ born, ∀ parent, birth.parent = some parent → m.bodies parent ≠ none
  spawned : ∀ thread body, m.bodies thread = some body →
    (children born thread).map Birth.body =
      Runs.trace (CallStacks.step code) (spawnAt code) [body] (m.log thread)

section Traces

variable {code : σ → Op σ (Operation ε) (Answer α)}

theorem spawnAt_of_ne {points : List σ} {mark : Mark (Operation ε) (Answer α)}
    (h : ∀ answer, mark ≠ .spawned answer) : spawnAt code points mark = [] := by
  cases points with
  | nil => rfl
  | cons point below =>
    cases mark with
    | spawned answer => exact absurd rfl (h answer)
    | performed | called | returned => rfl

theorem spawnAt_spawn {point body : σ} {next : Answer α → σ} {below : List σ}
    (h : code point = .spawn body next) (answer : Answer α) :
    spawnAt code (point :: below) (.spawned answer) = [body] := by
  simp only [spawnAt, h]

theorem trace_of_no_spawn [DecidableEq ε] {points : List σ}
    {marks : List (Mark (Operation ε) (Answer α))} (h : ∀ answer, .spawned answer ∉ marks) :
    Runs.trace (CallStacks.step code) (spawnAt code) points marks = [] := by
  induction marks generalizing points with
  | nil => rfl
  | cons mark rest ih =>
    simp only [List.mem_cons, not_or, forall_and] at h
    rw [Runs.trace, spawnAt_of_ne fun answer => Ne.symm (h.1 answer), List.nil_append]
    cases CallStacks.step code points mark with
    | none => rfl
    | some points' => exact ih h.2

theorem log_appended {P : List (Mark (Operation ε) (Answer α)) → Prop}
    {log : Frame → List (Mark (Operation ε) (Answer α))} {top : Frame}
    {marks : List (Mark (Operation ε) (Answer α))} (hnil : P []) (h : P marks) (thread : Frame) :
    ∃ marks', Function.update log top (log top ++ marks) thread = log thread ++ marks' ∧
      P marks' := by
  by_cases heq : thread = top
  · subst heq
    exact ⟨marks, Function.update_self .., h⟩
  · refine ⟨[], ?_, hnil⟩
    rw [List.append_nil]
    exact Function.update_of_ne heq ..

theorem births_of_starts {m : Machine σ ε α} {a : Act σ α} (h : a.starts = none) :
    births code m a = [] := by
  cases a with
  | spawn | call => cases h
  | emit | sleep | suspend | answer | openSocket | closeSocket | done | awaitTask | destroyTask
  | finish | leave | refuse | sched => rfl

end Traces

section Births

variable [DecidableEq ε] {code : σ → Op σ (Operation ε) (Answer α)} {m m' : Machine σ ε α}
  {born : List (Birth σ)}

theorem Born.quiet (hm : Threaded code m) (hb : Born code m born)
    (hknown : ∀ coro, Known m.runtime coro → Known m'.runtime coro)
    (hbodies : m'.bodies = m.bodies)
    (hcalls : ∀ thread, m'.calls thread ≠ [] → m.calls thread ≠ [])
    (hlog : ∀ thread, ∃ marks, m'.log thread = m.log thread ++ marks ∧
      ∀ answer, .spawned answer ∉ marks) :
    Born code m' born where
  known := fun birth hbirth => hknown _ (hb.known birth hbirth)
  nodup := hb.nodup
  bodies := by
    rw [hbodies]
    exact hb.bodies
  rooted := by
    rw [hbodies]
    exact fun thread hne => hb.rooted thread (hcalls thread hne)
  parents := by
    rw [hbodies]
    exact hb.parents
  spawned := by
    rw [hbodies]
    intro thread body hbody
    obtain ⟨marks, hmarks, hnone⟩ := hlog thread
    rw [hmarks, Runs.trace_append marks (hm.exec thread body hbody), trace_of_no_spawn hnone,
      List.append_nil]
    exact hb.spawned thread body hbody

theorem Born.unused {task : Frame} (hb : Born code m born) (hfresh : ¬Known m.runtime task) :
    m.bodies task = none := by
  rw [← Option.not_isSome_iff_eq_none, Option.isSome_iff_exists]
  rintro ⟨body, hbody⟩
  obtain ⟨parent, hbirth⟩ := (hb.bodies task body).mp hbody
  exact hfresh (hb.known _ hbirth)

theorem Born.begun {parent : Option Frame} {task : Frame} {body : σ} (hb : Born code m born)
    (hknown : ∀ coro, Known m.runtime coro → Known m'.runtime coro)
    (hfresh : ¬Known m.runtime task) (hfresh' : Known m'.runtime task)
    (hbodies : m'.bodies = Function.update m.bodies task (some body))
    (hparent : ∀ thread, parent = some thread → m.bodies thread ≠ none)
    (hcalls : ∀ thread ≠ task, m'.calls thread = m.calls thread)
    (hlog : m'.log task = [])
    (htrace : ∀ thread ≠ task, ∀ start, m.bodies thread = some start →
      Runs.trace (CallStacks.step code) (spawnAt code) [start] (m'.log thread) =
        Runs.trace (CallStacks.step code) (spawnAt code) [start] (m.log thread) ++
          (children [⟨parent, task, body⟩] thread).map Birth.body) :
    Born code m' (born ++ [⟨parent, task, body⟩]) := by
  have hnone := hb.unused hfresh
  have hnew : ∀ birth ∈ born, birth.thread ≠ task :=
    fun birth hbirth heq => hfresh (heq ▸ hb.known birth hbirth)
  have hsome : ∀ thread, m.bodies thread ≠ none → m'.bodies thread ≠ none := by
    intro thread hne
    have hother : thread ≠ task := by
      rintro rfl
      exact hne hnone
    rwa [hbodies, Function.update_of_ne hother]
  constructor
  case known =>
    rw [List.forall_mem_append, List.forall_mem_singleton]
    exact ⟨fun birth hbirth => hknown _ (hb.known birth hbirth), hfresh'⟩
  case nodup =>
    rw [List.map_append, List.map_singleton, List.nodup_append]
    refine ⟨hb.nodup, List.nodup_singleton _, ?_⟩
    rw [List.forall_mem_map]
    intro birth hbirth other hother
    rw [List.mem_singleton.mp hother]
    exact hnew birth hbirth
  case bodies =>
    intro thread start
    simp only [List.mem_append, List.mem_singleton, exists_or]
    rw [hbodies]
    by_cases heq : thread = task
    · subst heq
      rw [Function.update_self]
      constructor
      · rintro ⟨⟩
        exact Or.inr ⟨parent, rfl⟩
      · rintro (⟨other, hbirth⟩ | ⟨other, heq⟩)
        · exact absurd rfl (hnew _ hbirth)
        · cases heq
          rfl
    · rw [Function.update_of_ne heq, hb.bodies thread start, or_iff_left]
      rintro ⟨other, heq'⟩
      cases heq'
      exact heq rfl
  case rooted =>
    intro thread hne
    by_cases heq : thread = task
    · rw [hbodies, heq, Function.update_self]
      exact Option.some_ne_none _
    · rw [hcalls thread heq] at hne
      exact hsome thread (hb.rooted thread hne)
  case parents =>
    rw [List.forall_mem_append, List.forall_mem_singleton]
    exact ⟨fun birth hbirth thread heq => hsome thread (hb.parents birth hbirth thread heq),
      fun thread heq => hsome thread (hparent thread heq)⟩
  case spawned =>
    intro thread start hstart
    rw [hbodies] at hstart
    by_cases heq : thread = task
    · -- Nobody has the new thread for its parent.
      subst heq
      rw [hlog]
      have hchildren : ∀ birth ∈ born ++ [⟨parent, thread, body⟩], birth.parent ≠ some thread := by
        rw [List.forall_mem_append, List.forall_mem_singleton]
        exact ⟨fun birth hbirth hbirth' => hb.parents birth hbirth thread hbirth' hnone,
          fun hbirth => hparent thread hbirth hnone⟩
      rw [children, List.filter_eq_nil_iff.mpr fun birth hbirth => by
        simpa using hchildren birth hbirth]
      rfl
    · rw [Function.update_of_ne heq] at hstart
      rw [htrace thread heq start hstart, children, List.filter_append, List.map_append]
      exact congrArg (· ++ _) (hb.spawned thread start hstart)

theorem Born.spawn {coro task : Frame} {below : List Frame} {point body : σ}
    {next : Answer α → σ} {runtime : Runtime} (hm : Threaded code m) (hb : Born code m born)
    (hknown : ∀ other, Known m.runtime other → Known runtime other)
    (hstack : m.runtime.stack = coro :: below) (hphase : m.phase coro = .body point)
    (hcode : code point = .spawn body next)
    (hstart : Coroutines.step m.runtime (.start task) = some runtime) :
    Born code ((m.advance coro (.body (next (.task task))) [.spawned (.task task)]
        m.runtime).begin task body runtime)
      (born ++ [⟨some (m.thread coro), task, body⟩]) := by
  obtain ⟨hfresh, hfresh'⟩ := started hstart
  have hlive := hm.live_of_running hstack
  obtain ⟨rest, hcalls⟩ := hm.innermost hlive (by simp [hphase, Phase.joins])
  refine hb.begun hknown hfresh hfresh' rfl ?_ ?_ (Function.update_self ..) ?_
  · rintro thread ⟨⟩
    exact hb.rooted _ (by simp [hcalls])
  · exact fun thread hne => Function.update_of_ne hne ..
  · intro thread hne start hstart
    simp only [Machine.begin, Machine.advance]
    rw [Function.update_of_ne hne]
    by_cases heq : thread = m.thread coro
    · subst heq
      have hrun := hm.exec _ start hstart
      rw [hcalls, List.map_cons, hphase] at hrun
      rw [Function.update_self, Runs.trace_append _ hrun, Runs.trace, Phase.current,
        spawnAt_spawn hcode, CallStacks.step_spawn hcode]
      simp [children, Runs.trace]
    · have hparent : some (m.thread coro) ≠ some thread := fun h => heq (Option.some.inj h).symm
      rw [Function.update_of_ne heq]
      simp [children, hparent]

theorem step_born {a : Act σ α} (hm : Threaded code m) (hb : Born code m born)
    (h : step code m a = some m') : Born code m' (born ++ births code m a) := by
  have hknown : ∀ coro, Known m.runtime coro → Known m'.runtime coro :=
    fun _ => (step_threaded hm h).1.known
  cases step_cases h with
  | main coro body runtime hstack hstart =>
    obtain ⟨hfresh, hfresh'⟩ := started hstart
    refine hb.begun hknown hfresh hfresh' rfl ?_ ?_ (Function.update_self ..) ?_
    · rintro thread ⟨⟩
    · exact fun thread hne => Function.update_of_ne hne ..
    · intro thread hne start _
      simp [Machine.begin, Function.update_of_ne hne, children]
  | loop a ract runtime hact hstep =>
    rw [births_of_starts (Act.starts_ofLoop hact), List.append_nil]
    exact hb.quiet hm hknown rfl (fun _ hne => hne) fun thread => ⟨[], by simp, by simp⟩
  | advance a coro below phase marks runtime hstack hadvance heffects =>
    rw [births_of_starts heffects.starts, List.append_nil]
    exact hb.quiet hm hknown rfl (fun _ hne => hne)
      (log_appended (fun _ => List.not_mem_nil) heffects.spawned)
  | call task coro below point body next runtime hstack hphase hcode hstart =>
    have hnone : births code m (.call task) = [] := by
      simp [births, hstack, hphase, Phase.current, spawnAt, hcode]
    have hlive := hm.live_of_running hstack
    obtain ⟨rest, hcalls⟩ := hm.innermost hlive (by simp [hphase, Phase.joins])
    rw [hnone, List.append_nil]
    refine hb.quiet hm hknown rfl ?_ (log_appended (fun _ => List.not_mem_nil) (by simp))
    intro thread hne
    by_cases heq : thread = m.thread coro
    · simp [heq, hcalls]
    · simpa [Machine.enter, Machine.advance, Function.update_of_ne heq] using hne
  | spawn task coro below point body next runtime hstack hphase hcode hadvance hstart =>
    have hone : births code m (.call task) = [⟨some (m.thread coro), task, body⟩] := by
      simp [births, hstack, hphase, Phase.current, spawnAt, hcode]
    rw [hone]
    exact hb.spawn hm hknown hstack hphase hcode hstart
  | awaitTask | destroyTask | destroy =>
    rw [births_of_starts rfl, List.append_nil]
    exact hb.quiet hm hknown rfl (fun _ hne => hne)
      (log_appended (fun _ => List.not_mem_nil) (by simp))
  | finish coro below point hstack hphase hcode =>
    rw [births_of_starts rfl, List.append_nil]
    refine hb.quiet hm hknown rfl ?_ (log_appended (fun _ => List.not_mem_nil) (by simp))
    intro thread hne
    by_cases heq : thread = m.thread coro
    · subst heq
      refine fun hnil => hne ?_
      simp only [Machine.exit, Machine.advance]
      rw [Function.update_self, hnil, List.erase_nil]
    · simpa [Machine.exit, Machine.advance, Function.update_of_ne heq] using hne

/-- A step begins a thread or goes on with its log; what a socket has answered comes with
the step that resumes a coroutine. -/
theorem log_of_step {a : Act σ α} (h : step code m a = some m') (thread : Frame) :
    (m'.log thread = [] ∧
        ∃ runtime, Coroutines.step m.runtime (.start thread) = some runtime) ∨
      (m'.bodies thread = m.bodies thread ∧ ∃ marks, m'.log thread = m.log thread ++ marks ∧
        ∀ awaiter fd answer, .performed (.awaitSocket awaiter fd) answer ∈ marks →
          ∃ result, a = .answer result) := by
  cases step_cases h with
  | main coro body runtime hstack hstart =>
    by_cases heq : thread = coro
    · subst heq
      exact Or.inl ⟨Function.update_self .., runtime, hstart⟩
    · refine Or.inr ⟨Function.update_of_ne heq .., [], ?_, by simp⟩
      rw [List.append_nil]
      exact Function.update_of_ne heq ..
  | loop => exact Or.inr ⟨rfl, [], by simp, by simp⟩
  | advance _ coro below phase marks runtime hstack hadvance heffects =>
    exact Or.inr ⟨rfl, log_appended (by simp) heffects.awaited thread⟩
  | call => exact Or.inr ⟨rfl, log_appended (by simp) (by simp) thread⟩
  | spawn task coro below point body next runtime hstack hphase hcode hadvance hstart =>
    by_cases heq : thread = task
    · subst heq
      exact Or.inl ⟨Function.update_self .., runtime, hstart⟩
    · refine Or.inr ⟨Function.update_of_ne heq .., ?_⟩
      simp only [Machine.begin, Machine.advance]
      rw [Function.update_of_ne heq]
      exact log_appended (by simp) (by simp) thread
  | awaitTask | destroyTask | destroy | finish =>
    exact Or.inr ⟨rfl, log_appended (by simp) (by simp) thread⟩

theorem start_born [Inhabited σ] : Born code (TaskPrograms.start : Machine σ ε α) [] where
  known := by simp
  nodup := List.nodup_nil
  bodies := by simp [TaskPrograms.start]
  rooted := fun _ hne => absurd rfl hne
  parents := by simp
  spawned := fun _ _ hbody => by cases hbody

theorem run_born [Inhabited σ] {acts : List (Act σ α)}
    (h : Runs.exec (step code) start acts = some m) :
    Born code m (Runs.trace (step code) (births code) start acts) := by
  refine (Runs.trace_invariant (I := fun m born => Threaded code m ∧ Born code m born) ?_
    ⟨start_threaded, start_born⟩ h).2
  intro m born a m' hm hstep
  exact ⟨(step_threaded hm.1 hstep).2, step_born hm.1 hm.2 hstep⟩

/-- In every run the threads are those that `main` or another thread begins, each in a
frame of its own and at the body that was called. What a thread has begun is, in its
order, what its code spawns when it runs alone and gets the same answers: whatever else
is resumed in between, no spawn is lost and none is made twice. -/
theorem threads_spawned [Inhabited σ] {acts : List (Act σ α)}
    (h : Runs.exec (step code) start acts = some m) :
    ((Runs.trace (step code) (births code) start acts).map Birth.thread).Nodup ∧
      (∀ thread body, m.bodies thread = some body ↔
        ∃ parent, ⟨parent, thread, body⟩ ∈ Runs.trace (step code) (births code) start acts) ∧
      ∀ thread body, m.bodies thread = some body →
        (children (Runs.trace (step code) (births code) start acts) thread).map Birth.body =
          Runs.trace (CallStacks.step code) (spawnAt code) [body] (m.log thread) := by
  have hb := run_born h
  exact ⟨hb.nodup, hb.bodies, hb.spawned⟩

end Births

/-- From `0` the code spawns a program that sleeps and one that does not. -/
def forkCode : ℕ → Op ℕ (Operation ℕ) (Answer Unit)
  | 0 => .spawn 2 fun _ => 1
  | 1 => .spawn 3 fun _ => 4
  | 2 => .perform (.sleep 1) fun _ => 3
  | 3 => .perform (.emit 5) fun _ => 4
  | _ => .ret

/-- Twice the same code, the second time while a thread of the first still sleeps. -/
def forkRun : List (Act ℕ Unit) :=
  [.spawn 0 0, .call 1, .sleep 0 0, .call 2, .emit, .finish, .finish, .spawn 3 0, .call 4,
    .sleep 0 1, .emit, .finish, .call 5, .emit]

theorem threads_spawned_fork : ∃ m, Runs.exec (step forkCode) start forkRun = some m ∧
    1 ∈ m.runtime.live ∧
      Runs.trace (CallStacks.step forkCode) (spawnAt forkCode) [0] (m.log 3) = [2, 3] := by
  have hrun : ((Runs.exec (step forkCode) start forkRun).map fun m =>
      (decide (1 ∈ m.runtime.live), m.bodies 3,
        (children (Runs.trace (step forkCode) (births forkCode) start forkRun) 3).map Birth.body)) =
        some (true, some 0, [2, 3]) := by
    decide +kernel
  obtain ⟨m, hm, heq⟩ := Option.map_eq_some_iff.mp hrun
  simp only [Prod.mk.injEq, decide_eq_true_eq] at heq
  obtain ⟨hlive, hbody, hchildren⟩ := heq
  obtain ⟨-, -, hspawned⟩ := threads_spawned hm
  exact ⟨m, hm, hlive, (hspawned 3 0 hbody).symm.trans hchildren⟩

end Bc.SpawnedThreads
