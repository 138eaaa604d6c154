import Bc.TaskPrograms

/-!
The threads that coroutines form by awaiting the tasks they make. The invariant
says where the coroutines of a thread are: all but the innermost one have made
the next and await it, so nothing that one of them does comes between the steps
of those it has called.
-/
namespace Bc.TaskThreads

open Scheduling TaskPrograms
open CallStacks hiding step Step step_cases
open Coroutines hiding Act step Step step_cases start
open HandleOwnership hiding step_heldOnce
open RunCompletion

variable {σ ε α : Type*} {m m' : Machine σ ε α}

theorem map_current_update {f : Frame → Phase σ} {coro : Frame} {phase : Phase σ} {l : List Frame}
    (hcoro : coro ∉ l) :
    (l.map fun other => (Function.update f coro phase other).current) =
      l.map fun other => (f other).current := by
  apply List.map_congr_left
  intro other hother
  rw [Function.update_of_ne (ne_of_mem_of_not_mem hother hcoro)]

/-- The handle that a task has been given by the call at `coro`. -/
def handle (coro : Frame) : Phase σ → Option Frame
  | .leaving _ _ => some coro
  | _ => none

section Runtimes

variable {s s' : Runtime} {coro : Frame}

def Known (s : Runtime) (coro : Frame) : Prop :=
  coro ∈ s.live ∨ coro ∈ s.finished ∨ coro ∈ s.destroyed

/-- A frame whose coroutine has ended. -/
def Over (s : Runtime) (coro : Frame) : Prop :=
  coro ∉ s.live ∧ (coro ∈ s.finished ∨ coro ∈ s.destroyed)

theorem step_over {a : Coroutines.Act} (hs : Over s coro) (h : Coroutines.step s a = some s') :
    Over s' coro := by
  obtain ⟨hlive, hended⟩ := hs
  cases Coroutines.step_cases h with
  | start new hactive hnew hfinished hdestroyed =>
    have hne : coro ≠ new := by
      rintro rfl
      exact hended.elim hfinished hdestroyed
    exact ⟨List.not_mem_cons_of_ne_of_not_mem hne hlive, hended⟩
  | finish =>
    exact ⟨fun hmem => hlive (List.mem_of_mem_erase hmem), hended.imp_left (List.mem_cons_of_mem _)⟩
  | destroyTask task =>
    refine ⟨fun hmem => hlive (List.mem_of_mem_erase hmem), ?_⟩
    by_cases heq : coro = task
    · subst heq
      exact Or.inr List.mem_cons_self
    · exact hended.imp (List.mem_erase_of_ne heq).mpr (List.mem_cons_of_mem _)
  | sleep | awaitSocket | awaitDone | awaitTask | openSocket | closeSocket | leave | refuse
  | sched => exact ⟨hlive, hended⟩

theorem started (h : Coroutines.step s (.start coro) = some s') :
    ¬Known s coro ∧ Known s' coro := by
  cases Coroutines.step_cases h with
  | start _ hactive hlive hfinished hdestroyed =>
    exact ⟨fun hknown => hknown.elim hlive (Or.rec hfinished hdestroyed),
      Or.inl List.mem_cons_self⟩

/-- No coroutine goes on that has been destroyed. -/
def Gone (s : Runtime) : Prop := ∀ coro ∈ s.destroyed, coro ∉ s.live

theorem step_gone {a : Coroutines.Act} (hs : HeldOnce s) (hgone : Gone s) (hd : Disciplined s a)
    (h : Coroutines.step s a = some s') : Gone s' := by
  cases Coroutines.step_cases h with
  | start new hactive hlive hfinished hdestroyed =>
    intro coro hcoro
    exact List.not_mem_cons_of_ne_of_not_mem (ne_of_mem_of_not_mem hcoro hdestroyed)
      (hgone coro hcoro)
  | finish => exact fun coro hcoro hmem => hgone coro hcoro (List.mem_of_mem_erase hmem)
  | destroyTask task =>
    intro coro hcoro hmem
    have hlive := List.mem_of_mem_erase hmem
    rcases List.mem_cons.mp hcoro with rfl | hcoro
    · exact hs.apart _ hd hlive
    · exact hgone coro hcoro hlive
  | sleep | awaitSocket | awaitDone | awaitTask | openSocket | closeSocket | leave | refuse
  | sched => exact hgone

/-- The runtime goes from one state to another without a step that a caller of
the coroutines would have to answer for. -/
def Kept (s s' : Runtime) : Prop :=
  ∃ acts, Runs.exec Coroutines.step s acts = some s' ∧
    Runs.Along Coroutines.step (fun s a => Disciplined s a ∧ Structured s a) s acts

theorem Kept.refl (s : Runtime) : Kept s s := ⟨[], rfl, trivial⟩

theorem Kept.one {a : Coroutines.Act} (h : Coroutines.step s a = some s')
    (hd : Disciplined s a) (hstructured : Structured s a) : Kept s s' :=
  ⟨[a], Runs.exec_one h, Runs.along_cons.mpr ⟨⟨hd, hstructured⟩, fun _ _ => trivial⟩⟩

theorem Kept.of_rests (h : Rests s s') : Kept s s' := by
  rcases h with rfl | ⟨a, ha, hstep⟩
  · exact ⟨[], rfl, trivial⟩
  · refine Kept.one hstep ?_ ?_ <;> cases a <;> first | exact ha.elim | trivial

theorem Kept.heldOnce (h : Kept s s') (hs : HeldOnce s) : HeldOnce s' := by
  obtain ⟨acts, hrun, hkept⟩ := h
  refine Runs.exec_invariant (fun _ _ _ hs hP hstep => ?_) hs hkept hrun
  exact HandleOwnership.step_heldOnce hs hP.1 hstep

theorem Kept.over (h : Kept s s') (hs : Over s coro) : Over s' coro := by
  obtain ⟨acts, hrun, -⟩ := h
  exact Runs.exec_preserves (fun _ _ _ ht hstep => step_over ht hstep) hs hrun

theorem Kept.destroyed (h : Kept s s') (hs : coro ∈ s.destroyed) : coro ∈ s'.destroyed := by
  obtain ⟨acts, hrun, -⟩ := h
  refine Runs.exec_preserves (I := fun t => coro ∈ t.destroyed) (fun t a t' ht hstep => ?_) hs hrun
  cases Coroutines.step_cases hstep with
  | destroyTask => exact List.mem_cons_of_mem _ ht
  | start | finish | sleep | awaitSocket | awaitDone | awaitTask | openSocket | closeSocket | leave
  | refuse | sched => exact ht

theorem Kept.gone (h : Kept s s') (hs : HeldOnce s) (hgone : Gone s) : Gone s' := by
  obtain ⟨acts, hrun, hkept⟩ := h
  refine (Runs.exec_invariant (I := fun t => HeldOnce t ∧ Gone t) ?_ ⟨hs, hgone⟩ hkept hrun).2
  intro t a t' ht hP hstep
  exact ⟨HandleOwnership.step_heldOnce ht.1 hP.1 hstep, step_gone ht.1 ht.2 hP.1 hstep⟩

theorem Kept.trans {t u : Runtime} (hst : Kept s t) (htu : Kept t u) : Kept s u := by
  obtain ⟨left, hleft, hleft'⟩ := hst
  obtain ⟨right, hright, hright'⟩ := htu
  refine ⟨left ++ right, ?_, Runs.along_append.mpr ⟨hleft', ?_⟩⟩
  · rw [Runs.exec_append, hleft]
    exact hright
  · intro v hv
    rw [hleft] at hv
    obtain rfl := Option.some.inj hv
    exact hright'

theorem Kept.known (h : Kept s s') (hs : Known s coro) : Known s' coro := by
  obtain ⟨acts, hrun, -⟩ := h
  exact Runs.exec_preserves (fun _ _ _ ht hstep => step_accounted ht hstep) hs hrun

end Runtimes

variable [DecidableEq ε]

structure Threaded (code : σ → Op σ (Operation ε) (Answer α)) (m : Machine σ ε α) : Prop where
  held : HeldOnce m.runtime
  stacked : ∀ thread, (m.calls thread).Sublist m.runtime.live
  own : ∀ thread, ∀ coro ∈ m.calls thread, m.thread coro = thread
  placed : ∀ coro ∈ m.runtime.live, coro ∈ m.calls (m.thread coro)
  rooted : ∀ thread, m.calls thread ≠ [] → [thread] <:+ m.calls thread
  chain : ∀ thread, (m.calls thread).IsChain fun task coro => (m.phase coro).joins = some task
  joined : ∀ coro ∈ m.runtime.live, ∀ task, (m.phase coro).joins = some task →
    task ∈ m.runtime.finished ∨ [task, coro] <:+: m.calls (m.thread coro)
  unique : ∀ coro ∈ m.runtime.live, ∀ other ∈ m.runtime.live, ∀ task,
    (m.phase coro).joins = some task → (m.phase other).joins = some task → coro = other
  prev : ∀ coro ∈ m.runtime.live, ∀ task ∈ m.runtime.live, (m.phase coro).joins = some task →
    m.runtime.prev task = handle coro (m.phase coro)
  roots : ∀ thread, m.bodies thread ≠ none → Known m.runtime thread
  inner : ∀ coro ∈ m.runtime.live, ∀ task, (m.phase coro).joins = some task →
    m.bodies task = none
  exec : ∀ thread body, m.bodies thread = some body →
    Runs.exec (CallStacks.step code) [body] (m.log thread) =
      some ((m.calls thread).map fun coro => (m.phase coro).current)

variable {code : σ → Op σ (Operation ε) (Answer α)}

namespace Threaded

theorem live_of_running {coro : Frame} {below : List Frame} (hm : Threaded code m)
    (hstack : m.runtime.stack = coro :: below) : coro ∈ m.runtime.live :=
  hm.held.live_of_running (by simp [hstack])

theorem nodup (hm : Threaded code m) (thread : Frame) : (m.calls thread).Nodup :=
  hm.held.nodup.sublist (hm.stacked thread)

theorem known {coro task : Frame} (hm : Threaded code m) (hlive : coro ∈ m.runtime.live)
    (hjoins : (m.phase coro).joins = some task) :
    task ∈ m.runtime.finished ∨ task ∈ m.runtime.live := by
  refine (hm.joined coro hlive task hjoins).imp_right fun hcalled => ?_
  exact (hm.stacked _).subset (hcalled.subset (List.mem_cons_self ..))

/-- A coroutine that has not called another, or whose task has ended, is the
innermost one of its thread. -/
theorem innermost {coro : Frame} (hm : Threaded code m) (hlive : coro ∈ m.runtime.live)
    (hfree : ∀ task ∈ m.runtime.live, (m.phase coro).joins ≠ some task) :
    ∃ rest, m.calls (m.thread coro) = coro :: rest := by
  obtain ⟨left, rest, hsplit⟩ := List.append_of_mem (hm.placed coro hlive)
  rcases List.eq_nil_or_concat left with rfl | ⟨init, task, rfl⟩
  · exact ⟨rest, hsplit⟩
  · have hchain := hm.chain (m.thread coro)
    have hmem : task ∈ m.calls (m.thread coro) := by simp [hsplit]
    rw [hsplit, List.concat_eq_append, List.append_assoc, List.singleton_append,
      List.isChain_append_cons_cons] at hchain
    exact absurd hchain.2.1 (hfree task ((hm.stacked _).subset hmem))

/-- The innermost coroutine of its thread is inside no other. -/
theorem notMem_tail {coro : Frame} {rest : List Frame} (hm : Threaded code m)
    (hcalls : m.calls (m.thread coro) = coro :: rest) (thread : Frame) :
    coro ∉ (m.calls thread).tail := by
  intro hmem
  obtain rfl := hm.own thread coro (List.mem_of_mem_tail hmem)
  have hnodup := hm.nodup (m.thread coro)
  rw [hcalls] at hmem hnodup
  exact (List.nodup_cons.mp hnodup).1 hmem

theorem notMem_calls {coro thread : Frame} (hm : Threaded code m) (hne : thread ≠ m.thread coro) :
    coro ∉ m.calls thread :=
  fun hmem => hne (hm.own thread coro hmem).symm

theorem mem_calls {thread : Frame} (hm : Threaded code m) (hbody : m.bodies thread ≠ none)
    (hlive : thread ∈ m.runtime.live) : thread ∈ m.calls thread := by
  have hmem := hm.placed thread hlive
  obtain ⟨left, rest, hsplit⟩ := List.append_of_mem hmem
  cases rest with
  | nil =>
    have hrooted := hm.rooted _ (List.ne_nil_of_mem hmem)
    rw [hsplit, List.singleton_suffix_append_singleton_iff] at hrooted
    rwa [hrooted] at hmem
  | cons coro rest =>
    have hchain := hm.chain (m.thread thread)
    rw [hsplit, List.isChain_append_cons_cons] at hchain
    have hcoro : coro ∈ m.runtime.live := (hm.stacked _).subset (by rw [hsplit]; simp)
    exact absurd (hm.inner coro hcoro thread hchain.2.1) hbody

/-- The innermost coroutine of a thread moves the stack of the thread. -/
theorem exec_advance {coro : Frame} {rest : List Frame} {phase : Phase σ}
    {marks : List (Mark (Operation ε) (Answer α))} (hm : Threaded code m)
    (hcalls : m.calls (m.thread coro) = coro :: rest)
    (hexec : ∀ below, Runs.exec (CallStacks.step code) ((m.phase coro).current :: below) marks =
      some (phase.current :: below)) (thread : Frame) (body : σ)
    (hbody : m.bodies thread = some body) :
    Runs.exec (CallStacks.step code) [body]
        (Function.update m.log (m.thread coro) (m.log (m.thread coro) ++ marks) thread) =
      some ((m.calls thread).map fun other =>
        (Function.update m.phase coro phase other).current) := by
  have hrun := hm.exec thread body hbody
  by_cases heq : thread = m.thread coro
  · subst heq
    have hrest : coro ∉ rest := by
      have hnot := hm.notMem_tail hcalls (m.thread coro)
      rwa [hcalls] at hnot
    rw [hcalls, List.map_cons] at hrun ⊢
    rw [Function.update_self, Runs.exec_append, hrun, Function.update_self,
      map_current_update hrest]
    exact hexec _
  · rw [Function.update_of_ne heq, hrun, map_current_update (hm.notMem_calls heq)]

theorem advance {coro : Frame} {below : List Frame} {phase : Phase σ}
    {marks : List (Mark (Operation ε) (Answer α))} {runtime : Runtime} (hm : Threaded code m)
    (hstack : m.runtime.stack = coro :: below)
    (hadvance : Advance code m coro phase marks runtime) (hkept : Kept m.runtime runtime) :
    Threaded code (m.advance coro phase marks runtime) := by
  obtain ⟨hfree, hfree', hrests, hexec⟩ := hadvance
  obtain ⟨hlive, hfinished, -, hprev⟩ := hrests.sameTasks
  obtain ⟨rest, hcalls⟩ := hm.innermost (hm.live_of_running hstack) (by simp [hfree])
  have hphase : ∀ other task, (Function.update m.phase coro phase other).joins = some task →
      other ≠ coro ∧ (m.phase other).joins = some task := by
    intro other task hjoins
    by_cases heq : other = coro
    · rw [heq, Function.update_self, hfree'] at hjoins
      cases hjoins
    · rw [Function.update_of_ne heq] at hjoins
      exact ⟨heq, hjoins⟩
  constructor <;> simp only [Machine.advance]
  case held => exact hkept.heldOnce hm.held
  case stacked =>
    rw [hlive]
    exact hm.stacked
  case own => exact hm.own
  case placed =>
    rw [hlive]
    exact hm.placed
  case rooted => exact hm.rooted
  case chain =>
    intro thread
    refine List.IsChain.imp_of_mem_tail_imp ?_ (hm.chain thread)
    intro task other _ hother hjoins
    have hne : other ≠ coro := ne_of_mem_of_not_mem hother (hm.notMem_tail hcalls thread)
    rwa [Function.update_of_ne hne]
  case joined =>
    rw [hlive, hfinished]
    intro other hother task hjoins
    exact hm.joined other hother task (hphase other task hjoins).2
  case unique =>
    rw [hlive]
    intro other hother another hanother task hjoins hjoins'
    exact hm.unique other hother another hanother task (hphase other task hjoins).2
      (hphase another task hjoins').2
  case prev =>
    rw [hlive, hprev]
    intro other hother task htask hjoins
    obtain ⟨hne, hjoins⟩ := hphase other task hjoins
    rw [Function.update_of_ne hne]
    exact hm.prev other hother task htask hjoins
  case roots => exact fun thread hbody => hkept.known (hm.roots thread hbody)
  case inner =>
    rw [hlive]
    exact fun other hother task hjoins => hm.inner other hother task (hphase other task hjoins).2
  case exec => exact hm.exec_advance hcalls hexec

theorem begin {coro : Frame} {body : σ} {runtime : Runtime} (hm : Threaded code m)
    (hlive : coro ∉ m.runtime.live) (hlive' : runtime.live = coro :: m.runtime.live)
    (hfinished : coro ∉ m.runtime.finished) (hfinished' : runtime.finished = m.runtime.finished)
    (hprev : ∀ task ∈ m.runtime.live, runtime.prev task = m.runtime.prev task)
    (hkept : Kept m.runtime runtime) : Threaded code (m.begin coro body runtime) := by
  have hnone : ∀ thread, coro ∉ m.calls thread :=
    fun thread hmem => hlive ((hm.stacked thread).subset hmem)
  have hunused : m.calls coro = [] := by
    by_contra hne
    exact hnone coro ((hm.rooted coro hne).subset (List.mem_singleton_self coro))
  have hthread : ∀ other ∈ m.runtime.live, m.thread other ≠ coro := by
    intro other hother heq
    have hplaced := hm.placed other hother
    rw [heq, hunused] at hplaced
    cases hplaced
  have hold : ∀ other ∈ coro :: m.runtime.live, ∀ task,
      (Function.update m.phase coro (.body body) other).joins = some task →
        other ≠ coro ∧ other ∈ m.runtime.live ∧ (m.phase other).joins = some task := by
    intro other hother task hjoins
    by_cases heq : other = coro
    · rw [heq, Function.update_self] at hjoins
      cases hjoins
    · rw [Function.update_of_ne heq] at hjoins
      exact ⟨heq, (List.mem_cons.mp hother).resolve_left heq, hjoins⟩
  constructor <;> simp only [Machine.begin]
  case held => exact hkept.heldOnce hm.held
  case stacked =>
    intro thread
    rw [hlive']
    by_cases heq : thread = coro
    · rw [heq, Function.update_self]
      exact (List.nil_sublist _).cons_cons coro
    · rw [Function.update_of_ne heq]
      exact (hm.stacked thread).cons coro
  case own =>
    intro thread other hother
    by_cases heq : thread = coro
    · rw [heq, Function.update_self, List.mem_singleton] at hother
      rw [hother, Function.update_self, heq]
    · rw [Function.update_of_ne heq] at hother
      rw [Function.update_of_ne (ne_of_mem_of_not_mem hother (hnone thread))]
      exact hm.own thread other hother
  case placed =>
    rw [hlive']
    intro other hother
    by_cases heq : other = coro
    · simp [heq]
    · have hmem := (List.mem_cons.mp hother).resolve_left heq
      rw [Function.update_of_ne heq, Function.update_of_ne (hthread other hmem)]
      exact hm.placed other hmem
  case rooted =>
    intro thread hne
    by_cases heq : thread = coro
    · rw [heq, Function.update_self]
    · rw [Function.update_of_ne heq] at hne ⊢
      exact hm.rooted thread hne
  case chain =>
    intro thread
    by_cases heq : thread = coro
    · rw [heq, Function.update_self]
      exact List.isChain_singleton coro
    · rw [Function.update_of_ne heq]
      refine List.IsChain.imp_of_mem_tail_imp ?_ (hm.chain thread)
      intro task other _ hother hjoins
      have hmem := List.mem_of_mem_tail hother
      rwa [Function.update_of_ne (ne_of_mem_of_not_mem hmem (hnone thread))]
  case joined =>
    rw [hlive', hfinished']
    intro other hother task hjoins
    obtain ⟨hne, hmem, hjoins⟩ := hold other hother task hjoins
    rw [Function.update_of_ne hne, Function.update_of_ne (hthread other hmem)]
    exact hm.joined other hmem task hjoins
  case unique =>
    rw [hlive']
    intro other hother another hanother task hjoins hjoins'
    obtain ⟨-, hmem, hjoins⟩ := hold other hother task hjoins
    obtain ⟨-, hmem', hjoins'⟩ := hold another hanother task hjoins'
    exact hm.unique other hmem another hmem' task hjoins hjoins'
  case prev =>
    rw [hlive']
    intro other hother task htask hjoins
    obtain ⟨hne, hmem, hjoins'⟩ := hold other hother task hjoins
    have htask' : task ∈ m.runtime.live := by
      refine (List.mem_cons.mp htask).resolve_left ?_
      rintro rfl
      exact (hm.known hmem hjoins').elim hfinished hlive
    rw [Function.update_of_ne hne, hprev task htask']
    exact hm.prev other hmem task htask' hjoins'
  case roots =>
    intro thread hbody'
    by_cases heq : thread = coro
    · rw [heq]
      exact Or.inl (hlive' ▸ List.mem_cons_self)
    · rw [Function.update_of_ne heq] at hbody'
      exact hkept.known (hm.roots thread hbody')
  case inner =>
    rw [hlive']
    intro other hother task hjoins
    obtain ⟨-, hmem, hjoins'⟩ := hold other hother task hjoins
    have hne : task ≠ coro := by
      rintro rfl
      exact (hm.known hmem hjoins').elim hfinished hlive
    rw [Function.update_of_ne hne]
    exact hm.inner other hmem task hjoins'
  case exec =>
    intro thread start hstart
    by_cases heq : thread = coro
    · rw [heq, Function.update_self] at hstart
      obtain rfl := Option.some.inj hstart
      simp [heq, Runs.exec, Phase.current]
    · rw [Function.update_of_ne heq] at hstart ⊢
      rw [Function.update_of_ne heq, map_current_update (hnone thread)]
      exact hm.exec thread start hstart

/-- The call of a coroutine function whose task is awaited at once. -/
theorem call {coro task : Frame} {below : List Frame} {point body next : σ} {runtime : Runtime}
    (hm : Threaded code m) (hstack : m.runtime.stack = coro :: below)
    (hphase : m.phase coro = .body point) (hcode : code point = .call body next)
    (hlive : task ∉ m.runtime.live) (hlive' : runtime.live = task :: m.runtime.live)
    (hfinished : task ∉ m.runtime.finished) (hfinished' : runtime.finished = m.runtime.finished)
    (hdestroyed : task ∉ m.runtime.destroyed)
    (hprev : runtime.prev = Function.update m.runtime.prev task none)
    (hkept : Kept m.runtime runtime) :
    Threaded code
      ((m.advance coro (.joining task next) [.called] runtime).enter coro task body) := by
  have hcoro := hm.live_of_running hstack
  have hfree : (m.phase coro).joins = none := by
    rw [hphase]
    rfl
  obtain ⟨rest, hcalls⟩ := hm.innermost hcoro (by simp [hfree])
  have hnone : ∀ thread, task ∉ m.calls thread :=
    fun thread hmem => hlive ((hm.stacked thread).subset hmem)
  have hne : coro ≠ task := ne_of_mem_of_not_mem hcoro hlive
  have hrest : coro ∉ rest := by
    have hnot := hm.notMem_tail hcalls (m.thread coro)
    rwa [hcalls] at hnot
  -- Who has a call open now: the caller, and those who had one before.
  have hold : ∀ other ∈ task :: m.runtime.live, ∀ t,
      (Function.update (Function.update m.phase coro (.joining task next)) task (.body body)
        other).joins = some t →
      (other = coro ∧ t = task) ∨
        (other ≠ task ∧ other ≠ coro ∧ other ∈ m.runtime.live ∧
          (m.phase other).joins = some t) := by
    intro other hother t hjoins
    by_cases heq : other = task
    · rw [heq, Function.update_self] at hjoins
      cases hjoins
    · rw [Function.update_of_ne heq] at hjoins
      by_cases heq' : other = coro
      · rw [heq', Function.update_self] at hjoins
        exact Or.inl ⟨heq', (Option.some.inj hjoins).symm⟩
      · rw [Function.update_of_ne heq'] at hjoins
        exact Or.inr ⟨heq, heq', (List.mem_cons.mp hother).resolve_left heq, hjoins⟩
  have hnew : ∀ other ∈ m.runtime.live, (m.phase other).joins ≠ some task := by
    intro other hother hjoins
    exact (hm.known hother hjoins).elim hfinished hlive
  constructor <;> simp only [Machine.enter, Machine.advance]
  case held => exact hkept.heldOnce hm.held
  case stacked =>
    intro thread
    rw [hlive']
    by_cases heq : thread = m.thread coro
    · rw [heq, Function.update_self]
      exact (hm.stacked _).cons_cons task
    · rw [Function.update_of_ne heq]
      exact (hm.stacked thread).cons task
  case own =>
    intro thread other hother
    by_cases heq : thread = m.thread coro
    · rw [heq, Function.update_self, List.mem_cons] at hother
      rcases hother with rfl | hother
      · rw [Function.update_self, heq]
      · rw [Function.update_of_ne (ne_of_mem_of_not_mem hother (hnone _)), heq]
        exact hm.own _ other hother
    · rw [Function.update_of_ne heq] at hother
      rw [Function.update_of_ne (ne_of_mem_of_not_mem hother (hnone _))]
      exact hm.own thread other hother
  case placed =>
    rw [hlive']
    intro other hother
    by_cases heq : other = task
    · simp [heq]
    · have hmem := hm.placed other ((List.mem_cons.mp hother).resolve_left heq)
      rw [Function.update_of_ne heq]
      by_cases heq' : m.thread other = m.thread coro
      · rw [heq', Function.update_self, ← heq']
        exact List.mem_cons_of_mem task hmem
      · rwa [Function.update_of_ne heq']
  case rooted =>
    intro thread hsome
    by_cases heq : thread = m.thread coro
    · rw [heq, Function.update_self]
      refine (hm.rooted _ ?_).trans (List.suffix_cons task _)
      rw [hcalls]
      exact List.cons_ne_nil coro rest
    · rw [Function.update_of_ne heq] at hsome ⊢
      exact hm.rooted thread hsome
  case chain =>
    intro thread
    have hchain : (m.calls thread).IsChain fun t other =>
        (Function.update (Function.update m.phase coro (.joining task next)) task (.body body)
          other).joins = some t := by
      refine List.IsChain.imp_of_mem_tail_imp ?_ (hm.chain thread)
      intro t other _ hother hjoins
      have hmem := List.mem_of_mem_tail hother
      rw [Function.update_of_ne (ne_of_mem_of_not_mem hmem (hnone thread)),
        Function.update_of_ne (ne_of_mem_of_not_mem hother (hm.notMem_tail hcalls thread))]
      exact hjoins
    by_cases heq : thread = m.thread coro
    · rw [heq] at hchain ⊢
      rw [Function.update_self]
      rw [hcalls] at hchain ⊢
      refine List.isChain_cons_cons.mpr ⟨?_, hchain⟩
      rw [Function.update_of_ne hne, Function.update_self]
      rfl
    · rwa [Function.update_of_ne heq]
  case joined =>
    rw [hlive', hfinished']
    intro other hother t hjoins
    rcases hold other hother t hjoins with ⟨rfl, rfl⟩ | ⟨heq, heq', hmem, hjoins⟩
    · rw [Function.update_of_ne hne, Function.update_self, hcalls]
      exact Or.inr ⟨[], rest, rfl⟩
    · refine (hm.joined other hmem t hjoins).imp_right fun hcalled => ?_
      rw [Function.update_of_ne heq]
      by_cases hsame : m.thread other = m.thread coro
      · rw [hsame, Function.update_self, ← hsame]
        exact hcalled.trans (List.suffix_cons task _).isInfix
      · rwa [Function.update_of_ne hsame]
  case unique =>
    rw [hlive']
    intro other hother another hanother t hjoins hjoins'
    rcases hold other hother t hjoins with ⟨rfl, rfl⟩ | ⟨-, -, hmem, hjoins⟩
    · rcases hold another hanother t hjoins' with ⟨rfl, -⟩ | ⟨-, -, hmem', hjoins'⟩
      · rfl
      · exact absurd hjoins' (hnew another hmem')
    · rcases hold another hanother t hjoins' with ⟨-, heq⟩ | ⟨-, -, hmem', hjoins'⟩
      · rw [heq] at hjoins
        exact absurd hjoins (hnew other hmem)
      · exact hm.unique other hmem another hmem' t hjoins hjoins'
  case prev =>
    rw [hlive', hprev]
    intro other hother t ht hjoins
    rcases hold other hother t hjoins with ⟨rfl, rfl⟩ | ⟨heq, heq', hmem, hjoins'⟩
    · rw [Function.update_self, Function.update_of_ne hne, Function.update_self]
      rfl
    · have hne' : t ≠ task := by
        rintro rfl
        exact hnew other hmem hjoins'
      have ht' := (List.mem_cons.mp ht).resolve_left hne'
      rw [Function.update_of_ne hne', Function.update_of_ne heq, Function.update_of_ne heq']
      exact hm.prev other hmem t ht' hjoins'
  case roots => exact fun thread hbody => hkept.known (hm.roots thread hbody)
  case inner =>
    rw [hlive']
    intro other hother t hjoins
    rcases hold other hother t hjoins with ⟨rfl, rfl⟩ | ⟨-, -, hmem, hjoins⟩
    · by_contra hbody
      exact (hm.roots t hbody).elim hlive (Or.rec hfinished hdestroyed)
    · exact hm.inner other hmem t hjoins
  case exec =>
    intro thread start hstart
    have hrun := hm.exec thread start hstart
    by_cases heq : thread = m.thread coro
    · subst heq
      have htask : task ∉ coro :: rest := by
        rw [← hcalls]
        exact hnone _
      rw [Function.update_self, Function.update_self, List.map_cons, Function.update_self,
        Runs.exec_append, hrun, hcalls, map_current_update htask, List.map_cons, List.map_cons,
        Function.update_self, map_current_update hrest, hphase]
      exact Runs.exec_one (step_call hcode)
    · rw [Function.update_of_ne heq, Function.update_of_ne heq, map_current_update (hnone thread),
        map_current_update (hm.notMem_calls heq)]
      exact hrun

theorem rest {runtime : Runtime} (hm : Threaded code m) (hrests : Rests m.runtime runtime)
    (hkept : Kept m.runtime runtime) : Threaded code { m with runtime := runtime } := by
  obtain ⟨hlive, hfinished, -, hprev⟩ := hrests.sameTasks
  constructor <;> simp only [hlive, hfinished, hprev]
  case held => exact hkept.heldOnce hm.held
  case stacked => exact hm.stacked
  case own => exact hm.own
  case placed => exact hm.placed
  case rooted => exact hm.rooted
  case chain => exact hm.chain
  case joined => exact hm.joined
  case unique => exact hm.unique
  case prev => exact hm.prev
  case roots => exact fun thread hbody => hkept.known (hm.roots thread hbody)
  case inner => exact hm.inner
  case exec => exact hm.exec

theorem destroyed {task : Frame} {runtime : Runtime} (hm : Threaded code m)
    (hended : task ∈ m.runtime.finished) (hbody : m.bodies task ≠ none)
    (hdestroy : runtime = m.runtime.destroyTask task) (hkept : Kept m.runtime runtime) :
    Threaded code { m with runtime := runtime } := by
  have hlive : runtime.live = m.runtime.live := by
    rw [hdestroy]
    exact List.erase_of_not_mem (hm.held.apart task hended)
  have hfinished : runtime.finished = m.runtime.finished.erase task := by rw [hdestroy]; rfl
  have hprev : runtime.prev = m.runtime.prev := by rw [hdestroy]; rfl
  constructor <;> simp only [hlive, hfinished, hprev]
  case held => exact hkept.heldOnce hm.held
  case stacked => exact hm.stacked
  case own => exact hm.own
  case placed => exact hm.placed
  case rooted => exact hm.rooted
  case chain => exact hm.chain
  case joined =>
    intro coro hcoro t hjoins
    refine (hm.joined coro hcoro t hjoins).imp_left fun hmem => ?_
    refine (List.mem_erase_of_ne ?_).mpr hmem
    rintro rfl
    exact hbody (hm.inner coro hcoro t hjoins)
  case unique => exact hm.unique
  case prev => exact hm.prev
  case roots => exact fun thread hbody => hkept.known (hm.roots thread hbody)
  case inner => exact hm.inner
  case exec => exact hm.exec

theorem awaitTask {coro task : Frame} {below : List Frame} {next : σ} {runtime : Runtime}
    (hm : Threaded code m) (hstack : m.runtime.stack = coro :: below)
    (hphase : m.phase coro = .joining task next) (hlive : runtime.live = m.runtime.live)
    (hfinished : runtime.finished = m.runtime.finished)
    (hprev : ∀ other ∈ m.runtime.live, runtime.prev other =
      if other = task then some coro else m.runtime.prev other)
    (hkept : Kept m.runtime runtime) :
    Threaded code (m.advance coro (.leaving task next) [] runtime) := by
  have hcoro := hm.live_of_running hstack
  have hsame : ∀ other, (Function.update m.phase coro (.leaving task next) other).joins =
      (m.phase other).joins := by
    intro other
    by_cases heq : other = coro
    · rw [heq, Function.update_self, hphase]
      rfl
    · rw [Function.update_of_ne heq]
  have hcurrent : ∀ other, (Function.update m.phase coro (.leaving task next) other).current =
      (m.phase other).current := by
    intro other
    by_cases heq : other = coro
    · rw [heq, Function.update_self, hphase]
      rfl
    · rw [Function.update_of_ne heq]
  constructor <;> simp only [Machine.advance, hlive, hfinished, hsame, hcurrent]
  case held => exact hkept.heldOnce hm.held
  case stacked => exact hm.stacked
  case own => exact hm.own
  case placed => exact hm.placed
  case rooted => exact hm.rooted
  case chain => exact hm.chain
  case joined => exact hm.joined
  case unique => exact hm.unique
  case prev =>
    intro other hother t ht hjoins
    rw [hprev t ht]
    by_cases heq : other = coro
    · rw [heq, hphase] at hjoins
      obtain rfl := Option.some.inj hjoins
      rw [if_pos rfl, heq, Function.update_self]
      rfl
    · have hne : t ≠ task := by
        rintro rfl
        exact heq (hm.unique other hother coro hcoro t hjoins (by simp [hphase, Phase.joins]))
      rw [if_neg hne, Function.update_of_ne heq]
      exact hm.prev other hother t ht hjoins
  case roots => exact fun thread hbody => hkept.known (hm.roots thread hbody)
  case inner => exact hm.inner
  case exec =>
    intro thread body hbody
    rw [List.append_nil, Function.update_eq_self]
    exact hm.exec thread body hbody

/-- A coroutine that runs after it has awaited the task of its call: the task
has ended. -/
theorem ended {coro task : Frame} {below : List Frame} {next : σ} (hm : Threaded code m)
    (hstack : m.runtime.stack = coro :: below) (hphase : m.phase coro = .leaving task next) :
    task ∈ m.runtime.finished := by
  have hcoro := hm.live_of_running hstack
  have hjoins : (m.phase coro).joins = some task := by
    rw [hphase]
    rfl
  refine (hm.known hcoro hjoins).resolve_right fun hlive => ?_
  have hprev := hm.prev coro hcoro task hlive hjoins
  rw [hphase] at hprev
  have hawaited : AwaitedBy task coro m.runtime := Or.inl ⟨hlive, hprev⟩
  exact hawaited.ended hm.held (by simp [hstack]) hlive

/-- The task of a call is destroyed, and the coroutine goes on behind the call. -/
theorem destroyTask {coro task : Frame} {below : List Frame} {next : σ} {runtime : Runtime}
    (hm : Threaded code m) (hstack : m.runtime.stack = coro :: below)
    (hphase : m.phase coro = .leaving task next) (hlive : runtime.live = m.runtime.live)
    (hfinished : runtime.finished = m.runtime.finished.erase task)
    (hprev : runtime.prev = m.runtime.prev) (hkept : Kept m.runtime runtime) :
    Threaded code (m.advance coro (.body next) [] runtime) := by
  have hcoro := hm.live_of_running hstack
  have hended := hm.ended hstack hphase
  have hself : (m.phase coro).joins = some task := by
    rw [hphase]
    rfl
  have hfree : ∀ t ∈ m.runtime.live, (m.phase coro).joins ≠ some t := by
    intro t ht heq
    rw [hself] at heq
    obtain rfl := Option.some.inj heq
    exact hm.held.apart task hended ht
  obtain ⟨rest, hcalls⟩ := hm.innermost hcoro hfree
  have hold : ∀ other t, (Function.update m.phase coro (.body next) other).joins = some t →
      other ≠ coro ∧ (m.phase other).joins = some t := by
    intro other t hjoins
    by_cases heq : other = coro
    · rw [heq, Function.update_self] at hjoins
      cases hjoins
    · rw [Function.update_of_ne heq] at hjoins
      exact ⟨heq, hjoins⟩
  constructor <;> simp only [Machine.advance, hlive, hfinished, hprev]
  case held => exact hkept.heldOnce hm.held
  case stacked => exact hm.stacked
  case own => exact hm.own
  case placed => exact hm.placed
  case rooted => exact hm.rooted
  case chain =>
    intro thread
    refine List.IsChain.imp_of_mem_tail_imp ?_ (hm.chain thread)
    intro t other _ hother hjoins
    have hne : other ≠ coro := ne_of_mem_of_not_mem hother (hm.notMem_tail hcalls thread)
    rwa [Function.update_of_ne hne]
  case joined =>
    intro other hother t hjoins
    obtain ⟨hne, hjoins⟩ := hold other t hjoins
    refine (hm.joined other hother t hjoins).imp_left fun hmem => ?_
    refine (List.mem_erase_of_ne ?_).mpr hmem
    rintro rfl
    exact hne (hm.unique other hother coro hcoro t hjoins hself)
  case unique =>
    intro other hother another hanother t hjoins hjoins'
    exact hm.unique other hother another hanother t (hold other t hjoins).2
      (hold another t hjoins').2
  case prev =>
    intro other hother t ht hjoins
    obtain ⟨hne, hjoins⟩ := hold other t hjoins
    rw [Function.update_of_ne hne]
    exact hm.prev other hother t ht hjoins
  case roots => exact fun thread hbody => hkept.known (hm.roots thread hbody)
  case inner => exact fun other hother t hjoins => hm.inner other hother t (hold other t hjoins).2
  case exec =>
    refine hm.exec_advance hcalls ?_
    intro below
    rw [hphase]
    rfl

/-- A coroutine returns, and what it has been called by is the innermost. -/
theorem finish {coro : Frame} {below : List Frame} {point : σ} (hm : Threaded code m)
    (hstack : m.runtime.stack = coro :: below) (hphase : m.phase coro = .body point)
    (hcode : code point = .ret) :
    Threaded code
      ((m.advance coro (.body point) [.returned] (m.runtime.finish coro below)).exit coro) := by
  have hcoro := hm.live_of_running hstack
  have hfree : (m.phase coro).joins = none := by
    rw [hphase]
    rfl
  obtain ⟨rest, hcalls⟩ := hm.innermost hcoro (by simp [hfree])
  have hfinish : Coroutines.step m.runtime .finish = some (m.runtime.finish coro below) := by
    simp only [Coroutines.step, hstack]
  have hsame : Function.update m.phase coro (.body point) = m.phase := by
    rw [← hphase, Function.update_eq_self]
  have hothers : ∀ thread, Function.update m.calls (m.thread coro)
      ((m.calls (m.thread coro)).erase coro) thread = (m.calls thread).erase coro := by
    intro thread
    by_cases heq : thread = m.thread coro
    · rw [heq, Function.update_self]
    · rw [Function.update_of_ne heq, List.erase_of_not_mem (hm.notMem_calls heq)]
  have htail : ∀ thread, (m.calls thread).erase coro = m.calls thread ∨
      m.calls thread = coro :: (m.calls thread).erase coro := by
    intro thread
    by_cases heq : thread = m.thread coro
    · rw [heq, hcalls, List.erase_cons_head]
      exact Or.inr rfl
    · exact Or.inl (List.erase_of_not_mem (hm.notMem_calls heq))
  constructor <;>
    simp only [Machine.exit, Machine.advance, Runtime.finish, hsame, hothers]
  case held => exact hm.held.finish hstack
  case stacked => exact fun thread => (hm.stacked thread).erase coro
  case own => exact fun thread other hother => hm.own thread other (List.mem_of_mem_erase hother)
  case placed =>
    intro other hother
    have hne : other ≠ coro := by
      rintro rfl
      exact hm.held.nodup.not_mem_erase hother
    exact (List.mem_erase_of_ne hne).mpr (hm.placed other (List.mem_of_mem_erase hother))
  case rooted =>
    intro thread hsome
    rcases htail thread with heq | heq
    · rw [heq] at hsome ⊢
      exact hm.rooted thread hsome
    · have hopen : m.calls thread ≠ [] := by
        intro hnil
        rw [hnil] at heq
        cases heq
      have hrooted := hm.rooted thread hopen
      rw [heq, List.suffix_cons_iff] at hrooted
      refine hrooted.resolve_left fun hall => hsome ?_
      exact (List.cons.inj hall).2.symm
  case chain =>
    intro thread
    rcases htail thread with heq | heq
    · rw [heq]
      exact hm.chain thread
    · have hchain := hm.chain thread
      rw [heq] at hchain
      exact hchain.tail
  case joined =>
    intro other hother t hjoins
    rcases hm.joined other (List.mem_of_mem_erase hother) t hjoins with hmem | hcalled
    · exact Or.inl (List.mem_cons_of_mem coro hmem)
    · rcases htail (m.thread other) with heq | heq
      · rw [heq]
        exact Or.inr hcalled
      · rw [heq, List.infix_cons_iff, List.cons_prefix_cons] at hcalled
        rcases hcalled with ⟨rfl, -⟩ | hcalled
        · exact Or.inl (List.mem_cons_self ..)
        · exact Or.inr hcalled
  case unique =>
    intro other hother another hanother
    exact hm.unique other (List.mem_of_mem_erase hother) another (List.mem_of_mem_erase hanother)
  case prev =>
    intro other hother t ht
    exact hm.prev other (List.mem_of_mem_erase hother) t (List.mem_of_mem_erase ht)
  case roots => exact fun thread hbody => step_accounted (hm.roots thread hbody) hfinish
  case inner =>
    intro other hother
    exact hm.inner other (List.mem_of_mem_erase hother)
  case exec =>
    intro thread body hbody
    have hrun := hm.exec thread body hbody
    by_cases heq : thread = m.thread coro
    · rw [heq] at hrun ⊢
      rw [Function.update_self, Runs.exec_append, hrun, hcalls, List.erase_cons_head,
        List.map_cons, hphase]
      exact Runs.exec_one (step_ret hcode)
    · rw [Function.update_of_ne heq, hrun, List.erase_of_not_mem (hm.notMem_calls heq)]

end Threaded

theorem Threaded.kept_start {coro : Frame} {runtime : Runtime} (hm : Threaded code m)
    (hstart : Coroutines.step m.runtime (.start coro) = some runtime) (body : σ) :
    Kept m.runtime runtime ∧ Threaded code (m.begin coro body runtime) := by
  have hkept : Kept m.runtime runtime := Kept.one hstart trivial trivial
  refine ⟨hkept, ?_⟩
  cases Coroutines.step_cases hstart with
  | start _ hactive hlive hfinished hdestroyed =>
    refine hm.begin hlive rfl hfinished rfl ?_ hkept
    intro task htask
    exact Function.update_of_ne (ne_of_mem_of_not_mem htask hlive) _ _

theorem Threaded.kept_await {coro task : Frame} {below : List Frame} {next : σ}
    {runtime : Runtime} (hm : Threaded code m) (hstack : m.runtime.stack = coro :: below)
    (hphase : m.phase coro = .joining task next)
    (hawait : Coroutines.step m.runtime (.awaitTask task) = some runtime) :
    Kept m.runtime runtime ∧ Threaded code (m.advance coro (.leaving task next) [] runtime) := by
  have hcoro := hm.live_of_running hstack
  have hjoins : (m.phase coro).joins = some task := by
    rw [hphase]
    rfl
  have hprev : task ∈ m.runtime.live → m.runtime.prev task = none := by
    intro htask
    rw [hm.prev coro hcoro task htask hjoins, hphase]
    rfl
  have hkept : Kept m.runtime runtime := by
    refine Kept.one hawait hprev ?_
    intro runner hrunner htask
    obtain rfl : coro = runner := by simpa [hstack] using hrunner
    refine (hm.joined coro hcoro task hjoins).elim ?_ fun hcalled => ?_
    · exact fun hfinished => absurd htask (hm.held.apart task hfinished)
    · exact hcalled.sublist.trans (hm.stacked _)
  refine ⟨hkept, ?_⟩
  cases Coroutines.step_cases hawait with
  | awaitDone _ runner below' hstack' hdone =>
    refine hm.awaitTask hstack hphase rfl rfl ?_ hkept
    intro other hother
    rw [if_neg]
    rintro rfl
    exact hm.held.apart other hdone hother
  | awaitTask _ runner below' hstack' hlive =>
    rw [hstack] at hstack'
    obtain ⟨rfl, rfl⟩ := List.cons.inj hstack'
    refine hm.awaitTask hstack hphase rfl rfl ?_ hkept
    intro other hother
    by_cases heq : other = task
    · rw [if_pos heq, heq]
      exact Function.update_self ..
    · rw [if_neg heq]
      exact Function.update_of_ne heq _ _

theorem step_threaded {a : Act σ α} (hm : Threaded code m) (h : step code m a = some m') :
    Kept m.runtime m'.runtime ∧ Threaded code m' := by
  cases step_cases h with
  | main coro body runtime hstack hstart => exact hm.kept_start hstart body
  | loop _ _ runtime hact hstep =>
    have hrests : Rests m.runtime runtime := Or.inr ⟨_, Act.quiet_ofLoop hact, hstep⟩
    have hkept := Kept.of_rests hrests
    exact ⟨hkept, hm.rest hrests hkept⟩
  | advance _ coro below phase marks runtime hstack hadvance =>
    have hkept := Kept.of_rests hadvance.rests
    exact ⟨hkept, hm.advance hstack hadvance hkept⟩
  | call task coro below point body next runtime hstack hphase hcode hstart =>
    have hkept : Kept m.runtime runtime := Kept.one hstart trivial trivial
    refine ⟨hkept, ?_⟩
    cases Coroutines.step_cases hstart with
    | start _ hactive hlive hfinished hdestroyed =>
      exact hm.call hstack hphase hcode hlive rfl hfinished rfl hdestroyed rfl hkept
  | destroy task coro below point next runtime hstack hphase hcode hended hbody hdestroy =>
    have hkept : Kept m.runtime runtime := Kept.one hdestroy hended trivial
    have hadvance : Advance code m coro (.body (next .nothing))
        [.performed (.destroyTask task) .nothing] m.runtime :=
      .performed (Or.inl hphase) hcode .nothing (Or.inl rfl)
    have hm' := hm.advance hstack hadvance (.refl _)
    refine ⟨hkept, hm'.destroyed hended hbody ?_ hkept⟩
    cases Coroutines.step_cases hdestroy with
    | destroyTask => rfl
  | spawn task coro below point body next runtime hstack hphase hcode hadvance hstart =>
    exact (hm.advance hstack hadvance (.refl _)).kept_start hstart body
  | awaitTask task coro below next runtime hstack hphase hawait =>
    exact hm.kept_await hstack hphase hawait
  | destroyTask task coro below next runtime hstack hphase hdestroy =>
    have hended := hm.ended hstack hphase
    have hkept : Kept m.runtime runtime := Kept.one hdestroy hended trivial
    refine ⟨hkept, ?_⟩
    cases Coroutines.step_cases hdestroy with
    | destroyTask =>
      refine hm.destroyTask hstack hphase ?_ rfl rfl hkept
      exact List.erase_of_not_mem (hm.held.apart task hended)
  | finish coro below point hstack hphase hcode =>
    have hfinish : Coroutines.step m.runtime .finish = some (m.runtime.finish coro below) := by
      simp only [Coroutines.step, hstack]
    exact ⟨Kept.one hfinish trivial trivial, hm.finish hstack hphase hcode⟩

theorem start_threaded [Inhabited σ] : Threaded code (TaskPrograms.start : Machine σ ε α) where
  held := start_heldOnce
  stacked := fun _ => List.nil_sublist _
  own := fun _ _ hcoro => absurd hcoro (List.not_mem_nil)
  placed := fun _ hcoro => absurd hcoro (List.not_mem_nil)
  rooted := fun _ hne => absurd rfl hne
  chain := fun _ => List.isChain_nil
  joined := fun _ hcoro => absurd hcoro (List.not_mem_nil)
  unique := fun _ hcoro => absurd hcoro (List.not_mem_nil)
  prev := fun _ hcoro => absurd hcoro (List.not_mem_nil)
  roots := fun _ hbody => absurd rfl hbody
  inner := fun _ hcoro => absurd hcoro (List.not_mem_nil)
  exec := by
    intro thread body hbody
    cases hbody

theorem run_threaded [Inhabited σ] {acts : List (Act σ α)}
    (h : Runs.exec (step code) start acts = some m) :
    Kept Coroutines.start m.runtime ∧ Threaded code m := by
  refine Runs.exec_preserves
    (I := fun m => Kept Coroutines.start m.runtime ∧ Threaded code m) ?_ ⟨⟨[], rfl, trivial⟩, ?_⟩ h
  · intro m a m' hm hstep
    obtain ⟨hkept, hm'⟩ := step_threaded hm.2 hstep
    exact ⟨hm.1.trans hkept, hm'⟩
  · exact start_threaded

/-- A thread whose first coroutine has ended has nothing left to do. -/
theorem Threaded.done {thread : Frame} {body : σ} (hm : Threaded code m)
    (hbody : m.bodies thread = some body) (hended : thread ∉ m.runtime.live) :
    Runs.exec (CallStacks.step code) [body] (m.log thread) = some [] := by
  rw [hm.exec thread body hbody]
  have hcalls : m.calls thread = [] := by
    by_contra hne
    have hmem := (hm.rooted thread hne).subset (List.mem_singleton_self thread)
    exact hended ((hm.stacked thread).subset hmem)
  rw [hcalls, List.map_nil]

/-- In every run, whatever else is resumed in between, the coroutines of a
thread together have done what its code does with procedure calls in the place
of awaited tasks, and all of it when the first of them has ended. -/
theorem thread_runs_calls [Inhabited σ] {acts : List (Act σ α)} {thread : Frame} {body : σ}
    (h : Runs.exec (step code) start acts = some m) (hbody : m.bodies thread = some body) :
    (∃ points, Runs.exec (CallStacks.step code) [body] (m.log thread) = some points) ∧
      (thread ∉ m.runtime.live →
        Runs.exec (CallStacks.step code) [body] (m.log thread) = some []) := by
  obtain ⟨-, hm⟩ := run_threaded h
  exact ⟨⟨_, hm.exec thread body hbody⟩, hm.done hbody⟩

theorem thread_runs_calls_sample : ∃ m,
    Runs.exec (step sampleCode) start (sampleRun.take 15) = some m ∧ 2 ∈ m.runtime.live ∧
      Runs.exec (CallStacks.step sampleCode) [0] (m.log 0) = some [] := by
  have hrun : ((Runs.exec (step sampleCode) start (sampleRun.take 15)).map fun m =>
      (m.runtime.live, m.bodies 0)) = some ([2], some 0) := by
    decide +kernel
  obtain ⟨m, hm, heq⟩ := Option.map_eq_some_iff.mp hrun
  obtain ⟨hlive, hbody⟩ := Prod.mk.inj heq
  exact ⟨m, hm, by simp [hlive], (thread_runs_calls hm hbody).2 (by simp [hlive])⟩

/-- When `run` has returned, every thread has done what its code does, to the
end. -/
theorem threads_complete [Inhabited σ] {acts : List (Act σ α)}
    (h : Runs.exec (step code) start acts = some m) (hpc : m.runtime.loop.pc = .finished)
    (hstack : m.runtime.stack = []) {thread : Frame} {body : σ}
    (hbody : m.bodies thread = some body) :
    Runs.exec (CallStacks.step code) [body] (m.log thread) = some [] := by
  obtain ⟨⟨racts, hrun, hkept⟩, hm⟩ := run_threaded h
  have hlive := none_left_over hkept hrun hpc hstack
  exact hm.done hbody (by simp [hlive])

theorem threads_complete_sample : ∃ m,
    Runs.exec (step sampleCode) start sampleRun = some m ∧
      Runs.exec (CallStacks.step sampleCode) [2] (m.log 2) = some [] := by
  have hrun : ((Runs.exec (step sampleCode) start sampleRun).map fun m =>
      (decide (m.runtime.loop.pc = .finished), m.runtime.stack, m.bodies 2)) =
        some (true, [], some 2) := by
    decide +kernel
  obtain ⟨m, hm, heq⟩ := Option.map_eq_some_iff.mp hrun
  simp only [Prod.mk.injEq, decide_eq_true_eq] at heq
  obtain ⟨hpc, hstack, hbody⟩ := heq
  exact ⟨m, hm, threads_complete hm hpc hstack hbody⟩

/-- What a thread does depends on the answers that it gets, and on nothing else
that its run or another does: of two threads with one body the one has gone
further than the other on the same way, and if both have ended they have done
the same. -/
theorem thread_determined [Inhabited σ] {acts₁ acts₂ : List (Act σ α)} {m₁ m₂ : Machine σ ε α}
    (h₁ : Runs.exec (step code) start acts₁ = some m₁)
    (h₂ : Runs.exec (step code) start acts₂ = some m₂) {thread₁ thread₂ : Frame} {body : σ}
    (hbody₁ : m₁.bodies thread₁ = some body) (hbody₂ : m₂.bodies thread₂ = some body)
    (hanswers : answers (m₁.log thread₁) <+: answers (m₂.log thread₂)) :
    (m₁.log thread₁ <+: m₂.log thread₂ ∨ m₂.log thread₂ <+: m₁.log thread₁) ∧
      (thread₁ ∉ m₁.runtime.live → thread₂ ∉ m₂.runtime.live →
        m₁.log thread₁ = m₂.log thread₂) := by
  obtain ⟨-, hm₁⟩ := run_threaded h₁
  obtain ⟨-, hm₂⟩ := run_threaded h₂
  have hcompare := comparable_of_answers (hm₁.exec thread₁ body hbody₁)
    (hm₂.exec thread₂ body hbody₂) (Or.inl hanswers)
  refine ⟨hcompare, ?_⟩
  intro hended₁ hended₂
  have hdone₁ := hm₁.done hbody₁ hended₁
  have hdone₂ := hm₂.done hbody₂ hended₂
  rcases hcompare with hcontinues | hcontinues
  · exact eq_of_continued hdone₁ hdone₂ hcontinues
  · exact (eq_of_continued hdone₂ hdone₁ hcontinues).symm

theorem thread_determined_sample : ∃ m m',
    Runs.exec (step sampleCode) start sampleRun = some m ∧
      Runs.exec (step sampleCode) start sampleRun' = some m' ∧ m.log 0 = m'.log 5 := by
  have hrun : ((Runs.exec (step sampleCode) start sampleRun).bind fun m =>
      (Runs.exec (step sampleCode) start sampleRun').map fun m' =>
        (m.runtime.live, m'.runtime.live, m.bodies 0, m'.bodies 5,
          decide (answers (m.log 0) <+: answers (m'.log 5)))) =
        some ([], [], some 0, some 0, true) := by
    decide +kernel
  obtain ⟨m, hm, hrun'⟩ := Option.bind_eq_some_iff.mp hrun
  obtain ⟨m', hm', heq⟩ := Option.map_eq_some_iff.mp hrun'
  simp only [Prod.mk.injEq, decide_eq_true_eq] at heq
  obtain ⟨hlive, hlive', hbody, hbody', hanswers⟩ := heq
  refine ⟨m, m', hm, hm', (thread_determined hm hm' hbody hbody' hanswers).2 ?_ ?_⟩
  · simp [hlive]
  · simp [hlive']

end Bc.TaskThreads
