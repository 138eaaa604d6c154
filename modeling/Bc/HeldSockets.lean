import Bc.EchoServers
import Mathlib.Data.List.Nodup
import Mathlib.Data.List.Perm.Subperm

/-!
The descriptors that are open, divided among those that hold them. A step hands on, opens
or closes one, and what stays with its holder stays the same socket. In the server `run_`
holds the socket it listens on and those of its clients.
-/
namespace Bc.HeldSockets

open Scheduling EchoServers
open TaskPrograms hiding step
open CallStacks hiding step Step step_cases

section Holders

variable {ι : Type*} {holds holds' : ι → List ℕ} {socks socks' : ℕ → Option ℕ}

/-- What is held is open, and is held once. -/
structure Held (holds : ι → List ℕ) (socks : ℕ → Option ℕ) : Prop where
  nodup : ∀ i, (holds i).Nodup
  apart : ∀ i j, i ≠ j → (holds i).Disjoint (holds j)
  opened : ∀ i, ∀ fd ∈ holds i, socks fd ≠ none

/-- A descriptor is opened by one holder or closed by one, or what is held gets no more. -/
inductive Handles (holds : ι → List ℕ) (socks : ℕ → Option ℕ) :
    (ι → List ℕ) → (ℕ → Option ℕ) → Prop
  | kept (holds' : ι → List ℕ) (hholds : ∀ i, (holds' i).Subperm (holds i)) :
      Handles holds socks holds' socks
  | opened (i : ι) (fd sock : ℕ) (holds' : ι → List ℕ) (hfree : socks fd = none)
      (hfirst : (holds' i).Perm (fd :: holds i)) (hothers : ∀ j ≠ i, holds' j = holds j) :
      Handles holds socks holds' (Function.update socks fd (some sock))
  | closed (i : ι) (fd : ℕ) (holds' : ι → List ℕ) (hfirst : (holds i).Perm (fd :: holds' i))
      (hothers : ∀ j ≠ i, holds' j = holds j) :
      Handles holds socks holds' (Function.update socks fd none)

theorem Held.mono (hs : Held holds socks) (hholds : ∀ i, (holds' i).Subperm (holds i)) :
    Held holds' socks where
  nodup := by
    intro i
    obtain ⟨list, hperm, hsublist⟩ := hholds i
    exact hperm.nodup_iff.mp ((hs.nodup i).sublist hsublist)
  apart := fun i j hne fd hi hj => hs.apart i j hne ((hholds i).subset hi) ((hholds j).subset hj)
  opened := fun i fd hfd => hs.opened i fd ((hholds i).subset hfd)

theorem Held.opened_one {i : ι} {fd : ℕ} (sock : ℕ) (hs : Held holds socks)
    (hfree : socks fd = none) (hfirst : (holds' i).Perm (fd :: holds i))
    (hothers : ∀ j ≠ i, holds' j = holds j) :
    Held holds' (Function.update socks fd (some sock)) := by
  have hnone : ∀ j, fd ∉ holds j := fun j hmem => hs.opened j fd hmem hfree
  have hmem : ∀ j, ∀ k ∈ holds' j, k = fd ∧ j = i ∨ k ∈ holds j := by
    intro j k hk
    by_cases heq : j = i
    · subst heq
      exact (List.mem_cons.mp (hfirst.subset hk)).imp_left fun h => ⟨h, rfl⟩
    · rw [hothers j heq] at hk
      exact Or.inr hk
  constructor
  · intro j
    by_cases heq : j = i
    · rw [heq, hfirst.nodup_iff]
      exact List.nodup_cons.mpr ⟨hnone i, hs.nodup i⟩
    · rw [hothers j heq]
      exact hs.nodup j
  · intro j k hne fd' hj hk
    rcases hmem j fd' hj with ⟨rfl, rfl⟩ | hj'
    · rcases hmem k fd' hk with ⟨-, rfl⟩ | hk'
      · exact hne rfl
      · exact hnone k hk'
    · rcases hmem k fd' hk with ⟨rfl, rfl⟩ | hk'
      · exact hnone j hj'
      · exact hs.apart j k hne hj' hk'
  · intro j k hk
    by_cases heq : k = fd
    · rw [heq, Function.update_self]
      exact Option.some_ne_none sock
    · rw [Function.update_of_ne heq]
      exact hs.opened j k ((hmem j k hk).resolve_left fun h => heq h.1)

/-- Nobody else has what one holder closes. -/
theorem Held.notMem_closed {i : ι} {fd : ℕ} (hs : Held holds socks)
    (hfirst : (holds i).Perm (fd :: holds' i)) (hothers : ∀ j ≠ i, holds' j = holds j) (j : ι) :
    fd ∉ holds' j := by
  intro hmem
  by_cases heq : j = i
  · subst heq
    exact (List.nodup_cons.mp (hfirst.nodup_iff.mp (hs.nodup j))).1 hmem
  · rw [hothers j heq] at hmem
    exact hs.apart j i heq hmem (hfirst.symm.subset List.mem_cons_self)

theorem Held.closed_one {i : ι} {fd : ℕ} (hs : Held holds socks)
    (hfirst : (holds i).Perm (fd :: holds' i)) (hothers : ∀ j ≠ i, holds' j = holds j) :
    Held holds' (Function.update socks fd none) := by
  have hnone := hs.notMem_closed hfirst hothers
  have hfewer : ∀ j, (holds' j).Subperm (holds j) := by
    intro j
    by_cases heq : j = i
    · rw [heq]
      exact ((List.sublist_cons_self fd (holds' i)).subperm).trans hfirst.symm.subperm
    · rw [hothers j heq]
  obtain ⟨hnodup, hapart, hopened⟩ := hs.mono hfewer
  refine ⟨hnodup, hapart, fun j k hk => ?_⟩
  rw [Function.update_of_ne (ne_of_mem_of_not_mem hk (hnone j))]
  exact hopened j k hk

theorem Handles.held (h : Handles holds socks holds' socks') (hs : Held holds socks) :
    Held holds' socks' := by
  cases h with
  | kept _ hholds => exact hs.mono hholds
  | opened i fd sock _ hfree hfirst hothers => exact hs.opened_one sock hfree hfirst hothers
  | closed i fd _ hfirst hothers => exact hs.closed_one hfirst hothers

/-- What stays with its holder stays open, and the same. -/
theorem Handles.same {i : ι} {fd : ℕ} (h : Handles holds socks holds' socks')
    (hs : Held holds socks) (hheld : fd ∈ holds i) (hheld' : fd ∈ holds' i) :
    socks' fd = socks fd := by
  cases h with
  | kept => rfl
  | opened j k sock _ hfree =>
    refine Function.update_of_ne ?_ ..
    rintro rfl
    exact hs.opened i fd hheld hfree
  | closed j k _ hfirst hothers =>
    exact Function.update_of_ne (ne_of_mem_of_not_mem hheld' (hs.notMem_closed hfirst hothers i)) ..

end Holders

section Numbers

open EventLoop

variable {s s' : State}

/-- No two descriptors have the same socket. -/
structure Numbered (s : State) : Prop where
  bounded : ∀ fd sock, s.socks fd = some sock → sock < s.opened
  distinct : ∀ fd fd' sock, s.socks fd = some sock → s.socks fd' = some sock → fd = fd'

/-- A socket that is open later was open before or has a new number. -/
structure Later (s s' : State) : Prop where
  opened : s.opened ≤ s'.opened
  socks : ∀ fd sock, s'.socks fd = some sock → s.socks fd = some sock ∨ s.opened ≤ sock

theorem Later.refl (s : State) : Later s s := ⟨le_rfl, fun _ _ => Or.inl⟩

theorem Later.trans {t : State} (h : Later s t) (h' : Later t s') : Later s s' := by
  refine ⟨h.opened.trans h'.opened, fun fd sock hsock => ?_⟩
  rcases h'.socks fd sock hsock with hsock | hnew
  · exact h.socks fd sock hsock
  · exact Or.inr (h.opened.trans hnew)

theorem numbered_of_open {fd : ℕ} (hs : Numbered s)
    (hsocks : s'.socks = Function.update s.socks fd (some s.opened))
    (hopened : s'.opened = s.opened + 1) : Numbered s' ∧ Later s s' := by
  have hcases : ∀ k sock, s'.socks k = some sock →
      k = fd ∧ sock = s.opened ∨ k ≠ fd ∧ s.socks k = some sock := by
    intro k sock hsock
    rw [hsocks] at hsock
    by_cases heq : k = fd
    · rw [heq, Function.update_self] at hsock
      exact Or.inl ⟨heq, (Option.some.inj hsock).symm⟩
    · rw [Function.update_of_ne heq] at hsock
      exact Or.inr ⟨heq, hsock⟩
  refine ⟨⟨fun k sock hsock => ?_, fun k l sock hk hl => ?_⟩, ⟨by omega, fun k sock hsock => ?_⟩⟩
  · rcases hcases k sock hsock with ⟨-, rfl⟩ | ⟨-, hold⟩
    · omega
    · have hless := hs.bounded k sock hold
      omega
  · rcases hcases k sock hk with ⟨rfl, rfl⟩ | ⟨-, hk⟩
    · rcases hcases l _ hl with ⟨rfl, -⟩ | ⟨-, hl⟩
      · rfl
      · exact absurd (hs.bounded l _ hl) (lt_irrefl _)
    · rcases hcases l sock hl with ⟨-, rfl⟩ | ⟨-, hl⟩
      · exact absurd (hs.bounded k _ hk) (lt_irrefl _)
      · exact hs.distinct k l sock hk hl
  · rcases hcases k sock hsock with ⟨-, rfl⟩ | ⟨-, hold⟩
    · exact Or.inr le_rfl
    · exact Or.inl hold

theorem numbered_of_subset (hs : Numbered s)
    (hsocks : ∀ fd sock, s'.socks fd = some sock → s.socks fd = some sock)
    (hopened : s'.opened = s.opened) : Numbered s' ∧ Later s s' := by
  refine ⟨⟨fun fd sock hsock => ?_, fun fd fd' sock h h' => ?_⟩,
    ⟨hopened.ge, fun fd sock hsock => Or.inl (hsocks fd sock hsock)⟩⟩
  · rw [hopened]
    exact hs.bounded fd sock (hsocks fd sock hsock)
  · exact hs.distinct fd fd' sock (hsocks fd sock h) (hsocks fd' sock h')

theorem step_numbered {a : EventLoop.Act} (hs : Numbered s) (h : EventLoop.step s a = some s') :
    Numbered s' ∧ Later s s' := by
  cases a with
  | openSocket fd =>
    cases EventLoop.step_cases h with
    | openSocket => exact numbered_of_open hs rfl rfl
  | closeSocket fd =>
    cases EventLoop.step_cases h with
    | closeSocket =>
      refine numbered_of_subset hs (fun k sock hsock => ?_) rfl
      dsimp only at hsock
      by_cases heq : k = fd
      · rw [heq, Function.update_self] at hsock
        cases hsock
      · rwa [Function.update_of_ne heq] at hsock
  | postTimer | postCoro | resumed | run | test | expire | wait | take | turn =>
    obtain ⟨hsocks, hopened⟩ := WaiterTables.step_socks h nofun nofun
    exact numbered_of_subset hs (fun _ _ hsock => hsocks ▸ hsock) hopened

theorem run_numbered {t : State} {acts : List EventLoop.Act} (hs : Numbered s)
    (h : Runs.exec EventLoop.step s acts = some t) : Numbered t ∧ Later s t := by
  refine Runs.exec_preserves (I := fun t => Numbered t ∧ Later s t) (fun u a v hu hstep => ?_)
    ⟨hs, .refl s⟩ h
  obtain ⟨hv, hlater⟩ := step_numbered hu.1 hstep
  exact ⟨hv, hu.2.trans hlater⟩

theorem Numbered.kept {r r' : Coroutines.Runtime} (h : TaskThreads.Kept r r')
    (hr : Numbered r.loop) : Numbered r'.loop ∧ Later r.loop r'.loop := by
  obtain ⟨acts, hrun, -⟩ := h
  obtain ⟨acts', hrun'⟩ := Runs.exec_simulation Coroutines.Runtime.loop
    (fun _ _ _ hstep => Coroutines.step_loop hstep) hrun
  exact run_numbered hr hrun'

end Numbers

/-- `clients_`. -/
def clientsOf : ServerPoint → List Client
  | .listening _ clients => clients
  | .accepted _ _ clients => clients
  | .adding _ _ clients => clients
  | .sweeping _ kept client rest => kept ++ client :: rest
  | .erasing _ kept client rest => kept ++ client :: rest
  | .closing _ _ kept rest => kept ++ rest
  | .leaving _ clients => clients
  | .stopped clients => clients
  | _ => []

/-- The sockets of `run_` that are not in `clients_`. -/
def loose : ServerPoint → List ℕ
  | .listening fd _ => [fd]
  | .accepted fd _ _ => [fd]
  | .adding fd conn _ => [fd, conn]
  | .sweeping fd _ _ _ => [fd]
  | .erasing fd _ _ _ => [fd]
  | .closing fd sock _ _ => [fd, sock]
  | .leaving fd _ => [fd]
  | _ => []

def sockets (point : ServerPoint) : List ℕ :=
  loose point ++ (clientsOf point).map Client.sock

section Points

variable {fd : ℕ} {point point' : ServerPoint} {op : TaskPrograms.Operation Empty}
  {answer : Answer Received}

theorem clientsOf_swept (fd : ℕ) (kept rest : List Client) :
    clientsOf (swept fd kept rest) = kept ++ rest := by
  cases rest with
  | nil => exact (List.append_nil kept).symm
  | cons => rfl

theorem sockets_swept (fd : ℕ) (kept rest : List Client) :
    sockets (swept fd kept rest) = fd :: (kept ++ rest).map Client.sock := by
  rw [sockets, clientsOf_swept]
  cases rest <;> rfl

theorem clientsOf_afterRead (fd : ℕ) (answer : Answer Received) :
    clientsOf (afterRead fd answer) = [] ∧ sockets (afterRead fd answer) = [] := by
  unfold afterRead
  split
  · split <;> exact ⟨rfl, rfl⟩
  · exact ⟨rfl, rfl⟩

theorem clientsOf_afterWrite (fd : ℕ) (answer : Answer Received) :
    clientsOf (afterWrite fd answer) = [] ∧ sockets (afterWrite fd answer) = [] := by
  unfold afterWrite
  split
  · split <;> exact ⟨rfl, rfl⟩
  · exact ⟨rfl, rfl⟩

/-- Only the destruction of a client takes one out of the list. -/
theorem clientsOf_performed (h : Moves [point] (.performed op answer) [point'])
    (hop : ∀ task, op ≠ .destroyTask task) : clientsOf point' = clientsOf point := by
  cases h with
  | listen => rcases afterSocket_cases answer with ⟨fd, -, h⟩ | h <;> rw [h] <;> rfl
  | accept fd clients =>
    rcases afterAccept_cases fd clients answer with ⟨conn, -, h⟩ | ⟨-, h⟩ <;> rw [h] <;> rfl
  | adopt | leave => rfl
  | done fd kept client rest =>
    rcases afterDone_cases fd kept rest client answer with ⟨-, h⟩ | h
    · rw [h]
      rfl
    · rw [h, clientsOf_swept, List.append_assoc]
      rfl
  | erase => exact absurd rfl (hop _)
  | close => exact clientsOf_swept ..
  | read fd => exact (clientsOf_afterRead fd answer).1
  | write fd => exact (clientsOf_afterWrite fd answer).1

theorem sockets_kept (h : Moves [point] (.performed op answer) [point'])
    (hop : op.onTable = false) : (sockets point').Perm (sockets point) := by
  cases h with
  | listen | adopt | close | leave => cases hop
  | accept fd clients =>
    rcases afterAccept_cases fd clients answer with ⟨conn, -, h⟩ | ⟨-, h⟩ <;> rw [h] <;>
      exact .refl _
  | done fd kept client rest =>
    rcases afterDone_cases fd kept rest client answer with ⟨-, h⟩ | h
    · rw [h]
      exact .refl _
    · rw [h, sockets_swept, List.append_assoc]
      exact .refl _
  | erase fd kept client rest =>
    simp only [sockets, loose, clientsOf, List.map_append, List.map_cons, List.cons_append,
      List.nil_append]
    exact (List.perm_middle.symm).cons fd
  | read fd =>
    rw [(clientsOf_afterRead fd answer).2]
    exact .refl _
  | write fd =>
    rw [(clientsOf_afterWrite fd answer).2]
    exact .refl _

theorem sockets_opened (h : Moves [point] (.performed op (.socket fd)) [point'])
    (hop : op = .openSocket ∨ op = .adoptSocket fd) :
    (sockets point').Perm (fd :: sockets point) := by
  cases h with
  | listen => exact .refl _
  | adopt listener conn clients =>
    obtain rfl : conn = fd := by simpa using hop
    exact .swap ..
  | accept | done | erase | close | leave | read | write => simp at hop

theorem sockets_closed (h : Moves [point] (.performed (.closeSocket fd) answer) [point']) :
    (sockets point).Perm (fd :: sockets point') := by
  cases h with
  | close listener _ kept rest =>
    rw [sockets_swept]
    exact .swap ..
  | leave => exact .refl _

theorem sockets_added (fd conn : ℕ) (clients : List Client) (task : Frame) :
    (sockets (afterAdd fd conn clients (.task task))).Perm (sockets (.adding fd conn clients)) := by
  rw [afterAdd, sockets_swept]
  simp only [sockets, loose, clientsOf, List.nil_append, List.map_append, List.map_cons,
    List.map_nil, List.cons_append]
  exact (List.perm_append_singleton conn _).cons fd

end Points

section Steps

variable {m m' : Server} {a : Act ServerPoint Received}

/-- The sockets of a coroutine. -/
def holds (m : Server) (coro : Frame) : List ℕ := sockets (m.phase coro).current

theorem apply_update {β : Type*} (f : ServerPoint → β) (phases : Frame → Phase ServerPoint)
    (coro : Frame) (phase : Phase ServerPoint) (other : Frame) :
    f (Function.update phases coro phase other).current =
      if other = coro then f phase.current else f (phases other).current := by
  rw [Function.update_apply]
  split_ifs <;> rfl

theorem socks_of_unopened {s s' : Coroutines.Runtime} {ract : Coroutines.Act}
    (h : Coroutines.step s ract = some s') (hact : Unopened ract) :
    s'.loop.socks = s.loop.socks := (step_unopened h hact).1

theorem unopened_ofLoop {ract : Coroutines.Act} (h : a.ofLoop = some ract) : Unopened ract := by
  cases a with
  | leave | refuse | sched =>
    obtain rfl := Option.some.inj h
    trivial
  | spawn | emit | sleep | suspend | answer | openSocket | closeSocket | done | call | awaitTask
  | destroyTask | finish => cases h

/-- A coroutine moves from one point to the next. -/
theorem holds_advance {coro : Frame} {phase : Phase ServerPoint} {marks : List ServerMark}
    {runtime : Coroutines.Runtime} (other : Frame) :
    holds (m.advance coro phase marks runtime) other =
      if other = coro then sockets phase.current else holds m other :=
  apply_update sockets m.phase coro phase other

theorem Handles.of_advance {coro : Frame} {phase : Phase ServerPoint} (marks : List ServerMark)
    {runtime : Coroutines.Runtime} (hsocks : runtime.loop.socks = m.runtime.loop.socks)
    (hholds : (sockets phase.current).Perm (holds m coro)) :
    Handles (holds m) m.runtime.loop.socks (holds (m.advance coro phase marks runtime))
      runtime.loop.socks := by
  rw [hsocks]
  refine .kept _ fun other => ?_
  rw [holds_advance]
  split_ifs with heq
  · rw [heq]
    exact hholds.subperm
  · exact .refl _

/-- A coroutine moves and begins another one, which has no socket of its own. -/
theorem Handles.of_begun {coro task : Frame} {phase : Phase ServerPoint} {body : ServerPoint}
    (hsocks : m'.runtime.loop.socks = m.runtime.loop.socks)
    (hphase : m'.phase = Function.update (Function.update m.phase coro phase) task (.body body))
    (hbody : sockets body = []) (hholds : (sockets phase.current).Perm (holds m coro)) :
    Handles (holds m) m.runtime.loop.socks (holds m') m'.runtime.loop.socks := by
  rw [hsocks]
  refine .kept _ fun other => ?_
  rw [holds, hphase, apply_update sockets, apply_update sockets]
  split_ifs with htask hcoro
  · rw [Phase.current, hbody]
    exact List.nil_subperm
  · rw [hcoro]
    exact hholds.subperm
  · exact .refl _

theorem handles_of_tabled {coro : Frame} {phase : Phase ServerPoint} {marks : List ServerMark}
    {runtime : Coroutines.Runtime} (hadvance : Advance serverCode m coro phase marks runtime)
    (hmarked : marks = [] ∨ ∃ op answer, marks = [.performed op answer])
    (htabled : Tabled m.runtime.loop marks runtime.loop) :
    Handles (holds m) m.runtime.loop.socks (holds (m.advance coro phase marks runtime))
      runtime.loop.socks := by
  have hothers : ∀ marks, ∀ other ≠ coro, holds (m.advance coro phase marks runtime) other =
      holds m other := fun _ other hne => by rw [holds_advance, if_neg hne]
  have hself : ∀ marks, holds (m.advance coro phase marks runtime) coro = sockets phase.current :=
    fun _ => by rw [holds_advance, if_pos rfl]
  cases htabled with
  | kept _ _ hop hsocks =>
    refine Handles.of_advance _ hsocks ?_
    rcases hmarked with rfl | ⟨op, answer, rfl⟩
    · rw [hadvance.current_of_nil]
      exact .refl _
    · exact sockets_kept (moves_of_step hadvance.step_of_performed)
        (hop op answer (List.mem_singleton_self _))
  | opened op fd _ hop hfree hsocks =>
    rw [hsocks]
    refine .opened coro fd _ _ hfree ?_ (hothers _)
    rw [hself]
    exact sockets_opened (moves_of_step hadvance.step_of_performed) hop
  | closed fd _ hopen hsocks =>
    rw [hsocks]
    refine .closed coro fd _ ?_ (hothers _)
    rw [hself]
    exact sockets_closed (moves_of_step hadvance.step_of_performed)

theorem step_handles (h : step m a = some m') :
    Handles (holds m) m.runtime.loop.socks (holds m') m'.runtime.loop.socks := by
  obtain ⟨hmain, h⟩ := Option.ite_none_right_eq_some.mp h
  cases step_cases h with
  | main coro body runtime hstack hstart =>
    obtain rfl : body = .starting := hmain
    rw [show (m.begin coro .starting runtime).runtime.loop.socks = m.runtime.loop.socks from
      socks_of_unopened hstart trivial]
    refine .kept _ fun other => ?_
    simp only [holds, Machine.begin]
    rw [apply_update sockets]
    split_ifs
    · exact List.nil_subperm
    · exact .refl _
  | loop _ ract runtime hact hstep =>
    rw [show ({ m with runtime := runtime } : Server).runtime.loop.socks = m.runtime.loop.socks from
      socks_of_unopened hstep (unopened_ofLoop hact)]
    exact .kept _ fun other => .refl _
  | advance _ coro below phase marks runtime hstack hadvance heffects =>
    exact handles_of_tabled hadvance heffects.marked heffects.tabled
  | destroy task coro below point next runtime hstack hphase hcode hended hbody hdestroy =>
    refine Handles.of_advance _ (socks_of_unopened hdestroy trivial) ?_
    rw [holds, hphase]
    exact sockets_kept (moves_of_step (CallStacks.step_perform hcode _)) rfl
  | call task coro below point body next runtime hstack hphase hcode hstart =>
    have hsocks := socks_of_unopened hstart trivial
    have hmoves : Moves [point] .called [body, next] :=
      moves_of_step (CallStacks.step_call hcode)
    cases hmoves
    refine Handles.of_begun hsocks rfl rfl ?_
    rw [holds, hphase]
    exact .refl _
  | spawn task coro below point body next runtime hstack hphase hcode hadvance hstart =>
    have hsocks := socks_of_unopened hstart trivial
    cases point with
    | adding fd conn clients =>
      obtain ⟨rfl, rfl⟩ := Op.spawn.inj hcode
      refine Handles.of_begun hsocks rfl rfl ?_
      rw [holds, hphase]
      exact sockets_added fd conn clients task
    | starting | listening | accepted | sweeping | erasing | closing | leaving | stopped | session
    | reading | writing | ended => cases hcode
  | awaitTask task coro below next runtime hstack hphase hawait =>
    refine Handles.of_advance _ (socks_of_unopened hawait trivial) ?_
    rw [holds, hphase]
    exact .refl _
  | destroyTask task coro below next runtime hstack hphase hdestroy =>
    refine Handles.of_advance _ (socks_of_unopened hdestroy trivial) ?_
    rw [holds, hphase]
    exact .refl _
  | finish coro below point hstack hphase hcode =>
    refine Handles.of_advance [.returned] rfl ?_
    rw [holds, hphase]

end Steps

end Bc.HeldSockets
