import Bc.HeldSockets

/-!
The clients of `run_`. Those in its list are the sessions that it has started and not yet
destroyed; so a session keeps its socket until its client is destroyed, whatever is
accepted and swept out meanwhile.
-/
namespace Bc.ServedClients

open Scheduling Polling SpawnedThreads TaskThreads EchoServers HeldSockets
open TaskPrograms hiding step
open EchoSessions hiding Act step Step step_cases start
open CallStacks hiding step Step step_cases

def birthOf (server : Frame) (client : Client) : Birth ServerPoint :=
  ⟨some server, client.task, .session client.sock⟩

/-- The sessions of `server` that have not been destroyed. -/
def present (m : Server) (born : List (Birth ServerPoint)) (server : Frame) :
    List (Birth ServerPoint) :=
  (children born server).filter fun birth => birth.thread ∉ m.runtime.destroyed

def listed (m : Server) (server : Frame) : List Client := clientsOf (m.phase server).current

/-- The tasks that are about to be destroyed have ended. -/
def Erases (m : Server) : Prop :=
  ∀ server fd kept client rest, (m.phase server).current = .erasing fd kept client rest →
    client.task ∈ m.runtime.finished

/-- `clients_` has the sessions that have not been destroyed, and their sockets are held. -/
structure Tended (m : Server) (born : List (Birth ServerPoint)) : Prop where
  threaded : Threaded serverCode m
  recorded : Born serverCode m born
  gone : Gone m.runtime
  begun : ∀ birth ∈ born, birth.parent = none ∧ birth.body = .starting ∨
    birth.parent ≠ none ∧ ∃ fd, birth.body = .session fd
  clients : ∀ server, present m born server = (listed m server).map (birthOf server)
  held : Held (holds m) m.runtime.loop.socks
  erases : Erases m

section Tending

variable {m m' : Server} {born : List (Birth ServerPoint)} {a : Act ServerPoint Received}
  {server : Frame} {client : Client}

theorem children_append (left right : List (Birth ServerPoint)) (thread : Frame) :
    children (left ++ right) thread = children left thread ++ children right thread :=
  List.filter_append ..

theorem listed_advance (m : Server) {coro : Frame} {phase : Phase ServerPoint}
    (marks : List ServerMark) (runtime : Coroutines.Runtime)
    (hphase : clientsOf phase.current = listed m coro) (server : Frame) :
    listed (m.advance coro phase marks runtime) server = listed m server := by
  refine (apply_update clientsOf m.phase coro phase server).trans ?_
  split_ifs with heq
  · rw [hphase, heq]
  · rfl

namespace Tended

theorem mem_born (hm : Tended m born) (hclient : client ∈ listed m server) :
    birthOf server client ∈ born ∧ client.task ∉ m.runtime.destroyed := by
  have hmem := List.mem_map_of_mem (f := birthOf server) hclient
  rw [← hm.clients server, present, List.mem_filter, decide_eq_true_eq] at hmem
  exact ⟨(List.mem_filter.mp hmem.1).1, hmem.2⟩

theorem birth_unique (hm : Tended m born) {birth birth' : Birth ServerPoint} (h : birth ∈ born)
    (h' : birth' ∈ born) (hthread : birth.thread = birth'.thread) : birth = birth' :=
  List.inj_on_of_nodup_map hm.recorded.nodup h h' hthread

theorem present_of_unused (hm : Tended m born) {task : Frame} (hnone : m.bodies task = none) :
    children born task = [] := by
  rw [children, List.filter_eq_nil_iff]
  intro birth hbirth hparent
  exact hm.recorded.parents birth hbirth task (by simpa using hparent) hnone

theorem listed_of_unused (hm : Tended m born) {task : Frame} (hnone : m.bodies task = none) :
    listed m task = [] := by
  have hclients := hm.clients task
  rw [present, hm.present_of_unused hnone] at hclients
  exact List.map_eq_nil_iff.mp hclients.symm

theorem bodies_of_listed (hm : Tended m born) (hclient : client ∈ listed m server) :
    m.bodies client.task = some (.session client.sock) :=
  (hm.recorded.bodies client.task _).mpr ⟨some server, (hm.mem_born hclient).1⟩

/-- Where the coroutine on top is in its thread. -/
theorem running (hm : Tended m born) {coro : Frame} {below : List Frame}
    (hstack : m.runtime.stack = coro :: below) (hfree : (m.phase coro).joins = none) :
    ∃ body rest, m.bodies (m.thread coro) = some body ∧ m.calls (m.thread coro) = coro :: rest ∧
      Stands body ((m.phase coro).current :: rest.map fun other => (m.phase other).current) := by
  have hlive := hm.threaded.live_of_running hstack
  obtain ⟨rest, hcalls⟩ := hm.threaded.innermost hlive (by simp [hfree])
  obtain ⟨body, hbody⟩ := Option.ne_none_iff_exists'.mp
    (hm.recorded.rooted (m.thread coro) (by simp [hcalls]))
  obtain ⟨parent, hbirth⟩ := (hm.recorded.bodies _ body).mp hbody
  have hexec := hm.threaded.exec _ body hbody
  rw [hcalls, List.map_cons] at hexec
  refine ⟨body, rest, hbody, hcalls, run_stands ?_ hexec⟩
  rcases hm.begun _ hbirth with ⟨-, rfl⟩ | ⟨-, fd, rfl⟩
  · exact .run _ trivial
  · exact .begun fd

theorem undestroyed (hm : Tended m born) {coro : Frame} {below : List Frame}
    (hstack : m.runtime.stack = coro :: below) (hjoins : (m.phase coro).joins = none) :
    m.thread coro ∉ m.runtime.destroyed := by
  obtain ⟨body, rest, -, hcalls, -⟩ := hm.running hstack hjoins
  have hrooted := hm.threaded.rooted (m.thread coro) (by simp [hcalls])
  have hlive : m.thread coro ∈ m.runtime.live :=
    (hm.threaded.stacked _).subset (hrooted.subset (List.mem_singleton_self _))
  exact fun hmem => hm.gone _ hmem hlive

theorem root_of_run (hm : Tended m born) {coro : Frame} {below : List Frame} {point : ServerPoint}
    (hstack : m.runtime.stack = coro :: below) (hphase : m.phase coro = .body point)
    (hpoint : OfRun point) : m.thread coro = coro ∧ m.bodies coro = some .starting := by
  obtain ⟨body, rest, hbody, hcalls, hstands⟩ := hm.running hstack (by rw [hphase]; rfl)
  have hrooted := hm.threaded.rooted (m.thread coro) (by simp [hcalls])
  rw [hphase, Phase.current] at hstands
  rcases stands_cons hstands with ⟨rfl, -, hnil⟩ | ⟨fd, -, rfl | rfl | ⟨bytes, rfl⟩ | rfl⟩
  · rw [hcalls, List.map_eq_nil_iff.mp hnil] at hrooted
    have hroot : m.thread coro = coro := by simpa using hrooted.subset (List.mem_singleton_self _)
    rw [hroot] at hbody
    exact ⟨hroot, hbody⟩
  all_goals exact hpoint.elim

/-- A step that leaves the lists and the tasks in them alone. -/
theorem clients_quiet (hm : Tended m born) (hlisted : ∀ server, listed m' server = listed m server)
    (hdestroyed : ∀ birth ∈ born,
      birth.thread ∈ m'.runtime.destroyed ↔ birth.thread ∈ m.runtime.destroyed)
    (server : Frame) : present m' born server = (listed m' server).map (birthOf server) := by
  rw [hlisted, ← hm.clients, present, present]
  refine List.filter_congr fun birth hbirth => decide_eq_decide.mpr (not_congr ?_)
  exact hdestroyed birth (List.mem_filter.mp hbirth).1

theorem clients_same (hm : Tended m born) (hlisted : ∀ server, listed m' server = listed m server)
    (hdestroyed : m'.runtime.destroyed = m.runtime.destroyed) (server : Frame) :
    present m' born server = (listed m' server).map (birthOf server) :=
  hm.clients_quiet hlisted (fun birth _ => by rw [hdestroyed]) server

theorem clients_erased (hm : Tended m born) {coro : Frame} {kept rest : List Client}
    {marks : List ServerMark} {runtime : Coroutines.Runtime}
    (hphase : m.phase coro = .body (.erasing fd kept client rest))
    (hdestroy : Coroutines.step m.runtime (.destroyTask client.task) = some runtime)
    (server : Frame) :
    let m' := m.advance coro (.body (.closing fd client.sock kept rest)) marks runtime
    present m' born server = (listed m' server).map (birthOf server) := by
  intro m'
  have hmoved := apply_update clientsOf m.phase coro (.body (.closing fd client.sock kept rest))
  have hcoro : listed m coro = kept ++ client :: rest := by
    rw [listed, hphase]
    rfl
  have hcoro' : listed m' coro = kept ++ rest := (hmoved coro).trans (if_pos rfl)
  have hothers : ∀ server ≠ coro, listed m' server = listed m server :=
    fun other hne => (hmoved other).trans (if_neg hne)
  have hdestroyed : m'.runtime.destroyed = client.task :: m.runtime.destroyed := by
    cases Coroutines.step_cases hdestroy with
    | destroyTask => rfl
  have hmem : client ∈ listed m coro := by simp [hcoro]
  have hpresent : present m' born server =
      (present m born server).filter fun birth => birth.thread ≠ client.task := by
    rw [present, present, List.filter_filter, hdestroyed]
    refine List.filter_congr fun birth _ => ?_
    simp
  have hclient := (hm.mem_born hmem).1
  rw [hpresent, hm.clients]
  by_cases heq : server = coro
  · subst heq
    have hnodup : ((present m born server).map Birth.thread).Nodup :=
      hm.recorded.nodup.sublist ((List.filter_sublist.trans List.filter_sublist).map _)
    rw [hm.clients, hcoro, List.map_map, List.map_append, List.map_cons,
      List.nodup_middle, List.nodup_cons] at hnodup
    rw [hcoro, hcoro', List.map_append, List.map_cons, List.filter_append, List.filter_cons_of_neg
      (by simp [birthOf]), ← List.filter_append, ← List.map_append, List.filter_eq_self]
    intro birth hbirth
    obtain ⟨other, hother, rfl⟩ := List.mem_map.mp hbirth
    rw [decide_eq_true_eq]
    intro htask
    refine hnodup.1 ?_
    rw [← List.map_append]
    exact List.mem_map.mpr ⟨other, hother, htask⟩
  · rw [hothers server heq, List.filter_eq_self]
    intro birth hbirth
    obtain ⟨other, hother, rfl⟩ := List.mem_map.mp hbirth
    rw [decide_eq_true_eq]
    intro htask
    have hsame := hm.birth_unique (hm.mem_born hother).1 hclient htask
    exact heq (Option.some.inj (congrArg Birth.parent hsame))

/-- A coroutine that is begun has no clients, nor had its frame any before. -/
theorem listed_begun (hm : Tended m born) {coro task : Frame} {phase : Phase ServerPoint}
    {body : ServerPoint} (hnone : m.bodies task = none)
    (hphase : m'.phase = Function.update (Function.update m.phase coro phase) task (.body body))
    (hbody : clientsOf body = []) (server : Frame)
    (hcoro : clientsOf phase.current = listed m coro) :
    listed m' server = listed m server := by
  rw [listed, hphase, apply_update clientsOf, apply_update clientsOf]
  split_ifs with htask hself
  · rw [Phase.current, hbody, htask, hm.listed_of_unused hnone]
  · rw [hcoro, hself]
  · rfl

/-- No session is a task that a coroutine has called. -/
theorem ne_of_called (hm : Tended m born) {coro task : Frame} {below : List Frame}
    {birth : Birth ServerPoint} (hstack : m.runtime.stack = coro :: below)
    (hjoins : (m.phase coro).joins = some task) (hbirth : birth ∈ born) : birth.thread ≠ task := by
  have hbody := (hm.recorded.bodies birth.thread birth.body).mpr ⟨birth.parent, hbirth⟩
  rintro rfl
  rw [hm.threaded.inner coro (hm.threaded.live_of_running hstack) _ hjoins] at hbody
  cases hbody

theorem unused_of_start (hm : Tended m born) {task : Frame} {runtime : Coroutines.Runtime}
    (hstart : Coroutines.step m.runtime (.start task) = some runtime) :
    m.bodies task = none ∧ runtime.destroyed = m.runtime.destroyed := by
  refine ⟨hm.recorded.unused (started hstart).1, ?_⟩
  cases Coroutines.step_cases hstart with
  | start => rfl

theorem clients_advance (hm : Tended m born) {coro : Frame} {phase : Phase ServerPoint}
    {marks : List ServerMark} {runtime : Coroutines.Runtime}
    (hadvance : Advance serverCode m coro phase marks runtime)
    (heffects : Effects serverCode m a coro phase marks runtime) (server : Frame) :
    present (m.advance coro phase marks runtime) born server =
      (listed (m.advance coro phase marks runtime) server).map (birthOf server) := by
  refine hm.clients_same (listed_advance m marks runtime ?_) hadvance.rests.sameTasks.destroyed
    server
  rcases heffects.marked with rfl | ⟨op, answer, rfl⟩
  · rw [hadvance.current_of_nil]
    rfl
  · refine clientsOf_performed (moves_of_step hadvance.step_of_performed) ?_
    rintro task rfl
    exact heffects.destroys task answer (List.mem_singleton_self _)

/-- The session of the connection in hand is started in a frame of its own. -/
theorem births_of_adding (hm : Tended m born) {coro task : Frame} {below : List Frame}
    {fd conn : ℕ} {clients : List Client} {runtime : Coroutines.Runtime}
    (hstack : m.runtime.stack = coro :: below)
    (hphase : m.phase coro = .body (.adding fd conn clients))
    (hstart : Coroutines.step m.runtime (.start task) = some runtime) :
    coro ≠ task ∧ births serverCode m (.call task) = [birthOf coro ⟨conn, task⟩] := by
  obtain ⟨hroot, hbody⟩ := hm.root_of_run hstack hphase trivial
  refine ⟨?_, by simp [births, hstack, hphase, Phase.current, spawnAt, serverCode, hroot, birthOf]⟩
  rintro rfl
  rw [(hm.unused_of_start hstart).1] at hbody
  cases hbody

/-- A client is added behind the others when its session is started. -/
theorem clients_added (hm : Tended m born) {coro task : Frame} {below : List Frame} {fd conn : ℕ}
    {clients : List Client} {runtime : Coroutines.Runtime}
    (hstack : m.runtime.stack = coro :: below)
    (hphase : m.phase coro = .body (.adding fd conn clients))
    (hstart : Coroutines.step m.runtime (.start task) = some runtime) (server : Frame) :
    let m' := (m.advance coro (.body (afterAdd fd conn clients (.task task)))
      [.spawned (.task task)] m.runtime).begin task (.session conn) runtime
    present m' (born ++ births serverCode m (.call task)) server =
      (listed m' server).map (birthOf server) := by
  intro m'
  obtain ⟨hnone, hdestroyed⟩ := hm.unused_of_start hstart
  obtain ⟨hne, hbirths⟩ := hm.births_of_adding hstack hphase hstart
  have hfresh : task ∉ m.runtime.destroyed := fun hmem =>
    (started hstart).1 (Or.inr (Or.inr hmem))
  have hold : present m' born server = present m born server := by
    rw [present, present, show m'.runtime.destroyed = m.runtime.destroyed from hdestroyed]
  have hphases : m'.phase = Function.update (Function.update m.phase coro
      (.body (afterAdd fd conn clients (.task task)))) task (.body (.session conn)) := rfl
  have hpresent : present m' (born ++ [birthOf coro ⟨conn, task⟩]) server =
      present m born server ++ if server = coro then [birthOf coro ⟨conn, task⟩] else [] := by
    rw [← hold, present, present, children_append, List.filter_append]
    rw [List.append_cancel_left_eq]
    by_cases hself : server = coro
    · simp [hself, children, birthOf, show m'.runtime.destroyed = m.runtime.destroyed from
        hdestroyed, hfresh]
    · simp [hself, children, birthOf, Ne.symm hself]
  rw [hbirths, hpresent, hm.clients, listed, listed, hphases, apply_update clientsOf,
    apply_update clientsOf]
  split_ifs with hself htask htask
  · exact absurd (hself.symm.trans htask) hne
  · rw [hself, hphase, Phase.current, Phase.current, afterAdd, clientsOf_swept, List.nil_append,
      List.map_append]
    rfl
  · have hlisted := hm.listed_of_unused hnone
    rw [listed] at hlisted
    rw [htask, hlisted]
    rfl
  · exact List.append_nil _

end Tended

theorem births_of_call {coro task : Frame} {below : List Frame} {point body next : ServerPoint}
    (hstack : m.runtime.stack = coro :: below) (hphase : m.phase coro = .body point)
    (hcode : serverCode point = .call body next) : births serverCode m (.call task) = [] := by
  simp [births, hstack, hphase, Phase.current, spawnAt, hcode]

theorem step_clients (hm : Tended m born) (h : step m a = some m') (server : Frame) :
    present m' (born ++ births serverCode m a) server =
      (listed m' server).map (birthOf server) := by
  obtain ⟨hmain, h⟩ := Option.ite_none_right_eq_some.mp h
  cases step_cases h with
  | main coro body runtime hstack hstart =>
    obtain rfl : body = .starting := hmain
    obtain ⟨hnone, hdestroyed⟩ := hm.unused_of_start hstart
    have hchildren : present (m.begin coro .starting runtime)
        (born ++ births serverCode m (.spawn coro .starting)) server =
        present (m.begin coro .starting runtime) born server := by
      simp [present, births, children]
    rw [hchildren]
    refine hm.clients_same (fun other => ?_) hdestroyed server
    refine (apply_update clientsOf m.phase coro (.body .starting) other).trans ?_
    split_ifs with heq
    · rw [heq, hm.listed_of_unused hnone]
      rfl
    · rfl
  | loop _ ract runtime hact hstep =>
    rw [births_of_starts (Act.starts_ofLoop hact), List.append_nil]
    have hlisted : ∀ other, listed { m with runtime := runtime } other = listed m other :=
      fun _ => rfl
    exact hm.clients_same hlisted (step_quiet hstep (Act.quiet_ofLoop hact)).destroyed server
  | advance _ coro below phase marks runtime hstack hadvance heffects =>
    rw [births_of_starts heffects.starts, List.append_nil]
    exact hm.clients_advance hadvance heffects server
  | destroy task coro below point next runtime hstack hphase hcode hended hbody hdestroy =>
    rw [births_of_starts rfl, List.append_nil]
    cases point with
    | erasing fd kept client rest =>
      obtain ⟨heq, rfl⟩ := Op.perform.inj hcode
      obtain rfl := Operation.destroyTask.inj heq
      exact hm.clients_erased hphase hdestroy server
    | starting | listening | accepted | sweeping | closing | leaving | reading | writing | adding
    | stopped | session | ended => simp [serverCode] at hcode
  | call task coro below point body next runtime hstack hphase hcode hstart =>
    obtain ⟨hnone, hdestroyed⟩ := hm.unused_of_start hstart
    rw [births_of_call hstack hphase hcode, List.append_nil]
    have hmoves : Moves [point] .called [body, next] :=
      moves_of_step (CallStacks.step_call hcode)
    cases hmoves
    refine hm.clients_same (fun other => ?_) hdestroyed server
    refine hm.listed_begun hnone rfl rfl other ?_
    rw [listed, hphase]
    rfl
  | spawn task coro below point body next runtime hstack hphase hcode hadvance hstart =>
    cases point with
    | adding fd conn clients =>
      obtain ⟨rfl, rfl⟩ := Op.spawn.inj hcode
      exact hm.clients_added hstack hphase hstart server
    | starting | listening | accepted | sweeping | erasing | closing | leaving | stopped | session
    | reading | writing | ended => cases hcode
  | awaitTask task coro below next runtime hstack hphase hawait =>
    rw [births_of_starts rfl, List.append_nil]
    refine hm.clients_same (listed_advance m _ _ ?_) ?_ server
    · rw [listed, hphase]
      rfl
    · cases Coroutines.step_cases hawait <;> rfl
  | destroyTask task coro below next runtime hstack hphase hdestroy =>
    rw [births_of_starts rfl, List.append_nil]
    refine hm.clients_quiet (listed_advance m _ _ ?_) (fun birth hbirth => ?_) server
    · rw [listed, hphase]
      rfl
    · have hne := hm.ne_of_called hstack (by rw [hphase]; rfl) hbirth
      cases Coroutines.step_cases hdestroy with
      | destroyTask => exact List.mem_cons.trans (or_iff_right hne)
  | finish coro below point hstack hphase hcode =>
    rw [births_of_starts rfl, List.append_nil]
    refine hm.clients_same (listed_advance m [.returned] _ ?_) rfl server
    rw [listed, hphase]

/-- The threads that a step begins. A session is begun where `run_` adds a client. -/
theorem births_cases (hm : Tended m born) (h : step m a = some m') :
    births serverCode m a = [] ∨
      (∃ coro, births serverCode m a = [⟨none, coro, .starting⟩]) ∨
      ∃ coro task fd conn clients, births serverCode m a = [birthOf coro ⟨conn, task⟩] ∧
        (m.phase coro).current = .adding fd conn clients ∧
        (m'.phase coro).current = swept fd [] (clients ++ [⟨conn, task⟩]) ∧
        ¬Known m.runtime task := by
  obtain ⟨hmain, h⟩ := Option.ite_none_right_eq_some.mp h
  cases step_cases h with
  | main coro body runtime hstack hstart =>
    obtain rfl : body = .starting := hmain
    exact Or.inr (Or.inl ⟨coro, rfl⟩)
  | loop _ ract runtime hact hstep => exact Or.inl (births_of_starts (Act.starts_ofLoop hact))
  | advance _ coro below phase marks runtime hstack hadvance heffects =>
    exact Or.inl (births_of_starts heffects.starts)
  | call task coro below point body next runtime hstack hphase hcode hstart =>
    exact Or.inl (births_of_call hstack hphase hcode)
  | spawn task coro below point body next runtime hstack hphase hcode hadvance hstart =>
    cases point with
    | adding fd conn clients =>
      obtain ⟨rfl, rfl⟩ := Op.spawn.inj hcode
      obtain ⟨hne, hbirths⟩ := hm.births_of_adding hstack hphase hstart
      refine Or.inr (Or.inr ⟨coro, task, fd, conn, clients, hbirths, by rw [hphase]; rfl, ?_,
        (started hstart).1⟩)
      simp [Machine.begin, Machine.advance, Function.update_of_ne hne, Phase.current, afterAdd]
    | starting | listening | accepted | sweeping | erasing | closing | leaving | stopped | session
    | reading | writing | ended => cases hcode
  | awaitTask | destroyTask | destroy | finish => exact Or.inl (births_of_starts rfl)

theorem births_begun (hm : Tended m born) (h : step m a = some m') :
    ∀ birth ∈ births serverCode m a, birth.parent = none ∧ birth.body = .starting ∨
      birth.parent ≠ none ∧ ∃ fd, birth.body = .session fd := by
  rcases births_cases hm h with hnone | ⟨coro, hone⟩ | ⟨coro, task, fd, conn, clients, hone, -⟩
  · simp [hnone]
  · rw [hone, List.forall_mem_singleton]
    exact Or.inl ⟨rfl, rfl⟩
  · rw [hone, List.forall_mem_singleton]
    exact Or.inr ⟨Option.some_ne_none _, conn, rfl⟩

/-- The points that are got to with one operation only. -/
def Entered (op : Operation Empty) (answer : Answer Received) (point : ServerPoint) : Prop :=
  (∀ fd kept client rest, point = .erasing fd kept client rest →
      op = .done client.task ∧ answer = .flag true) ∧
    ∀ fd conn clients, point = .adding fd conn clients → op = .adoptSocket conn

theorem entered_swept (op : Operation Empty) (answer : Answer Received) (fd : ℕ)
    (kept rest : List Client) : Entered op answer (swept fd kept rest) := by
  cases rest <;> exact ⟨nofun, nofun⟩

theorem entered_afterRead (op : Operation Empty) (answer : Answer Received) (fd : ℕ) :
    Entered op answer (afterRead fd answer) := by
  unfold afterRead
  split
  · split <;> exact ⟨nofun, nofun⟩
  · exact ⟨nofun, nofun⟩

theorem entered_afterWrite (op : Operation Empty) (answer : Answer Received) (fd : ℕ) :
    Entered op answer (afterWrite fd answer) := by
  unfold afterWrite
  split
  · split <;> exact ⟨nofun, nofun⟩
  · exact ⟨nofun, nofun⟩

/-- A client is about to be destroyed when its session has been found at its end, and
about to be added when its socket has been opened. -/
theorem entered_of_performed {point point' : ServerPoint} {op : Operation Empty}
    {answer : Answer Received} (h : Moves [point] (.performed op answer) [point']) :
    Entered op answer point' := by
  cases h with
  | listen =>
    rcases afterSocket_cases answer with ⟨fd, -, h⟩ | h <;> rw [h] <;> exact ⟨nofun, nofun⟩
  | accept fd clients =>
    rcases afterAccept_cases fd clients answer with ⟨conn, -, h⟩ | ⟨-, h⟩ <;> rw [h] <;>
      exact ⟨nofun, nofun⟩
  | adopt =>
    refine ⟨nofun, fun fd conn clients hpoint => ?_⟩
    cases hpoint
    rfl
  | done fd kept client rest =>
    rcases afterDone_cases fd kept rest client answer with ⟨rfl, h⟩ | h <;> rw [h]
    · refine ⟨fun fd kept client rest hpoint => ?_, nofun⟩
      cases hpoint
      exact ⟨rfl, rfl⟩
    · exact entered_swept ..
  | erase | leave => exact ⟨nofun, nofun⟩
  | close => exact entered_swept ..
  | read => exact entered_afterRead ..
  | write => exact entered_afterWrite ..

theorem current_of_same {phases : Frame → Phase ServerPoint} {coro : Frame}
    {phase : Phase ServerPoint} (hphase : phase.current = (phases coro).current) (server : Frame) :
    (Function.update phases coro phase server).current = (phases server).current := by
  refine (apply_update id phases coro phase server).trans ?_
  split_ifs with hself
  · rw [hself]
    exact hphase
  · rfl

theorem current_of_update (phases : Frame → Phase ServerPoint) (coro : Frame)
    (phase : Phase ServerPoint) (server : Frame) :
    server = coro ∧ (Function.update phases coro phase server).current = phase.current ∨
      (Function.update phases coro phase server).current = (phases server).current := by
  by_cases hself : server = coro
  · subst hself
    exact Or.inl ⟨rfl, by rw [Function.update_self]⟩
  · exact Or.inr (by rw [Function.update_of_ne hself])

/-- What is known where a coroutine has got to `point`. -/
def Got (m : Server) (point : ServerPoint) : Prop :=
  (∀ fd kept client rest, point = .erasing fd kept client rest →
      client.task ∈ m.runtime.finished) ∧
    ∀ fd conn clients, point = .adding fd conn clients → m.runtime.loop.socks conn = none

theorem got_of_effects {coro : Frame} {phase : Phase ServerPoint} {marks : List ServerMark}
    {runtime : Coroutines.Runtime} (hadvance : Advance serverCode m coro phase marks runtime)
    (heffects : Effects serverCode m a coro phase marks runtime) :
    phase.current = (m.phase coro).current ∨ Got m phase.current := by
  rcases heffects.marked with rfl | ⟨op, answer, rfl⟩
  · exact Or.inl hadvance.current_of_nil
  · obtain ⟨herasing, hadding⟩ := entered_of_performed (moves_of_step hadvance.step_of_performed)
    refine Or.inr ⟨fun fd kept client rest hpoint => ?_, fun fd conn clients hpoint => ?_⟩
    · obtain ⟨rfl, rfl⟩ := herasing fd kept client rest hpoint
      have hflag := heffects.done client.task _ (List.mem_singleton_self _)
      exact of_decide_eq_true (Answer.flag.inj hflag).symm
    · obtain rfl := hadding fd conn clients hpoint
      cases heffects.tabled with
      | kept _ _ hop => cases hop _ _ (List.mem_singleton_self _)
      | opened _ fd _ hop hfree =>
        obtain rfl : conn = fd := by simpa using hop
        exact hfree

theorem got_swept (m : Server) (fd : ℕ) (kept rest : List Client) : Got m (swept fd kept rest) := by
  cases rest <;> exact ⟨nofun, nofun⟩

theorem got_of_begun {coro task : Frame} {phase : Phase ServerPoint} {body : ServerPoint}
    (hphase : Got m phase.current) (hbody : Got m body) (server : Frame) :
    (Function.update (Function.update m.phase coro phase) task (.body body) server).current =
        (m.phase server).current ∨
      Got m (Function.update (Function.update m.phase coro phase) task (.body body)
        server).current := by
  rcases current_of_update (Function.update m.phase coro phase) task (.body body) server with
    ⟨-, htask⟩ | hother
  · exact Or.inr (htask ▸ hbody)
  · rw [hother]
    refine (current_of_update m.phase coro phase server).symm.imp_right fun hself => ?_
    exact hself.2 ▸ hphase

/-- A coroutine stays at its point, or gets to another with what is known there. -/
theorem step_got (h : step m a = some m') (server : Frame) :
    (m'.phase server).current = (m.phase server).current ∨ Got m (m'.phase server).current := by
  obtain ⟨hmain, h⟩ := Option.ite_none_right_eq_some.mp h
  cases step_cases h with
  | main coro body runtime hstack hstart =>
    obtain rfl : body = .starting := hmain
    refine (current_of_update m.phase coro (.body .starting) server).symm.imp_right fun hself => ?_
    exact hself.2 ▸ ⟨nofun, nofun⟩
  | loop => exact Or.inl rfl
  | advance _ coro below phase marks runtime hstack hadvance heffects =>
    rcases current_of_update m.phase coro phase server with ⟨rfl, hself⟩ | hsame
    · exact (got_of_effects hadvance heffects).imp hself.trans (hself ▸ ·)
    · exact Or.inl hsame
  | destroy task coro below point next runtime hstack hphase hcode hended hbody hdestroy =>
    have hmoves : Moves [point] (.performed (.destroyTask task) .nothing) [next .nothing] :=
      moves_of_step (CallStacks.step_perform hcode _)
    obtain ⟨herasing, hadding⟩ := entered_of_performed hmoves
    refine (current_of_update m.phase coro (.body (next .nothing)) server).symm.imp_right
      fun hself => ?_
    refine hself.2 ▸ ⟨fun fd kept client rest hpoint => ?_, fun fd conn clients hpoint => ?_⟩
    · cases (herasing fd kept client rest hpoint).1
    · cases hadding fd conn clients hpoint
  | call task coro below point body next runtime hstack hphase hcode hstart =>
    have hmoves : Moves [point] .called [body, next] :=
      moves_of_step (CallStacks.step_call hcode)
    cases hmoves with
    | call fd =>
      have hended : Got m .ended := ⟨nofun, nofun⟩
      have hreading : Got m (.reading fd) := ⟨nofun, nofun⟩
      exact got_of_begun hended hreading server
  | spawn task coro below point body next runtime hstack hphase hcode hadvance hstart =>
    cases point with
    | adding fd conn clients =>
      obtain ⟨rfl, rfl⟩ := Op.spawn.inj hcode
      have hsession : Got m (.session conn) := ⟨nofun, nofun⟩
      exact got_of_begun (got_swept m fd [] _) hsession server
    | starting | listening | accepted | sweeping | erasing | closing | leaving | stopped | session
    | reading | writing | ended => cases hcode
  | awaitTask task coro below next runtime hstack hphase hawait =>
    exact Or.inl (current_of_same (by rw [hphase]; rfl) server)
  | destroyTask task coro below next runtime hstack hphase hdestroy =>
    exact Or.inl (current_of_same (by rw [hphase]; rfl) server)
  | finish coro below point hstack hphase hcode =>
    exact Or.inl (current_of_same (by rw [hphase]) server)

theorem step_erases (hm : Tended m born) (h : step m a = some m') : Erases m' := by
  intro server fd kept client rest hpoint
  have hkept := (step_threaded hm.threaded (Option.ite_none_right_eq_some.mp h).2).1
  have hended : client.task ∈ m.runtime.finished := by
    rcases step_got h server with hsame | hgot
    · exact hm.erases server fd kept client rest (hsame.symm.trans hpoint)
    · exact hgot.1 fd kept client rest hpoint
  have hclient : birthOf server client ∈ (listed m' server).map (birthOf server) :=
    List.mem_map_of_mem (by simp [listed, hpoint, clientsOf])
  rw [← step_clients hm h, present, List.mem_filter, decide_eq_true_eq] at hclient
  have hover : Over m.runtime client.task := ⟨hm.threaded.held.apart _ hended, Or.inl hended⟩
  exact (hkept.over hover).2.resolve_right hclient.2

theorem step_tended (hm : Tended m born) (h : step m a = some m') :
    Tended m' (born ++ births serverCode m a) := by
  have hstep := (Option.ite_none_right_eq_some.mp h).2
  obtain ⟨hkept, hthreaded⟩ := step_threaded hm.threaded hstep
  constructor
  case threaded => exact hthreaded
  case recorded => exact step_born hm.threaded hm.recorded hstep
  case gone => exact hkept.gone hm.threaded.held hm.gone
  case begun => exact List.forall_mem_append.mpr ⟨hm.begun, births_begun hm h⟩
  case clients => exact step_clients hm h
  case held => exact (step_handles h).held hm.held
  case erases => exact step_erases hm h

theorem start_tended : Tended TaskPrograms.start [] where
  threaded := start_threaded
  recorded := start_born
  gone := by simp [Gone, TaskPrograms.start, Coroutines.start]
  begun := by simp
  clients := fun _ => rfl
  held := ⟨fun _ => List.nodup_nil, fun _ _ _ _ h => (List.not_mem_nil h).elim,
    fun _ _ h => (List.not_mem_nil h).elim⟩
  erases := nofun

theorem run_tended {acts : List (Act ServerPoint Received)}
    (h : Runs.exec step TaskPrograms.start acts = some m) :
    Tended m (Runs.trace step (births serverCode) TaskPrograms.start acts) :=
  Runs.trace_invariant (I := Tended) (fun _ _ _ _ hm hstep => step_tended hm hstep) start_tended h

end Tending

section Sockets

variable {m m' t : Server} {born : List (Birth ServerPoint)} {a : Act ServerPoint Received}
  {thread : Frame} {fd : ℕ}

/-- A session that has not been destroyed has its socket in a list. -/
theorem Tended.listed_of_session (hm : Tended m born)
    (hbody : m.bodies thread = some (.session fd)) (hthread : thread ∉ m.runtime.destroyed) :
    ∃ server, ⟨some server, thread, .session fd⟩ ∈ born ∧ ⟨fd, thread⟩ ∈ listed m server := by
  obtain ⟨parent, hbirth⟩ := (hm.recorded.bodies thread _).mp hbody
  rcases hm.begun _ hbirth with ⟨-, hstarting⟩ | ⟨hparent, -⟩
  · cases hstarting
  · obtain ⟨server, rfl⟩ := Option.ne_none_iff_exists'.mp hparent
    refine ⟨server, hbirth, ?_⟩
    have hpresent : ⟨some server, thread, .session fd⟩ ∈ present m born server := by
      simp [present, children, hbirth, hthread]
    rw [hm.clients, List.mem_map] at hpresent
    obtain ⟨⟨sock, task⟩, hclient, heq⟩ := hpresent
    cases heq
    exact hclient

theorem holds_of_listed {server : Frame} {client : Client} (h : client ∈ listed m server) :
    client.sock ∈ holds m server :=
  List.mem_append_right _ (List.mem_map_of_mem h)

theorem Tended.alone (hm : Tended m born) (hbody : m.bodies thread = some (.session fd))
    (hthread : thread ∉ m.runtime.destroyed) :
    m.runtime.loop.socks fd ≠ none ∧
      (∀ other, m.bodies other = some (.session fd) → other ∉ m.runtime.destroyed →
        other = thread) ∧
      ∀ server, fd ∉ loose (m.phase server).current := by
  obtain ⟨server, -, hclient⟩ := hm.listed_of_session hbody hthread
  have hheld := holds_of_listed hclient
  have hsame : ∀ other, fd ∈ holds m other → other = server := by
    intro other hother
    by_contra hne
    exact hm.held.apart other server hne hother hheld
  have hnodup := hm.held.nodup server
  rw [holds, sockets, List.nodup_append] at hnodup
  refine ⟨hm.held.opened server fd hheld, ?_, ?_⟩
  · intro other hbody' hother
    obtain ⟨server', -, hclient'⟩ := hm.listed_of_session hbody' hother
    obtain rfl := hsame server' (holds_of_listed hclient')
    have heq := List.inj_on_of_nodup_map hnodup.2.1 hclient' hclient rfl
    exact congrArg Client.task heq
  · intro other hloose
    obtain rfl := hsame other (List.mem_append_left _ hloose)
    exact hnodup.2.2 fd hloose fd (List.mem_map_of_mem hclient) rfl

theorem step_session (hm : Tended m born) (h : step m a = some m')
    (hbody : m.bodies thread = some (.session fd)) :
    m'.bodies thread = some (.session fd) ∧
      (thread ∉ m'.runtime.destroyed →
        thread ∉ m.runtime.destroyed ∧ m'.runtime.loop.socks fd = m.runtime.loop.socks fd) := by
  have hm' := step_tended hm h
  have hkept := (step_threaded hm.threaded (Option.ite_none_right_eq_some.mp h).2).1
  obtain ⟨parent, hbirth⟩ := (hm.recorded.bodies thread _).mp hbody
  have hbirth' := List.mem_append_left (births serverCode m a) hbirth
  have hbody' := (hm'.recorded.bodies thread _).mpr ⟨parent, hbirth'⟩
  refine ⟨hbody', fun hthread' => ?_⟩
  have hthread : thread ∉ m.runtime.destroyed := fun hmem => hthread' (hkept.destroyed hmem)
  obtain ⟨server, hbirth, hclient⟩ := hm.listed_of_session hbody hthread
  obtain ⟨server', hbirth', hclient'⟩ := hm'.listed_of_session hbody' hthread'
  have hsame := hm'.birth_unique (List.mem_append_left _ hbirth) hbirth' rfl
  obtain rfl := Option.some.inj (congrArg Birth.parent hsame)
  exact ⟨hthread, (step_handles h).same hm.held (holds_of_listed hclient)
    (holds_of_listed hclient')⟩

theorem run_session {acts : List (Act ServerPoint Received)} (hm : Tended m born)
    (h : Runs.exec step m acts = some t) (hbody : m.bodies thread = some (.session fd)) :
    t.bodies thread = some (.session fd) ∧
      (thread ∉ t.runtime.destroyed →
        thread ∉ m.runtime.destroyed ∧ t.runtime.loop.socks fd = m.runtime.loop.socks fd) := by
  induction acts generalizing m born with
  | nil =>
    obtain rfl := Option.some.inj h
    exact ⟨hbody, fun hthread => ⟨hthread, rfl⟩⟩
  | cons a rest ih =>
    obtain ⟨u, hstep, hrest⟩ := Runs.exec_cons_eq_some.mp h
    obtain ⟨hbody', hfirst⟩ := step_session hm hstep hbody
    obtain ⟨hlast, hlater⟩ := ih (step_tended hm hstep) hrest hbody'
    refine ⟨hlast, fun hthread => ?_⟩
    obtain ⟨hthread', hsocks'⟩ := hlater hthread
    obtain ⟨hthread, hsocks⟩ := hfirst hthread'
    exact ⟨hthread, hsocks'.trans hsocks⟩

/-- `run_` alone is in its thread, until it has ended. -/
theorem Tended.points_of_server (hm : Tended m born) {server : Frame}
    (hbody : m.bodies server = some .starting) :
    ((m.calls server).map fun coro => (m.phase coro).current) =
      if server ∈ m.runtime.live then [(m.phase server).current] else [] := by
  have hexec := hm.threaded.exec server _ hbody
  split_ifs with hlive
  · have hmem := hm.threaded.mem_calls (by rw [hbody]; exact Option.some_ne_none _) hlive
    have hstands := run_stands (.run .starting trivial) hexec
    generalize hpoints : (m.calls server).map (fun coro => (m.phase coro).current) = points
      at hstands
    cases hstands with
    | run point =>
      obtain ⟨coro, hcalls, rfl⟩ := List.map_eq_singleton_iff.mp hpoints
      rw [hcalls, List.mem_singleton] at hmem
      rw [hmem]
    | stopped =>
      rw [List.map_eq_nil_iff.mp hpoints] at hmem
      cases hmem
  · exact Option.some.inj (hexec.symm.trans (hm.threaded.done hbody hlive))

theorem Tended.done_of_sweeping (hm : Tended m born) {server : Frame} {below : List Frame}
    {kept rest : List Client} {client : Client} (hstack : m.runtime.stack = server :: below)
    (hphase : m.phase server = .body (.sweeping fd kept client rest)) :
    (step m .done).isSome := by
  have hclient : client ∈ listed m server := by simp [listed, hphase, Phase.current, clientsOf]
  have hbody := hm.bodies_of_listed hclient
  have htask : client.task ∈ m.runtime.live ∨ client.task ∈ m.runtime.finished := by
    have hknown := hm.threaded.roots client.task (by rw [hbody]; exact Option.some_ne_none _)
    exact hknown.imp_right fun h => h.resolve_right (hm.mem_born hclient).2
  simp [step, ByMain, TaskPrograms.step, hstack, turn, hphase, proceed, serverCode, perform, htask]

theorem Tended.destroy_of_erasing (hm : Tended m born) {server : Frame} {below : List Frame}
    {kept rest : List Client} {client : Client} (hstack : m.runtime.stack = server :: below)
    (hphase : m.phase server = .body (.erasing fd kept client rest)) :
    (step m .destroyTask).isSome := by
  have hclient : client ∈ listed m server := by simp [listed, hphase, Phase.current, clientsOf]
  have hbody := hm.bodies_of_listed hclient
  have hended := hm.erases server fd kept client rest (by rw [hphase]; rfl)
  simp [step, ByMain, TaskPrograms.step, hstack, turn, hphase, proceed, serverCode, perform,
    hended, hbody, Coroutines.step, Coroutines.Runtime.Active]

end Sockets

/-- Two clients at once: the second leaves while the first is written to. -/
def twoClients : List (Act ServerPoint Received) :=
  [.spawn 0 .starting, .openSocket 5, .suspend false, .sched .run, .sched .test,
    .sched (.expire 0 0), .sched (.wait 0 [(5, Event.read)]), .sched .take, .sched .turn,
    .answer (.accepted (.ok 6)), .openSocket 6, .call 1, .call 2, .suspend false, .awaitTask,
    .done, .suspend false, .leave, .sched .turn, .sched .take, .sched .test,
    .sched (.expire 0 0), .sched (.wait 0 [(5, Event.read), (6, Event.read)]), .sched .take,
    .sched .turn, .answer (.accepted (.ok 7)), .openSocket 7, .call 3, .call 4, .suspend false,
    .awaitTask, .done, .done, .suspend false, .leave, .sched .turn, .sched .take, .sched .turn,
    .answer (.read Event.read (.ok [97])), .suspend false, .leave, .sched .turn, .sched .take,
    .sched .test, .sched (.expire 0 0),
    .sched (.wait 0 [(7, Event.rdhangup), (6, Event.write)]), .sched .take, .sched .turn,
    .answer (.read Event.rdhangup (.ok [])), .finish, .destroyTask, .finish, .leave, .sched .turn,
    .sched .take, .sched .turn, .answer (.write Event.write (.ok 1)), .suspend false, .leave,
    .sched .turn, .sched .take]

/-- A third one comes and the second is swept out; its descriptor is given to a fourth. -/
def laterClients : List (Act ServerPoint Received) :=
  [.sched .test, .sched (.expire 0 0), .sched (.wait 0 [(5, Event.read)]), .sched .take,
    .sched .turn, .answer (.accepted (.ok 9)), .openSocket 9, .call 5, .call 6, .suspend false,
    .awaitTask, .done, .done, .destroyTask, .closeSocket, .done, .suspend false, .leave,
    .sched .turn, .sched .take, .sched .test, .sched (.expire 0 0),
    .sched (.wait 0 [(5, Event.read)]), .sched .take, .sched .turn,
    .answer (.accepted (.ok 7)), .openSocket 7]

def sessions (acts : List (Act ServerPoint Received)) (server : Frame) :
    List (Birth ServerPoint) :=
  children (Runs.trace step (births serverCode) start acts) server

/-- In every run of servers the connections that a `run_` has accepted have a session
each, in a thread of its own, and in the order in which they were accepted; the last one
has none yet exactly while `run_` has it in hand. The clients are the sessions that have
not been destroyed, in the same order; those that have been had ended. The sweep goes on:
where it is at a client, `done` and the destruction find its task. -/
theorem connections_served {acts : List (Act ServerPoint Received)} {m : Server}
    {server : Frame} (h : Runs.exec step start acts = some m)
    (hbody : m.bodies server = some .starting) :
    ((sessions acts server).map Birth.thread).Nodup ∧
      (∀ birth ∈ sessions acts server, m.bodies birth.thread = some birth.body) ∧
      ((m.log server).filterMap connection).map ServerPoint.session =
        (sessions acts server).map Birth.body ++
          (if server ∈ m.runtime.live then inHand (m.phase server).current else []) ∧
      ((sessions acts server).filter fun birth => birth.thread ∉ m.runtime.destroyed) =
        (clientsOf (m.phase server).current).map (birthOf server) ∧
      (∀ birth ∈ sessions acts server, birth.thread ∈ m.runtime.destroyed →
        Runs.exec (CallStacks.step serverCode) [birth.body] (m.log birth.thread) = some []) ∧
      ∀ below fd kept client rest, m.runtime.stack = server :: below →
        (m.phase server = .body (.sweeping fd kept client rest) → (step m .done).isSome) ∧
        (m.phase server = .body (.erasing fd kept client rest) →
          (step m .destroyTask).isSome) := by
  have hm := run_tended h
  have hb := hm.recorded
  have hexec := hm.threaded.exec server _ hbody
  have hbodies : ∀ birth ∈ sessions acts server, m.bodies birth.thread = some birth.body :=
    fun birth hbirth => (hb.bodies birth.thread birth.body).mpr
      ⟨birth.parent, (List.mem_filter.mp hbirth).1⟩
  refine ⟨hb.nodup.sublist (List.filter_sublist.map _), hbodies, ?_, hm.clients server, ?_, ?_⟩
  · have hserved := run_accepts (.run .starting trivial) hexec
    rw [← hb.spawned server _ hbody, hm.points_of_server hbody] at hserved
    rw [sessions, ← List.nil_append (List.map ..)]
    refine hserved.trans (congrArg (_ ++ ·) ?_)
    split_ifs
    · exact List.flatMap_singleton ..
    · rfl
  · intro birth hbirth hthread
    exact hm.threaded.done (hbodies birth hbirth) (hm.gone birth.thread hthread)
  · exact fun below fd kept client rest hstack =>
      ⟨hm.done_of_sweeping hstack, hm.destroy_of_erasing hstack⟩

/-- The fourth client has no session yet, and the second is no client any more. -/
theorem connections_served_laterClients :
    (sessions (twoClients ++ laterClients) 0).map Birth.body =
        [.session 6, .session 7, .session 9] ∧
      ∃ m, Runs.exec step start (twoClients ++ laterClients) = some m ∧
        ((sessions (twoClients ++ laterClients) 0).filter fun birth =>
          birth.thread ∉ m.runtime.destroyed) = [birthOf 0 ⟨6, 1⟩, birthOf 0 ⟨9, 5⟩] := by
  have hrun : ((Runs.exec step start (twoClients ++ laterClients)).map fun m =>
      (m.bodies 0, (m.log 0).filterMap connection, decide (0 ∈ m.runtime.live),
        (m.phase 0).current)) =
        some (some .starting, [6, 7, 9, 7], true, .adding 5 7 [⟨6, 1⟩, ⟨9, 5⟩]) := by
    decide +kernel
  obtain ⟨m, hm, heq⟩ := Option.map_eq_some_iff.mp hrun
  simp only [Prod.mk.injEq, decide_eq_true_eq] at heq
  obtain ⟨hbody, hconnections, hlive, hpoint⟩ := heq
  obtain ⟨-, -, hserved, hclients, -, -⟩ := connections_served hm hbody
  rw [hconnections, if_pos hlive, hpoint] at hserved
  rw [hpoint] at hclients
  have hsessions : [.session 6, .session 7, .session 9] ++ [.session 7] =
      (sessions (twoClients ++ laterClients) 0).map Birth.body ++ [.session 7] := hserved
  exact ⟨(List.append_cancel_right hsessions).symm, m, hm, hclients⟩

end Bc.ServedClients
