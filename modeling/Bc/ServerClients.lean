import Bc.EraseLoop
import Bc.Runs
import Mathlib.Data.List.GetD
import Mathlib.Data.List.Nodup

/-!
The clients of the server. The accept loop appends a client for each connection,
starts a session on its socket, which runs up to its first suspension, and then
sweeps out the clients whose sessions are finished. Sessions finish on their own
between the sweeps; that of the new client may be finished before its own sweep.
-/
namespace Bc.ServerClients

open EraseLoop

abbrev Conn := ℕ

/-- `running` is a session that has not returned to the accept loop yet. One that
is `finished` has brought `async_session_` to its end with it: the handler's last
suspension resumes the loop in there, which then ends. -/
inductive Phase
  | running
  | suspended
  | finished
  deriving DecidableEq

structure Session where
  conn : Conn
  phase : Phase
  deriving DecidableEq

/-- An element of `clients_`, with the session that its task is the handle of. -/
structure Client where
  sock : Conn
  task : Option ℕ
  deriving DecidableEq

inductive Pc
  | accepting
  | starting
  | sweep (cursor : Cursor Client)
  | ended
  deriving DecidableEq

/-- Sessions are numbered in the order in which they were started. The
connections that were accepted and the sessions whose clients were destroyed are
recorded. -/
structure State where
  pc : Pc
  clients : List Client
  sessions : List Session
  accepted : List Conn
  destroyed : List ℕ
  deriving DecidableEq

def start : State := ⟨.accepting, [], [], [], []⟩

/-- `started` is the return of `async_session_`, and `turn` one test of the
sweep's loop. -/
inductive Act
  | accept (conn : Conn)
  | fail
  | started (finished : Bool)
  | progress (session : ℕ)
  | finish (session : ℕ)
  | turn
  deriving DecidableEq

namespace State

def finished (s : State) (session : ℕ) : Bool :=
  match s.sessions[session]? with
  | some x => x.phase = .finished
  | none => false

def setPhase (s : State) (session : ℕ) (phase : Phase) : State :=
  { s with sessions := s.sessions.modify session fun x => { x with phase := phase } }

/-- `add_client_` up to the body of the session. -/
def addClient (s : State) (conn : Conn) : Option State :=
  let clients := s.clients ++ [⟨conn, none⟩]
  clients.getLast?.map fun back =>
    { s with
      pc := .starting
      clients := clients
      sessions := s.sessions ++ [⟨back.sock, .running⟩]
      accepted := s.accepted ++ [conn] }

/-- The rest of `add_client_`, with the assertion of the task's assignment, and
the beginning of the sweep. -/
def assignTask (s : State) : Option State :=
  match s.clients.getLast? with
  | some ⟨sock, none⟩ =>
    let clients := s.clients.dropLast ++ [⟨sock, some (s.sessions.length - 1)⟩]
    some { s with clients := clients, pc := .sweep (Cursor.start clients) }
  | _ => none

def turn (s : State) : Option State :=
  match s.pc with
  | .sweep cursor =>
    match cursor.rest with
    | [] => some { s with pc := .accepting }
    | client :: _ =>
      client.task.map fun session =>
        if s.finished session then
          { s with
            pc := .sweep cursor.erase
            clients := cursor.erase.list
            destroyed := s.destroyed ++ [session] }
        else { s with pc := .sweep cursor.advance }
  | _ => none

/-- The scheduler, or a session in its first run, is where sessions go on. -/
def sessionsRun (s : State) : Bool :=
  match s.pc with
  | .sweep _ => false
  | _ => true

end State

def step (s : State) : Act → Option State
  | .accept conn => if s.pc = .accepting then s.addClient conn else none
  | .fail => if s.pc = .accepting then some { s with pc := .ended } else none
  | .started finished =>
    if s.pc = .starting then
      (s.setPhase (s.sessions.length - 1) (if finished then .finished else .suspended)).assignTask
    else none
  | .progress session =>
    if s.sessionsRun ∧ s.sessions[session]?.map Session.phase = some .suspended then some s
    else none
  | .finish session =>
    if s.sessionsRun ∧ s.sessions[session]?.map Session.phase = some .suspended then
      some (s.setPhase session .finished)
    else none
  | .turn => s.turn

inductive Step (s : State) : Act → State → Prop
  | accept (conn : Conn) (hpc : s.pc = .accepting) :
      Step s (.accept conn)
        { s with
          pc := .starting
          clients := s.clients ++ [⟨conn, none⟩]
          sessions := s.sessions ++ [⟨conn, .running⟩]
          accepted := s.accepted ++ [conn] }
  | fail (hpc : s.pc = .accepting) : Step s .fail { s with pc := .ended }
  | started (finished : Bool) (t : State) (before : List Client) (sock : Conn)
      (hpc : s.pc = .starting) (hback : s.clients = before ++ [⟨sock, none⟩])
      (ht : t = s.setPhase (s.sessions.length - 1) (if finished then .finished else .suspended)) :
      Step s (.started finished)
        { t with
          clients := before ++ [⟨sock, some (s.sessions.length - 1)⟩]
          pc := .sweep ⟨[], before ++ [⟨sock, some (s.sessions.length - 1)⟩]⟩ }
  | progress (session : ℕ) : Step s (.progress session) s
  | finish (session : ℕ) (hrun : s.sessionsRun = true)
      (hphase : s.sessions[session]?.map Session.phase = some .suspended) :
      Step s (.finish session) (s.setPhase session .finished)
  | turnEnd (kept : List Client) (hpc : s.pc = .sweep ⟨kept, []⟩) :
      Step s .turn { s with pc := .accepting }
  | turnErase (kept rest : List Client) (sock : Conn) (session : ℕ)
      (hpc : s.pc = .sweep ⟨kept, ⟨sock, some session⟩ :: rest⟩)
      (hfinished : s.finished session = true) :
      Step s .turn
        { s with
          pc := .sweep ⟨kept, rest⟩
          clients := kept ++ rest
          destroyed := s.destroyed ++ [session] }
  | turnPass (kept rest : List Client) (sock : Conn) (session : ℕ)
      (hpc : s.pc = .sweep ⟨kept, ⟨sock, some session⟩ :: rest⟩)
      (hfinished : s.finished session = false) :
      Step s .turn { s with pc := .sweep ⟨kept ++ [⟨sock, some session⟩], rest⟩ }

theorem turn_cases {s s' : State} (h : s.turn = some s') : Step s .turn s' := by
  unfold State.turn at h
  split at h
  · rename_i cursor hpc
    obtain ⟨kept, rest⟩ := cursor
    split at h
    · rename_i hrest
      obtain rfl : rest = [] := hrest
      obtain rfl := Option.some.inj h
      exact .turnEnd kept hpc
    · rename_i client rest' hrest
      obtain rfl : rest = client :: rest' := hrest
      obtain ⟨sock, task⟩ := client
      obtain ⟨session, rfl, hs'⟩ := Option.map_eq_some_iff.mp h
      split at hs'
      · rename_i hfinished
        subst hs'
        exact .turnErase kept rest' sock session hpc hfinished
      · rename_i hfinished
        subst hs'
        exact .turnPass kept rest' sock session hpc (by simpa using hfinished)
  · cases h

theorem step_cases {s s' : State} {a : Act} (h : step s a = some s') : Step s a s' := by
  cases a with
  | accept conn =>
    obtain ⟨hpc, hs'⟩ := Option.ite_none_right_eq_some.mp h
    rw [State.addClient, List.getLast?_concat] at hs'
    obtain rfl := Option.some.inj hs'
    exact .accept conn hpc
  | fail =>
    obtain ⟨hpc, hs'⟩ := Option.ite_none_right_eq_some.mp h
    obtain rfl := Option.some.inj hs'
    exact .fail hpc
  | started finished =>
    obtain ⟨hpc, hs'⟩ := Option.ite_none_right_eq_some.mp h
    unfold State.assignTask at hs'
    split at hs'
    · rename_i sock hlast
      obtain rfl := Option.some.inj hs'
      obtain ⟨before, hback⟩ := List.getLast?_eq_some_iff.mp hlast
      have hback' : s.clients = before ++ [⟨sock, none⟩] := hback
      have hstarted := Step.started finished _ before sock hpc hback' rfl
      simpa [State.setPhase, hback', Cursor.start] using hstarted
    · cases hs'
  | progress session =>
    obtain ⟨-, hs'⟩ := Option.ite_none_right_eq_some.mp h
    obtain rfl := Option.some.inj hs'
    exact .progress session
  | finish session =>
    obtain ⟨⟨hrun, hphase⟩, hs'⟩ := Option.ite_none_right_eq_some.mp h
    obtain rfl := Option.some.inj hs'
    exact .finish session hrun hphase
  | turn => exact turn_cases h

section Invariant

variable {s s' : State} {n k session : ℕ} {phase : Phase}

/-- The client of an accepted connection, once its session has been started. -/
def State.client (s : State) (k : ℕ) : Client := ⟨s.accepted.getD k 0, some k⟩

/-- The clients of the first `n` connections that have not been destroyed. -/
def State.remaining (s : State) (n : ℕ) : List Client :=
  ((List.range n).filter fun k => k ∉ s.destroyed).map s.client

/-- What is in `clients_`, by where the accept loop is. -/
def ClientsKept (s : State) : Prop :=
  match s.pc with
  | .starting => ∃ n conn, s.accepted.length = n + 1 ∧ s.accepted[n]? = some conn ∧
      (∀ k ∈ s.destroyed, k < n) ∧ s.clients = s.remaining n ++ [⟨conn, none⟩]
  | .sweep cursor => s.clients = s.remaining s.accepted.length ∧ cursor.list = s.clients ∧
      ∀ client ∈ cursor.kept, ∀ k, client.task = some k → s.finished k = false
  | .accepting | .ended => s.clients = s.remaining s.accepted.length

structure Served (s : State) : Prop where
  conns : s.sessions.map Session.conn = s.accepted
  destroyed : ∀ k ∈ s.destroyed, s.finished k = true
  clients : ClientsKept s

/-- In a sweep the clients are those that the cursor has kept and those ahead. -/
theorem Served.sweeping {kept rest : List Client} (h : Served s)
    (hpc : s.pc = .sweep ⟨kept, rest⟩) :
    s.clients = s.remaining s.accepted.length ∧ kept ++ rest = s.clients ∧
      ∀ client ∈ kept, ∀ k, client.task = some k → s.finished k = false := by
  simpa only [ClientsKept, hpc, Cursor.list] using h.clients

theorem Served.length_eq (h : Served s) : s.sessions.length = s.accepted.length := by
  rw [← h.conns, List.length_map]

theorem lt_of_finished (h : s.finished k = true) : k < s.sessions.length := by
  unfold State.finished at h
  split at h
  · rename_i x hx
    exact (List.getElem?_eq_some_iff.mp hx).1
  · cases h

theorem finished_setPhase_of_ne (hne : k ≠ session) :
    (s.setPhase session phase).finished k = s.finished k := by
  have hget : (s.setPhase session phase).sessions[k]? = s.sessions[k]? :=
    List.getElem?_modify_ne _ _ (Ne.symm hne)
  rw [State.finished, State.finished, hget]

/-- What is finished stays so when another session finishes. -/
theorem finished_setPhase_finished (h : s.finished k = true) :
    (s.setPhase session .finished).finished k = true := by
  by_cases hk : k = session
  · subst hk
    have hlt := lt_of_finished h
    have hget : (s.setPhase k .finished).sessions[k]? =
        some { s.sessions[k] with phase := .finished } := by
      rw [State.setPhase, List.getElem?_modify_eq, List.getElem?_eq_getElem hlt]
      rfl
    rw [State.finished, hget]
    rfl
  · rwa [finished_setPhase_of_ne hk]

theorem conns_setPhase (s : State) (session : ℕ) (phase : Phase) :
    (s.setPhase session phase).sessions.map Session.conn = s.sessions.map Session.conn := by
  refine List.ext_getElem? fun k => ?_
  rw [State.setPhase, List.getElem?_map, List.getElem?_map, List.getElem?_modify]
  cases s.sessions[k]? with
  | none => rfl
  | some x =>
    by_cases hk : session = k
    · simp [hk]
    · simp [hk]

theorem remaining_append {more : List Conn} (hdestroyed : s'.destroyed = s.destroyed)
    (haccepted : s'.accepted = s.accepted ++ more) :
    s'.remaining s.accepted.length = s.remaining s.accepted.length := by
  rw [State.remaining, State.remaining, hdestroyed]
  refine List.map_congr_left fun k hk => ?_
  have hlt := List.mem_range.mp (List.mem_filter.mp hk).1
  rw [State.client, State.client, haccepted, List.getD_append _ _ _ _ hlt]

theorem remaining_succ (h : n ∉ s.destroyed) :
    s.remaining (n + 1) = s.remaining n ++ [s.client n] := by
  simp [State.remaining, List.range_succ, h]

theorem nodup_remaining (s : State) (n : ℕ) : ((s.remaining n).map Client.task).Nodup := by
  rw [State.remaining, List.map_map]
  exact (List.nodup_range.filter _).map fun a b h => Option.some.inj h

/-- The clients that remain after one more has been destroyed. -/
theorem remaining_destroyed {kept rest : List Client} {sock : Conn}
    (hsplit : s.remaining n = kept ++ ⟨sock, some k⟩ :: rest) :
    { s with destroyed := s.destroyed ++ [k] }.remaining n = kept ++ rest := by
  have hfilter : { s with destroyed := s.destroyed ++ [k] }.remaining n =
      (s.remaining n).filter fun client => client.task ≠ some k := by
    rw [State.remaining, State.remaining, List.filter_map, List.filter_filter]
    congr 1
    refine List.filter_congr fun j _ => ?_
    simp [State.client, Bool.and_comm]
  have hnodup := nodup_remaining s n
  rw [hsplit, List.map_append, List.map_cons, List.nodup_middle, List.nodup_cons,
    ← List.map_append] at hnodup
  have hothers : ∀ client ∈ kept ++ rest, client.task ≠ some k := fun client hclient heq =>
    hnodup.1 (List.mem_map.mpr ⟨client, hclient, heq⟩)
  obtain ⟨hkept, hrest⟩ := List.forall_mem_append.mp hothers
  rw [hfilter, hsplit, List.filter_append, List.filter_cons_of_neg (by simp)]
  rw [List.filter_eq_self.mpr (by simpa using hkept),
    List.filter_eq_self.mpr (by simpa using hrest)]

theorem finished_append {more : List Session} (happend : s'.sessions = s.sessions ++ more)
    (h : s.finished k = true) : s'.finished k = true := by
  have hget : s'.sessions[k]? = s.sessions[k]? := by
    rw [happend, List.getElem?_append_left (lt_of_finished h)]
  rwa [State.finished, hget]

theorem start_served : Served start := ⟨rfl, List.forall_mem_nil _, rfl⟩

theorem accept_served (hs : Served s) (hpc : s.pc = .accepting) (conn : Conn)
    (haccept : s' = { s with
      pc := .starting
      clients := s.clients ++ [⟨conn, none⟩]
      sessions := s.sessions ++ [⟨conn, .running⟩]
      accepted := s.accepted ++ [conn] }) : Served s' := by
  have hremain : s'.remaining s.accepted.length = s.remaining s.accepted.length :=
    remaining_append (by rw [haccept]) (by rw [haccept])
  subst haccept
  have hclients : s.clients = s.remaining s.accepted.length := by
    simpa only [ClientsKept, hpc] using hs.clients
  refine ⟨?_, fun k hk => finished_append rfl (hs.destroyed k hk), ?_⟩
  · rw [List.map_append, hs.conns]
    rfl
  · refine ⟨s.accepted.length, conn, by simp, by simp, fun k hk => ?_, ?_⟩
    · rw [← hs.length_eq]
      exact lt_of_finished (hs.destroyed k hk)
    · rw [hremain, hclients]

/-- The new client is complete when its task has been assigned. -/
theorem started_served (hs : Served s) {before : List Client} {sock : Conn}
    (hpc : s.pc = .starting) (hback : s.clients = before ++ [⟨sock, none⟩]) (phase : Phase) :
    Served { s.setPhase (s.sessions.length - 1) phase with
      clients := before ++ [⟨sock, some (s.sessions.length - 1)⟩]
      pc := .sweep ⟨[], before ++ [⟨sock, some (s.sessions.length - 1)⟩]⟩ } := by
  obtain ⟨n, conn, hlen, hconn, hbelow, hclients⟩ :
      ∃ n conn, s.accepted.length = n + 1 ∧ s.accepted[n]? = some conn ∧
        (∀ k ∈ s.destroyed, k < n) ∧ s.clients = s.remaining n ++ [⟨conn, none⟩] := by
    simpa only [ClientsKept, hpc] using hs.clients
  have hlast : s.sessions.length - 1 = n := by
    rw [hs.length_eq, hlen]
    rfl
  rw [hback] at hclients
  obtain ⟨rfl, hsame⟩ := List.append_inj' hclients rfl
  obtain rfl : sock = conn := congrArg Client.sock (List.cons.inj hsame).1
  have hclient : s.client n = ⟨sock, some n⟩ := by
    rw [State.client, List.getD_eq_getElem?_getD, hconn]
    rfl
  have hnew : s.remaining n ++ [⟨sock, some n⟩] = s.remaining (n + 1) := by
    rw [remaining_succ fun hmem => Nat.lt_irrefl n (hbelow n hmem), hclient]
  rw [hlast, hnew]
  refine ⟨(conns_setPhase s n phase).trans hs.conns, fun k hk => ?_, ?_, rfl, List.forall_mem_nil _⟩
  · exact (finished_setPhase_of_ne (Nat.ne_of_lt (hbelow k hk))).trans (hs.destroyed k hk)
  · rw [← hlen]
    rfl

theorem finish_served (hs : Served s) (hrun : s.sessionsRun = true) (session : ℕ) :
    Served (s.setPhase session .finished) := by
  refine ⟨(conns_setPhase s session .finished).trans hs.conns,
    fun k hk => finished_setPhase_finished (hs.destroyed k hk), ?_⟩
  have hclients := hs.clients
  have hpc : (s.setPhase session .finished).pc = s.pc := rfl
  unfold ClientsKept at hclients ⊢
  rw [hpc]
  cases hcase : s.pc with
  | accepting | starting | ended =>
    rw [hcase] at hclients
    exact hclients
  | sweep cursor =>
    rw [State.sessionsRun, hcase] at hrun
    cases hrun

theorem turnErase_served (hs : Served s) {kept rest : List Client} {sock : Conn} {session : ℕ}
    (hpc : s.pc = .sweep ⟨kept, ⟨sock, some session⟩ :: rest⟩)
    (hfinished : s.finished session = true) :
    Served { s with
      pc := .sweep ⟨kept, rest⟩
      clients := kept ++ rest
      destroyed := s.destroyed ++ [session] } := by
  obtain ⟨hclients, hlist, hkept⟩ := hs.sweeping hpc
  refine ⟨hs.conns, ?_, ?_, rfl, hkept⟩
  · exact List.forall_mem_append.mpr ⟨hs.destroyed, List.forall_mem_singleton.mpr hfinished⟩
  · exact (remaining_destroyed (hclients.symm.trans hlist.symm)).symm

theorem turnPass_served (hs : Served s) {kept rest : List Client} {sock : Conn} {session : ℕ}
    (hpc : s.pc = .sweep ⟨kept, ⟨sock, some session⟩ :: rest⟩)
    (hfinished : s.finished session = false) :
    Served { s with pc := .sweep ⟨kept ++ [⟨sock, some session⟩], rest⟩ } := by
  obtain ⟨hclients, hlist, hkept⟩ := hs.sweeping hpc
  refine ⟨hs.conns, hs.destroyed, hclients, ?_, ?_⟩
  · rw [Cursor.list, ← hlist, List.append_assoc]
    rfl
  · refine List.forall_mem_append.mpr ⟨hkept, List.forall_mem_singleton.mpr fun k hk => ?_⟩
    rwa [← Option.some.inj hk]

theorem step_served {a : Act} (hs : Served s) (h : step s a = some s') : Served s' := by
  cases step_cases h with
  | accept conn hpc => exact accept_served hs hpc conn rfl
  | fail hpc =>
    refine ⟨hs.conns, hs.destroyed, ?_⟩
    have hclients := hs.clients
    rw [ClientsKept, hpc] at hclients
    exact hclients
  | started finished t before sock hpc hback ht =>
    subst ht
    exact started_served hs hpc hback _
  | progress => exact hs
  | finish session hrun => exact finish_served hs hrun session
  | turnEnd kept hpc => exact ⟨hs.conns, hs.destroyed, (hs.sweeping hpc).1⟩
  | turnErase kept rest sock session hpc hfinished => exact turnErase_served hs hpc hfinished
  | turnPass kept rest sock session hpc hfinished => exact turnPass_served hs hpc hfinished

/-- At the end of a sweep the clients that remain are those with unfinished
sessions. -/
theorem remaining_of_swept {kept : List Client} (hs : Served s) (hpc : s.pc = .sweep ⟨kept, []⟩) :
    s.clients = ((List.range s.accepted.length).filter fun k => !s.finished k).map s.client := by
  obtain ⟨hclients, hlist, hkept⟩ := hs.sweeping hpc
  rw [List.append_nil] at hlist
  have hsame : ∀ k ∈ List.range s.accepted.length,
      decide (k ∉ s.destroyed) = !s.finished k := by
    intro k hk
    by_cases hdestroyed : k ∈ s.destroyed
    · simp [hdestroyed, hs.destroyed k hdestroyed]
    · have hmem : s.client k ∈ kept := by
        rw [hlist, hclients]
        exact List.mem_map_of_mem (List.mem_filter.mpr ⟨hk, by simpa using hdestroyed⟩)
      simp [hdestroyed, hkept _ hmem k rfl]
  rw [hclients, State.remaining, List.filter_congr hsame]

/-- One session is started for each accepted connection, on its socket; a client
is destroyed only when its session is finished; and after each sweep the clients
are those of the unfinished sessions, in the order of their accepts. -/
theorem clients_hold_unfinished {acts : List Act} (h : Runs.exec step start acts = some s) :
    s.sessions.map Session.conn = s.accepted ∧ (∀ k ∈ s.destroyed, s.finished k = true) ∧
      ∀ s', step s .turn = some s' → s'.pc = .accepting →
        s'.clients =
          ((List.range s'.accepted.length).filter fun k => !s'.finished k).map s'.client := by
  have hs := Runs.exec_preserves (fun _ _ _ => step_served) start_served h
  refine ⟨hs.conns, hs.destroyed, fun s' hturn hpc' => ?_⟩
  cases step_cases hturn with
  | turnEnd kept hpc =>
    have hswept := remaining_of_swept hs hpc
    exact hswept
  | turnErase => cases hpc'
  | turnPass => cases hpc'

/-- The second session is finished before its first suspension, the first one
between two accepts. -/
def sampleRun : List Act :=
  [.accept 7, .started false, .turn, .turn, .accept 8, .started true, .turn, .turn, .turn,
    .progress 0, .finish 0, .accept 9, .started false, .turn, .turn]

theorem clients_hold_unfinished_sample : ∃ s s', Runs.exec step start sampleRun = some s ∧
    step s .turn = some s' ∧ s'.clients = [⟨9, some 2⟩] ∧
      s'.clients =
        ((List.range s'.accepted.length).filter fun k => !s'.finished k).map s'.client := by
  have hrun : ((Runs.exec step start sampleRun).bind fun s => (step s .turn).map fun s' =>
      (s'.pc, s'.clients)) = some (.accepting, [⟨9, some 2⟩]) := by decide
  obtain ⟨s, hs, hstep⟩ := Option.bind_eq_some_iff.mp hrun
  obtain ⟨s', hs', heq⟩ := Option.map_eq_some_iff.mp hstep
  obtain ⟨hpc, hclients⟩ := Prod.mk.inj heq
  exact ⟨s, s', hs, hs', hclients, (clients_hold_unfinished hs).2.2 s' hs' hpc⟩

end Invariant

end Bc.ServerClients
