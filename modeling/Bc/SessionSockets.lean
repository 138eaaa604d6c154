import Bc.ServedClients

/-!
Which socket each session is given. The sockets are numbered in the order in which they
are opened, so that one is told from another that has had the same descriptor.
-/
namespace Bc.SessionSockets

open Polling Scheduling TaskThreads SpawnedThreads EchoServers HeldSockets ServedClients
open TaskPrograms hiding step start
open CallStacks hiding step Step step_cases

/-- The sessions that a step of the server starts, with the sockets that they are given. -/
def attends (m : Server) (a : Act ServerPoint Received) : List (Frame × ℕ) :=
  (births serverCode m a).filterMap fun birth =>
    match birth.body with
    | .session fd => (m.runtime.loop.socks fd).map fun sock => (birth.thread, sock)
    | _ => none

variable {m m' : Server} {born : List (Birth ServerPoint)} {pairs : List (Frame × ℕ)}
  {a : Act ServerPoint Received}

/-- Each session has had a socket of its own, under its descriptor until its client is
destroyed. -/
structure Paired (m : Server) (pairs : List (Frame × ℕ)) : Prop where
  numbered : Numbered m.runtime.loop
  every : ∀ thread fd, m.bodies thread = some (.session fd) → ∃ sock, (thread, sock) ∈ pairs
  sessions : ∀ pair ∈ pairs, ∃ fd, m.bodies pair.1 = some (.session fd)
  threads : (pairs.map Prod.fst).Nodup
  socks : (pairs.map Prod.snd).Nodup
  bounded : ∀ pair ∈ pairs, pair.2 < m.runtime.loop.opened
  adding : ∀ server fd conn clients, (m.phase server).current = .adding fd conn clients →
    ∀ sock, m.runtime.loop.socks conn = some sock → sock ∉ pairs.map Prod.snd
  opened : ∀ pair ∈ pairs, ∀ fd, m.bodies pair.1 = some (.session fd) →
    pair.1 ∉ m.runtime.destroyed → m.runtime.loop.socks fd = some pair.2

theorem start_paired : Paired TaskPrograms.start [] where
  numbered := ⟨nofun, nofun⟩
  every := nofun
  sessions := by simp
  threads := List.nodup_nil
  socks := List.nodup_nil
  bounded := by simp
  adding := nofun
  opened := by simp

theorem attends_cases (hm : Tended m born) (h : step m a = some m') :
    (attends m a = [] ∧ ∀ birth ∈ births serverCode m a, ∀ fd, birth.body ≠ .session fd) ∨
      ∃ coro task fd conn clients sock, births serverCode m a = [birthOf coro ⟨conn, task⟩] ∧
        (m.phase coro).current = .adding fd conn clients ∧
        (m'.phase coro).current = swept fd [] (clients ++ [⟨conn, task⟩]) ∧
        ¬Known m.runtime task ∧ m.runtime.loop.socks conn = some sock ∧
        attends m a = [(task, sock)] := by
  rcases births_cases hm h with hnone | ⟨coro, hone⟩ |
    ⟨coro, task, fd, conn, clients, hone, hpoint, hpoint', hfresh⟩
  · exact Or.inl ⟨by rw [attends, hnone]; rfl, by simp [hnone]⟩
  · exact Or.inl ⟨by rw [attends, hone]; rfl, by simp [hone]⟩
  · have hheld : conn ∈ holds m coro := by simp [holds, hpoint, sockets, loose]
    obtain ⟨sock, hsock⟩ := Option.ne_none_iff_exists'.mp (hm.held.opened coro conn hheld)
    refine Or.inr ⟨coro, task, fd, conn, clients, sock, hone, hpoint, hpoint', hfresh, hsock, ?_⟩
    simp [attends, hone, birthOf, hsock]

/-- The socket that is about to be given to a session is new, or was so before. -/
theorem newest_of_adding {server : Frame} {fd conn sock : ℕ} {clients : List Client}
    (hlater : Later m.runtime.loop m'.runtime.loop) (h : step m a = some m')
    (hpoint : (m'.phase server).current = .adding fd conn clients)
    (hsock : m'.runtime.loop.socks conn = some sock) :
    m.runtime.loop.opened ≤ sock ∨ (m.phase server).current = .adding fd conn clients ∧
      m.runtime.loop.socks conn = some sock := by
  rcases hlater.socks conn sock hsock with hold | hnew
  · rcases step_got h server with hsame | ⟨-, hgot⟩
    · exact Or.inr ⟨hsame.symm.trans hpoint, hold⟩
    · rw [hgot fd conn clients hpoint] at hold
      cases hold
  · exact Or.inl hnew

theorem Paired.notMem_of_adding {server : Frame} {fd conn sock : ℕ} {clients : List Client}
    (hp : Paired m pairs) (hlater : Later m.runtime.loop m'.runtime.loop)
    (h : step m a = some m')
    (hpoint : (m'.phase server).current = .adding fd conn clients)
    (hsock : m'.runtime.loop.socks conn = some sock) : sock ∉ pairs.map Prod.snd := by
  rcases newest_of_adding hlater h hpoint hsock with hnew | ⟨hpoint, hsock⟩
  · intro hmem
    obtain ⟨pair, hpair, rfl⟩ := List.mem_map.mp hmem
    have hless := hp.bounded pair hpair
    omega
  · exact hp.adding server fd conn clients hpoint sock hsock

theorem session_of_step {thread : Frame} {fd : ℕ} (hm : Tended m born) (h : step m a = some m')
    (hbody : m'.bodies thread = some (.session fd)) :
    m.bodies thread = some (.session fd) ∨
      ∃ parent, ⟨parent, thread, .session fd⟩ ∈ births serverCode m a := by
  obtain ⟨parent, hbirth⟩ := ((step_tended hm h).recorded.bodies thread _).mp hbody
  rcases List.mem_append.mp hbirth with hold | hnew
  · exact Or.inl ((hm.recorded.bodies thread _).mpr ⟨parent, hold⟩)
  · exact Or.inr ⟨parent, hnew⟩

theorem Paired.sessions_after (hp : Paired m pairs) (hm : Tended m born) (h : step m a = some m') :
    ∀ pair ∈ pairs, ∃ fd, m'.bodies pair.1 = some (.session fd) := by
  intro pair hpair
  obtain ⟨fd, hbody⟩ := hp.sessions pair hpair
  exact ⟨fd, (step_session hm h hbody).1⟩

/-- The sockets of the sessions that there were before the step stay open. -/
theorem Paired.opened_after (hp : Paired m pairs) (hm : Tended m born) (h : step m a = some m') :
    ∀ pair ∈ pairs, ∀ fd, m'.bodies pair.1 = some (.session fd) →
      pair.1 ∉ m'.runtime.destroyed → m'.runtime.loop.socks fd = some pair.2 := by
  intro pair hpair fd hbody' hthread'
  obtain ⟨k, hbody⟩ := hp.sessions pair hpair
  obtain ⟨hkept, hsame⟩ := step_session hm h hbody
  obtain rfl := ServerPoint.session.inj (Option.some.inj (hbody'.symm.trans hkept))
  obtain ⟨hthread, hsocks⟩ := hsame hthread'
  rw [hsocks]
  exact hp.opened pair hpair fd hbody hthread

theorem Paired.quiet (hm : Tended m born) (hp : Paired m pairs)
    (h : step m a = some m')
    (hnone : ∀ birth ∈ births serverCode m a, ∀ fd, birth.body ≠ .session fd) :
    Paired m' pairs := by
  have hkept := (step_threaded hm.threaded (Option.ite_none_right_eq_some.mp h).2).1
  obtain ⟨hnumbered, hlater⟩ := Numbered.kept hkept hp.numbered
  constructor
  case numbered => exact hnumbered
  case every =>
    intro thread fd hbody
    rcases session_of_step hm h hbody with hold | ⟨parent, hbirth⟩
    · exact hp.every thread fd hold
    · exact absurd rfl (hnone _ hbirth fd)
  case sessions => exact hp.sessions_after hm h
  case threads => exact hp.threads
  case socks => exact hp.socks
  case bounded => exact fun pair hpair => (hp.bounded pair hpair).trans_le hlater.opened
  case adding =>
    exact fun server fd conn clients hpoint sock hsock => hp.notMem_of_adding hlater h hpoint hsock
  case opened => exact hp.opened_after hm h

/-- A session is started on the socket that has just been opened. -/
theorem Paired.added {coro task : Frame} {fd conn sock : ℕ} {clients : List Client}
    (hp : Paired m pairs) (hm : Tended m born) (h : step m a = some m')
    (hone : births serverCode m a = [birthOf coro ⟨conn, task⟩])
    (hpoint : (m.phase coro).current = .adding fd conn clients)
    (hpoint' : (m'.phase coro).current = swept fd [] (clients ++ [⟨conn, task⟩]))
    (hfresh : ¬Known m.runtime task) (hsock : m.runtime.loop.socks conn = some sock) :
    Paired m' (pairs ++ [(task, sock)]) := by
  have hm' := step_tended hm h
  have hkept := (step_threaded hm.threaded (Option.ite_none_right_eq_some.mp h).2).1
  obtain ⟨hnumbered, hlater⟩ := Numbered.kept hkept hp.numbered
  have hbodies : ∀ thread fd, m'.bodies thread = some (.session fd) →
      m.bodies thread = some (.session fd) ∨ thread = task ∧ fd = conn := by
    intro thread fd hbody
    refine (session_of_step hm h hbody).imp_right ?_
    rintro ⟨parent, hbirth⟩
    rw [hone] at hbirth
    obtain ⟨-, rfl, hbody⟩ := Birth.mk.inj (List.mem_singleton.mp hbirth)
    exact ⟨rfl, ServerPoint.session.inj hbody⟩
  have hnone := hm.recorded.unused hfresh
  have htask : ∀ pair ∈ pairs, pair.1 ≠ task := by
    rintro pair hpair rfl
    obtain ⟨fd, hbody⟩ := hp.sessions pair hpair
    rw [hnone] at hbody
    cases hbody
  have hheld : conn ∈ holds m coro := by simp [holds, hpoint, sockets, loose]
  have hheld' : conn ∈ holds m' coro := by simp [holds, hpoint', sockets_swept]
  have hsocks : m'.runtime.loop.socks conn = some sock :=
    ((step_handles h).same hm.held hheld hheld').trans hsock
  constructor
  case numbered => exact hnumbered
  case every =>
    intro thread k hbody
    rcases hbodies thread k hbody with hbody | ⟨rfl, -⟩
    · obtain ⟨other, hpair⟩ := hp.every thread k hbody
      exact ⟨other, List.mem_append_left _ hpair⟩
    · exact ⟨sock, by simp⟩
  case sessions =>
    rw [List.forall_mem_append, List.forall_mem_singleton]
    refine ⟨hp.sessions_after hm h, conn, ?_⟩
    exact (hm'.recorded.bodies task _).mpr ⟨some coro, by simp [hone, birthOf]⟩
  case threads =>
    rw [List.map_append, List.map_singleton, List.nodup_append]
    refine ⟨hp.threads, List.nodup_singleton _, ?_⟩
    rw [List.forall_mem_map]
    intro pair hpair other hother
    rw [List.mem_singleton.mp hother]
    exact htask pair hpair
  case socks =>
    rw [List.map_append, List.map_singleton, List.nodup_append]
    refine ⟨hp.socks, List.nodup_singleton _, ?_⟩
    intro other hother sock' hsock' heq
    rw [heq, List.mem_singleton.mp hsock'] at hother
    exact hp.adding coro fd conn clients hpoint sock hsock hother
  case bounded =>
    rw [List.forall_mem_append, List.forall_mem_singleton]
    exact ⟨fun pair hpair => (hp.bounded pair hpair).trans_le hlater.opened,
      (hp.numbered.bounded conn sock hsock).trans_le hlater.opened⟩
  case adding =>
    intro server k conn' clients' hadding other hother
    rw [List.map_append, List.mem_append, not_or, List.map_singleton, List.mem_singleton]
    refine ⟨hp.notMem_of_adding hlater h hadding hother, ?_⟩
    rintro rfl
    have hne : server ≠ coro := by
      rintro rfl
      cases clients <;> cases hadding.symm.trans hpoint'
    rcases newest_of_adding hlater h hadding hother with hnew | ⟨hadding, hother⟩
    · exact absurd (hp.numbered.bounded conn other hsock) (by omega)
    · obtain rfl := hp.numbered.distinct conn conn' other hsock hother
      have hheld'' : conn ∈ holds m server := by simp [holds, hadding, sockets, loose]
      exact hm.held.apart server coro hne hheld'' hheld
  case opened =>
    rw [List.forall_mem_append, List.forall_mem_singleton]
    refine ⟨hp.opened_after hm h, fun k hbody hthread => ?_⟩
    rcases hbodies task k hbody with hold | ⟨-, rfl⟩
    · rw [hnone] at hold
      cases hold
    · exact hsocks

theorem step_paired (hm : Tended m born) (hp : Paired m pairs)
    (h : step m a = some m') : Paired m' (pairs ++ attends m a) := by
  rcases attends_cases hm h with ⟨hattends, hnone⟩ |
    ⟨coro, task, fd, conn, clients, sock, hone, hpoint, hpoint', hfresh, hsock, hattends⟩
  · rw [hattends, List.append_nil]
    exact hp.quiet hm h hnone
  · rw [hattends]
    exact hp.added hm h hone hpoint hpoint' hfresh hsock

end Bc.SessionSockets
