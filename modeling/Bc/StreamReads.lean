import Bc.Awaiters
import Bc.Dispatch
import Bc.Runs

/-!
Reads from a stream whose peer sends some bytes and then closes. The kernel
delivers the bytes in any portions, the close comes after the last of them,
and an event is fixed by `epoll_wait` and handled at a later time.
-/
namespace Bc.StreamReads

open Polling EraseLoop Dispatch Awaiters

/-- `waiting` and `woken` hold the buffer sizes of the pending reads. A read
is woken when the handler has it in its local list with `revent` as event. -/
structure Stream where
  inFlight : List Byte
  unread : List Byte
  closed : Bool
  event : Option Event
  waiting : List ℕ
  woken : List ℕ
  revent : Event
  results : List (Except ErrorCode (List Byte))

def start (sent : List Byte) : Stream :=
  { inFlight := sent
    unread := []
    closed := false
    event := none
    waiting := []
    woken := []
    revent := Event.none
    results := [] }

inductive Act
  | arrive (n : ℕ)
  | close
  | asyncRead (size : ℕ)
  | epollWait (e : Event)
  | dispatch
  | resume (n : ℕ)
  deriving DecidableEq

/-- What level-triggered epoll may report of a stream without an error. The
first two of its duties are for what waiting reads have subscribed. -/
def Reported (s : Stream) (e : Event) : Prop :=
  Event.meets e Event.error = false ∧
    (s.waiting ≠ [] → s.unread ≠ [] → Event.meets e Event.read = true) ∧
    (s.waiting ≠ [] → s.closed = true → Event.meets e Event.rdhangup = true) ∧
    (Event.meets e Event.read = true → s.unread ≠ [] ∨ s.closed = true) ∧
    (hangsUp e = true → s.closed = true)

instance (s : Stream) (e : Event) : Decidable (Reported s e) :=
  inferInstanceAs (Decidable (_ ∧ _))

def Stream.read (s : Stream) (n : ℕ) : Except Errno (List Byte) :=
  if s.unread ≠ [] then .ok (s.unread.take n)
  else if s.closed then .ok []
  else .error Errno.eagain

/-- What is left unread after a read that gave `result`. -/
def Stream.afterRead (s : Stream) (result : Except ErrorCode (List Byte)) : List Byte :=
  match result with
  | .ok bytes => s.unread.drop bytes.length
  | .error _ => s.unread

def step (s : Stream) : Act → Option Stream
  | .arrive n =>
    if 0 < n ∧ n ≤ s.inFlight.length then
      some { s with inFlight := s.inFlight.drop n, unread := s.unread ++ s.inFlight.take n }
    else none
  | .close =>
    if s.inFlight = [] ∧ s.closed = false then some { s with closed := true } else none
  | .asyncRead size =>
    if 0 < size then some { s with waiting := s.waiting ++ [size] } else none
  | .epollWait e =>
    if s.event = none ∧ s.woken = [] ∧ Reported s e then some { s with event := some e } else none
  | .dispatch =>
    match s.event with
    | none => none
    | some e =>
      if Event.meets readMask e then
        some { s with event := none, waiting := [], woken := s.waiting, revent := e }
      else some { s with event := none }
  | .resume n =>
    match s.woken with
    | [] => none
    | size :: rest =>
      if 0 < n ∧ n ≤ size then
        (readResume s.revent (s.read n)).map fun result =>
          { s with
            woken := rest
            unread := s.afterRead result
            results := s.results ++ [result] }
      else none

/-- The handler wakes reads as the step `dispatch` does: all that wait on the
descriptor or none of them, in order. -/
theorem handler_wakes_reads {ok : Bool} {behaviour : ℕ → Resumption} {n fd : ℕ} {e : Event}
    {w w' : World} {turns : List (Turn Scheduling.DescriptorNode World)}
    (h : handler ok behaviour n fd e w = some (w', turns)) :
    (turns.filterMap Turn.fired).filter (fun node => node.ev = readMask) =
      if Event.meets readMask e then
        (w.sched.nodesAt fd).filter (fun node => node.ev = readMask)
      else [] := by
  rw [(handler_served h).fired_eq, List.filter_filter]
  split
  · rename_i hmeets
    apply List.filter_congr
    intro node _
    by_cases hread : node.ev = readMask <;> simp [triggers, hread, hmeets]
  · rename_i hmeets
    apply List.filter_eq_nil_iff.mpr
    intro node _
    by_cases hread : node.ev = readMask <;> simp [triggers, hread, hmeets]

def received (results : List (Except ErrorCode (List Byte))) : List Byte :=
  results.flatMap fun
    | .ok bytes => bytes
    | .error _ => []

theorem received_append (before after : List (Except ErrorCode (List Byte))) :
    received (before ++ after) = received before ++ received after := by
  simp only [received, List.flatMap_append]

/-- Every report that the peer has closed comes after all of its bytes. -/
def ReportsComplete (sent : List Byte) (results : List (Except ErrorCode (List Byte))) : Prop :=
  ∀ before after, results = before ++ .error ErrorCode.closedByPeer :: after →
    received before = sent

/-- A reader is woken by a hang-up only when all that has arrived is read. -/
def ReadBeforeHangup (s : Stream) : Act → Prop
  | .dispatch => s.event.any hangsUp = true → s.waiting ≠ [] → s.unread = []
  | _ => True

instance (s : Stream) (a : Act) : Decidable (ReadBeforeHangup s a) :=
  match a with
  | .dispatch => inferInstanceAs (Decidable (_ → _ → _))
  | .arrive _ | .close | .asyncRead _ | .epollWait _ | .resume _ => inferInstanceAs (Decidable True)

/-- Nothing is lost on the way, and a hang-up that a woken read is going to
see comes after everything. -/
structure Intact (sent : List Byte) (s : Stream) : Prop where
  conserved : received s.results ++ s.unread ++ s.inFlight = sent
  close_last : s.closed = true → s.inFlight = []
  event_closed : ∀ e, s.event = some e → hangsUp e = true → s.closed = true
  woken_last : s.woken ≠ [] → hangsUp s.revent = true → s.closed = true ∧ s.unread = []
  reports : ReportsComplete sent s.results

theorem start_intact (sent : List Byte) : Intact sent (start sent) := by
  refine ⟨by simp [start, received], by simp [start], by simp [start], by simp [start], ?_⟩
  intro before after h
  simp [start] at h

/-- What a read takes is the front of what was unread. -/
theorem Stream.read_ok {s : Stream} {n : ℕ} {bytes : List Byte} (h : s.read n = .ok bytes) :
    bytes ++ s.unread.drop bytes.length = s.unread := by
  unfold Stream.read at h
  split_ifs at h with hunread hclosed
  · obtain rfl := Except.ok.inj h
    exact List.prefix_iff_eq_append.mp (List.take_prefix n s.unread)
  · obtain rfl := Except.ok.inj h
    simp

theorem Stream.read_error {s : Stream} {n : ℕ} {errno : Errno} (h : s.read n = .error errno) :
    errno.negligible = true := by
  unfold Stream.read at h
  split_ifs at h
  obtain rfl := Except.error.inj h
  rfl

theorem ReportsComplete.append {sent : List Byte}
    {results : List (Except ErrorCode (List Byte))} {result : Except ErrorCode (List Byte)}
    (h : ReportsComplete sent results)
    (hlast : result = .error ErrorCode.closedByPeer → received results = sent) :
    ReportsComplete sent (results ++ [result]) := by
  intro before after hsplit
  rcases List.eq_nil_or_concat after with rfl | ⟨init, last, rfl⟩
  · obtain ⟨rfl, hresult⟩ := List.append_inj' hsplit rfl
    exact hlast (List.singleton_inj.mp hresult)
  · have hsplit' : results ++ [result] =
        (before ++ .error ErrorCode.closedByPeer :: init) ++ [last] := by
      simpa using hsplit
    exact h before init (List.append_inj' hsplit' rfl).1

theorem resume_intact {sent : List Byte} {s : Stream} {size n : ℕ} {rest : List ℕ}
    {result : Except ErrorCode (List Byte)} (hs : Intact sent s) (hwoken : s.woken = size :: rest)
    (hresult : readResume s.revent (s.read n) = some result) :
    Intact sent { s with
      woken := rest
      unread := s.afterRead result
      results := s.results ++ [result] } := by
  have hlast := hs.woken_last (by simp [hwoken])
  have hend := readResume_cases hresult
  have hconserved : received (s.results ++ [result]) ++ s.afterRead result =
      received s.results ++ s.unread := by
    rw [received_append, List.append_assoc]
    congr 1
    cases hend with
    | bytes bytes hquiet hread => simpa [received, Stream.afterRead] using Stream.read_ok hread
    | _ => simp [received, Stream.afterRead]
  refine ⟨?_, hs.close_last, hs.event_closed, ?_, ?_⟩
  · rw [hconserved]
    exact hs.conserved
  · intro _ hhangup
    obtain ⟨hclosed, hunread⟩ := hlast hhangup
    refine ⟨hclosed, ?_⟩
    cases result <;> simp [Stream.afterRead, hunread]
  · apply hs.reports.append
    intro heq
    have hhangup : hangsUp s.revent = true := by
      cases hend with
      | error herror => simp [ErrorCode.epollError, ErrorCode.closedByPeer] at heq
      | hangup hhangup => exact hhangup
      | failed errno hread hagain => simp [Stream.read_error hread] at hagain
      | negligible | bytes => cases heq
    obtain ⟨hclosed, hunread⟩ := hlast hhangup
    have hall := hs.conserved
    rw [hunread, hs.close_last hclosed] at hall
    simpa using hall

theorem dispatch_intact {sent : List Byte} {s : Stream} {e : Event} (hs : Intact sent s)
    (hread : ReadBeforeHangup s .dispatch) (hevent : s.event = some e) :
    Intact sent { s with event := none, waiting := [], woken := s.waiting, revent := e } := by
  refine ⟨hs.conserved, hs.close_last, by simp, ?_, hs.reports⟩
  intro hwaiting hhangup
  have hany : s.event.any hangsUp = true := by simpa [hevent] using hhangup
  exact ⟨hs.event_closed e hevent hhangup, hread hany hwaiting⟩

theorem step_intact {sent : List Byte} {s s' : Stream} {a : Act} (hs : Intact sent s)
    (hread : ReadBeforeHangup s a) (h : step s a = some s') : Intact sent s' := by
  cases a with
  | arrive n =>
    simp only [step, Option.ite_none_right_eq_some, Option.some.injEq] at h
    obtain ⟨⟨hpos, hle⟩, rfl⟩ := h
    -- Bytes arrive only before the close, so no hang-up has woken a read.
    have hopen : s.closed = true → False := by
      intro hclosed
      rw [hs.close_last hclosed, List.length_nil] at hle
      omega
    refine ⟨?_, fun hclosed => (hopen hclosed).elim, hs.event_closed, ?_, hs.reports⟩
    · simpa using hs.conserved
    · intro hwoken hhangup
      exact (hopen (hs.woken_last hwoken hhangup).1).elim
  | close =>
    simp only [step, Option.ite_none_right_eq_some, Option.some.injEq] at h
    obtain ⟨⟨hempty, -⟩, rfl⟩ := h
    refine ⟨hs.conserved, fun _ => hempty, fun _ _ _ => rfl, ?_, hs.reports⟩
    intro hwoken hhangup
    exact ⟨rfl, (hs.woken_last hwoken hhangup).2⟩
  | asyncRead size =>
    simp only [step, Option.ite_none_right_eq_some, Option.some.injEq] at h
    obtain ⟨-, rfl⟩ := h
    exact ⟨hs.conserved, hs.close_last, hs.event_closed, hs.woken_last, hs.reports⟩
  | epollWait e =>
    simp only [step, Option.ite_none_right_eq_some, Option.some.injEq] at h
    obtain ⟨⟨-, -, hreported⟩, rfl⟩ := h
    refine ⟨hs.conserved, hs.close_last, ?_, hs.woken_last, hs.reports⟩
    intro e' he' hhangup
    obtain rfl := Option.some.inj he'
    exact hreported.2.2.2.2 hhangup
  | dispatch =>
    cases hevent : s.event with
    | none => simp [step, hevent] at h
    | some e =>
      simp only [step, hevent] at h
      split_ifs at h
      · obtain rfl := Option.some.inj h
        exact dispatch_intact hs hread hevent
      · obtain rfl := Option.some.inj h
        exact ⟨hs.conserved, hs.close_last, by simp, hs.woken_last, hs.reports⟩
  | resume n =>
    cases hwoken : s.woken with
    | nil => simp [step, hwoken] at h
    | cons size rest =>
      simp only [step, hwoken, Option.ite_none_right_eq_some, Option.map_eq_some_iff] at h
      obtain ⟨-, result, hresult, rfl⟩ := h
      exact resume_intact hs hwoken hresult

/-- When no read is woken by a hang-up while bytes are unread, a read that
says the peer has closed comes after reads that returned all bytes sent. -/
theorem closed_after_all_bytes {sent : List Byte} {acts : List Act} {s : Stream}
    (hread : Runs.Along step ReadBeforeHangup (start sent) acts)
    (h : Runs.exec step (start sent) acts = some s) : ReportsComplete sent s.results :=
  (Runs.exec_invariant (fun _ _ _ hs hP hstep => step_intact hs hP hstep) (start_intact sent)
    hread h).reports

/-- Three bytes in two reads, and the close after them. -/
def sampleRun : List Act :=
  [.asyncRead 2, .arrive 3, .epollWait Event.read, .dispatch, .resume 2, .asyncRead 2,
    .epollWait Event.read, .dispatch, .resume 1, .asyncRead 2, .close,
    .epollWait (Event.read ||| Event.rdhangup), .dispatch, .resume 1]

theorem closed_after_all_bytes_sample : ∃ s, Runs.exec step (start [1, 2, 3]) sampleRun = some s ∧
    s.results = [.ok [1, 2], .ok [3], .error ErrorCode.closedByPeer] ∧
    ReportsComplete [1, 2, 3] s.results := by
  have hrun : ((Runs.exec step (start [1, 2, 3]) sampleRun).map Stream.results) =
      some [.ok [1, 2], .ok [3], .error ErrorCode.closedByPeer] := by
    decide +kernel
  obtain ⟨s, hs, hresults⟩ := Option.map_eq_some_iff.mp hrun
  exact ⟨s, hs, hresults, closed_after_all_bytes (by decide +kernel) hs⟩

/-- The same bytes, but the close arrives before the first `epoll_wait`. -/
theorem bytes_lost_at_close : ¬ ∀ sent acts s, Runs.exec step (start sent) acts = some s →
    ReportsComplete sent s.results := by
  intro h
  have hrun : ((Runs.exec step (start [1, 2, 3]) [.asyncRead 8, .arrive 3, .close,
      .epollWait (Event.read ||| Event.rdhangup), .dispatch, .resume 3]).map Stream.results) =
        some [.error ErrorCode.closedByPeer] := by
    decide +kernel
  obtain ⟨s, hs, hresults⟩ := Option.map_eq_some_iff.mp hrun
  have hlost := h _ _ s hs [] [] hresults
  exact absurd hlost (by decide)

end Bc.StreamReads
