import Bc.EchoSessions

/-!
A client of `client.cxx` and the session that the server runs for it, on the two
ends of a connection. A line is written and an answer is read in turns; either side
may transfer less than it is asked to, and what has been written and not yet read
is on its way. What comes back carries its position among what was sent.
-/
namespace Bc.EchoConnections

open Polling Awaiters EchoSessions
open EchoSessions hiding Act step Step step_cases start

/-- Where the client is: before `getline`, before the `async_write` of a line, before
the `async_read` that follows, when `taken` bytes have been written, or behind its
loop. -/
inductive ClientPhase
  | typing
  | writing (line : List Byte)
  | reading (taken : ℕ)
  | finished
  deriving DecidableEq

structure Client (α : Type) where
  phase : ClientPhase
  sent : List Byte
  received : List α

/-- A client with what is on its way from it and to it. -/
structure Wire (α : Type) where
  client : Client α
  up : List Byte
  down : List α

/-- The session is at the other end; what comes back from it carries its position. -/
structure Connection extends Wire (Byte × ℕ) where
  session : Session

def start : Connection := ⟨⟨⟨.typing, [], []⟩, [], []⟩, EchoSessions.start⟩

inductive ClientAct
  | getline (line : List Byte)
  | write (revent : Event) (outcome : Except Errno ℕ)
  | read (revent : Event) (outcome : Except Errno (List Byte))

inductive Act
  | client (a : ClientAct)
  | session (a : EchoSessions.Act)

section Wires

variable {α β : Type}

/-- The client behind its `async_write`. -/
def Wire.afterWrite (w : Wire α) (line : List Byte) (result : Except ErrorCode ℕ) :
    Option (Wire α) :=
  match result with
  | .error _ => some { w with client.phase := .finished }
  | .ok n =>
    if n ≤ line.length then
      some { w with
        client.phase := .reading n
        client.sent := w.client.sent ++ line.take n
        up := w.up ++ line.take n }
    else none

/-- The client behind its `async_read`. Its buffer has the session's size, and the
terminator has to fit behind what was read. -/
def Wire.afterRead (byte : α → Byte) (w : Wire α) (result : Except ErrorCode (List Byte)) :
    Option (Wire α) :=
  match result with
  | .error _ => some { w with client.phase := .finished }
  | .ok bytes =>
    if bytes <+: w.down.map byte ∧ bytes.length < bufferSize then
      some { w with
        client.phase := .typing
        client.received := w.client.received ++ w.down.take bytes.length
        down := w.down.drop bytes.length }
    else none

def Wire.step (byte : α → Byte) (w : Wire α) : ClientAct → Option (Wire α)
  | .getline line =>
    if w.client.phase = .typing then some { w with client.phase := .writing line } else none
  | .write revent outcome =>
    match w.client.phase with
    | .writing line => w.afterWrite line (writeResume revent outcome)
    | _ => none
  | .read revent outcome =>
    match w.client.phase with
    | .reading _ => (readResume revent outcome).bind (w.afterRead byte)
    | _ => none

def Wire.map (f : α → β) (w : Wire α) : Wire β :=
  ⟨⟨w.client.phase, w.client.sent, w.client.received.map f⟩, w.up, w.down.map f⟩

inductive Wire.Step (w : Wire α) : ClientAct → Wire α → Prop
  | getline (line : List Byte) : Step w (.getline line) { w with client.phase := .writing line }
  | hangup (a : ClientAct) : Step w a { w with client.phase := .finished }
  | write (revent : Event) (outcome : Except Errno ℕ) (line : List Byte) (n : ℕ)
      (hn : n ≤ line.length) :
      Step w (.write revent outcome)
        { w with
          client.phase := .reading n
          client.sent := w.client.sent ++ line.take n
          up := w.up ++ line.take n }
  | read (revent : Event) (outcome : Except Errno (List Byte)) (n : ℕ) :
      Step w (.read revent outcome)
        { w with
          client.phase := .typing
          client.received := w.client.received ++ w.down.take n
          down := w.down.drop n }

theorem Wire.step_cases {byte : α → Byte} {w w' : Wire α} {a : ClientAct}
    (h : w.step byte a = some w') : w.Step a w' := by
  cases a with
  | getline line =>
    obtain ⟨-, h⟩ := Option.ite_none_right_eq_some.mp h
    obtain rfl := Option.some.inj h
    exact .getline line
  | write revent outcome =>
    cases hphase : w.client.phase with
    | writing line =>
      simp only [Wire.step, hphase] at h
      cases hresult : writeResume revent outcome with
      | error code =>
        rw [hresult] at h
        obtain rfl := Option.some.inj h
        exact .hangup _
      | ok n =>
        rw [hresult] at h
        obtain ⟨hn, h⟩ := Option.ite_none_right_eq_some.mp h
        obtain rfl := Option.some.inj h
        exact .write revent outcome line n hn
    | typing | reading | finished => simp [Wire.step, hphase] at h
  | read revent outcome =>
    cases hphase : w.client.phase with
    | reading taken =>
      simp only [Wire.step, hphase, Option.bind_eq_some_iff] at h
      obtain ⟨result, -, h⟩ := h
      cases result with
      | error code =>
        obtain rfl := Option.some.inj h
        exact .hangup _
      | ok bytes =>
        obtain ⟨-, h⟩ := Option.ite_none_right_eq_some.mp h
        obtain rfl := Option.some.inj h
        exact .read revent outcome bytes.length
    | typing | writing | finished => simp [Wire.step, hphase] at h

/-- A client does not see the positions. -/
theorem Wire.step_map {byte : β → Byte} (f : α → β) (w : Wire α) (a : ClientAct) :
    (w.map f).step byte a = (w.step (byte ∘ f) a).map (Wire.map f) := by
  cases a with
  | getline line =>
    by_cases hphase : w.client.phase = .typing <;> simp [Wire.step, Wire.map, hphase]
  | write revent outcome =>
    simp only [Wire.step, Wire.map]
    cases w.client.phase with
    | writing line =>
      simp only [Wire.afterWrite]
      cases writeResume revent outcome with
      | error => rfl
      | ok n =>
        dsimp only
        split_ifs <;> rfl
    | typing | reading | finished => rfl
  | read revent outcome =>
    simp only [Wire.step, Wire.map]
    cases w.client.phase with
    | reading taken =>
      cases readResume revent outcome with
      | none => rfl
      | some result =>
        cases result with
        | error => rfl
        | ok bytes =>
          simp only [Option.bind_some, Wire.afterRead, List.map_map]
          split_ifs <;> simp [Wire.map]
    | typing | writing | finished => rfl

end Wires

/-- What a step of the session has read comes from the one direction, and what it
has written goes to the other. -/
def Connection.afterSession (s : Connection) (session : Session) : Option Connection :=
  let bytes := session.read.drop s.session.read.length
  if bytes <+: s.up then
    some { s with
      session := session
      up := s.up.drop bytes.length
      down := s.down ++ session.written.drop s.session.written.length }
  else none

def step (s : Connection) : Act → Option Connection
  | .client a => (s.toWire.step Prod.fst a).map fun wire => { s with toWire := wire }
  | .session a => (EchoSessions.step s.session a).bind s.afterSession

inductive Step (s : Connection) : Act → Connection → Prop
  | client (a : ClientAct) (wire : Wire (Byte × ℕ)) (hwire : s.toWire.Step a wire) :
      Step s (.client a) { s with toWire := wire }
  | session (a : EchoSessions.Act) (session : Session) (bytes rest : List Byte)
      (hup : s.up = bytes ++ rest) (hread : session.read = s.session.read ++ bytes)
      (hstep : EchoSessions.step s.session a = some session) :
      Step s (.session a)
        { s with
          session := session
          up := rest
          down := s.down ++ session.written.drop s.session.written.length }

section Steps

variable {s s' : Connection}

theorem read_grows {t t' : Session} {a : EchoSessions.Act}
    (h : EchoSessions.step t a = some t') : t.read <+: t'.read := by
  cases EchoSessions.step_cases h with
  | read => exact List.prefix_append _ _
  | write | finish => exact List.prefix_refl _

theorem written_grows {t t' : Session} {a : EchoSessions.Act}
    (h : EchoSessions.step t a = some t') : t.written <+: t'.written := by
  cases EchoSessions.step_cases h with
  | write => exact List.prefix_append _ _
  | read | finish => exact List.prefix_refl _

theorem step_cases {a : Act} (h : step s a = some s') : Step s a s' := by
  cases a with
  | client a =>
    obtain ⟨wire, hwire, rfl⟩ := Option.map_eq_some_iff.mp h
    exact .client a wire (Wire.step_cases hwire)
  | session a =>
    obtain ⟨session, hstep, h⟩ := Option.bind_eq_some_iff.mp h
    obtain ⟨hup, h⟩ := Option.ite_none_right_eq_some.mp h
    obtain rfl := Option.some.inj h
    obtain ⟨bytes, hread⟩ := read_grows hstep
    rw [← hread, List.drop_left] at hup ⊢
    obtain ⟨rest, hrest⟩ := hup
    rw [← hrest, List.drop_left]
    exact .session a session bytes rest hrest.symm hread.symm hstep

/-- What the session has read and not yet written or dropped. -/
def pending : Phase → List (Byte × ℕ)
  | .writing buffer => buffer
  | .reading => []
  | .finished => []

theorem step_bounded {t t' : Session} {a : EchoSessions.Act}
    (ht : t.written.length + (pending t.phase).length ≤ t.read.length)
    (h : EchoSessions.step t a = some t') :
    t'.written.length + (pending t'.phase).length ≤ t'.read.length := by
  cases EchoSessions.step_cases h with
  | read revent outcome bytes hphase =>
    rw [hphase] at ht
    simp only [pending, List.length_nil, List.length_zipIdx, List.length_append] at ht ⊢
    omega
  | write revent outcome buffer n hphase hn htakes =>
    rw [hphase] at ht
    simp only [pending, List.length_nil, List.length_append, List.length_take] at ht ⊢
    omega
  | finish =>
    simp only [pending, List.length_nil]
    omega

/-- What has been sent and what has been written are each divided between the two
ends and the way between them. -/
structure Divided (s : Connection) : Prop where
  sent : s.client.sent = s.session.read ++ s.up
  written : s.session.written = s.client.received ++ s.down
  ordered : Ordered s.session
  bounded : s.session.written.length + (pending s.session.phase).length ≤ s.session.read.length
  asked : ∀ taken, s.client.phase = .reading taken →
    s.client.received.length + taken ≤ s.client.sent.length

theorem start_divided : Divided start :=
  ⟨rfl, rfl, start_ordered, le_rfl, nofun⟩

theorem step_divided {a : Act} (hs : Divided s) (h : step s a = some s') : Divided s' := by
  obtain ⟨hsent, hwritten, hordered, hbounded, hasked⟩ := hs
  cases step_cases h with
  | client a wire hwire =>
    cases hwire with
    | getline | hangup => exact ⟨hsent, hwritten, hordered, hbounded, nofun⟩
    | write revent outcome line n hn =>
      refine ⟨?_, hwritten, hordered, hbounded, ?_⟩
      · simp only [hsent, List.append_assoc]
      · intro taken hphase
        obtain rfl := ClientPhase.reading.inj hphase
        rw [hwritten] at hbounded
        simp only [hsent, List.length_append, List.length_take] at hbounded ⊢
        omega
    | read revent outcome n =>
      refine ⟨hsent, ?_, hordered, hbounded, nofun⟩
      simp only [List.append_assoc, List.take_append_drop]
      exact hwritten
  | session a session bytes rest hup hread hstep =>
    refine ⟨?_, ?_, step_ordered hordered hstep, step_bounded hbounded hstep, hasked⟩
    · simp only [hread, hsent, hup, List.append_assoc]
    · obtain ⟨more, hmore⟩ := written_grows hstep
      simp only [← hmore, List.drop_left]
      rw [hwritten, List.append_assoc]

theorem run_divided {acts : List Act} (h : Runs.exec step start acts = some s) : Divided s :=
  Runs.exec_preserves (fun _ _ _ hs hstep => step_divided hs hstep) start_divided h

/-- What has been written back, read by the client or on its way there, is where the
client's bytes begin. -/
def Returned (s : Connection) : Prop := s.client.received ++ s.down <+: s.client.sent.zipIdx

/-- What the client has read is where its bytes begin. -/
def ReadBack (s : Connection) : Prop := s.client.received <+: s.client.sent.zipIdx

theorem Returned.readBack (h : Returned s) : ReadBack s := (List.prefix_append _ _).trans h

theorem Divided.returned_iff (hs : Divided s) : Returned s ↔ Echoed s.session := by
  unfold Returned Echoed
  rw [← hs.written, hs.sent, List.zipIdx_append]
  refine ⟨fun h => ?_, fun h => h.trans (List.prefix_append _ _)⟩
  refine List.prefix_of_prefix_length_le h (List.prefix_append _ _) ?_
  have hbounded := hs.bounded
  rw [List.length_zipIdx]
  omega

/-- Bytes that have come out of order stay so. -/
theorem returned_of_step {a : Act} (hs : Divided s) (h : step s a = some s')
    (hreturned : Returned s') : Returned s := by
  rw [(step_divided hs h).returned_iff] at hreturned
  rw [hs.returned_iff]
  cases step_cases h with
  | client => exact hreturned
  | session a session bytes rest hup hread hstep =>
    have hwritten := (written_grows hstep).trans hreturned
    simp only [hread, List.zipIdx_append] at hwritten
    refine List.prefix_of_prefix_length_le hwritten (List.prefix_append _ _) ?_
    have hbounded := hs.bounded
    rw [List.length_zipIdx]
    omega

/-- The session takes no byte any more once one of its writes was short. -/
def SessionComplete (s : Connection) : Act → Prop
  | .session a => Complete s.session a
  | .client _ => True

instance (s : Connection) (a : Act) : Decidable (SessionComplete s a) :=
  match a with
  | .session a => inferInstanceAs (Decidable (Complete s.session a))
  | .client _ => inferInstanceAs (Decidable True)

theorem step_returned_iff {a : Act} (hs : Divided s) (hreturned : Returned s)
    (h : step s a = some s') : Returned s' ↔ SessionComplete s a := by
  rw [(step_divided hs h).returned_iff]
  have hechoed := hs.returned_iff.mp hreturned
  cases step_cases h with
  | client => exact iff_of_true hechoed trivial
  | session a session bytes rest hup hread hstep =>
    exact step_echoed_iff hs.ordered hechoed hstep

/-- While no write was short, the session holds what it has not written. -/
theorem read_eq_of_full {t : Session} (ht : Ordered t) (hshort : t.short = false)
    (hphase : t.phase ≠ .finished) : t.read.zipIdx = t.written ++ pending t.phase := by
  unfold Ordered Behind at ht
  cases hcase : t.phase with
  | reading =>
    rw [hcase, hshort] at ht
    rw [pending, List.append_nil]
    exact ht.symm
  | writing buffer =>
    rw [hcase, hshort] at ht
    obtain ⟨asked, hread, hwritten⟩ := ht
    rw [hread, show t.written = asked from hwritten]
    rfl
  | finished => exact absurd hcase hphase

end Steps

theorem throughout_returned_iff {acts : List Act} {s : Connection}
    (hrun : Runs.exec step start acts = some s) :
    Runs.Throughout step Returned start acts ↔ Runs.Along step SessionComplete start acts :=
  Runs.throughout_iff_along (fun _ _ _ hs h => step_divided hs h)
    (fun _ _ _ hs hreturned h => step_returned_iff hs hreturned h) start_divided
    List.nil_prefix hrun

theorem returned_iff_along {acts : List Act} {s : Connection}
    (hrun : Runs.exec step start acts = some s) :
    Returned s ↔ Runs.Along step SessionComplete start acts := by
  rw [← throughout_returned_iff hrun]
  refine ⟨fun hreturned => ?_, fun hthroughout => Runs.throughout_last hthroughout hrun⟩
  exact Runs.throughout_of_last (fun _ _ _ hs h => step_divided hs h)
    (fun _ _ _ hs h => returned_of_step hs h) start_divided hrun hreturned

/-- Whoever transfers what, and in which order: what is written back is in order, none
of it skipped, in exactly the runs in which the session writes nothing more once one of
its writes was short. In these runs the client reads its bytes in order; and where it
has read all that was written back, it has done so in these runs only. -/
theorem echo_returned_iff {acts : List Act} {s : Connection}
    (hrun : Runs.exec step start acts = some s) :
    (Runs.Throughout step Returned start acts ↔ Runs.Along step SessionComplete start acts) ∧
      (Runs.Along step SessionComplete start acts → Runs.Throughout step ReadBack start acts) ∧
      (s.down = [] → (ReadBack s ↔ Runs.Along step SessionComplete start acts)) := by
  have hiff := throughout_returned_iff hrun
  refine ⟨hiff, fun hcomplete => (hiff.mpr hcomplete).mono fun _ => Returned.readBack, ?_⟩
  intro hdown
  have hread : ReadBack s ↔ Returned s := by
    rw [ReadBack, Returned, hdown, List.append_nil]
  rw [hread]
  exact returned_iff_along hrun

def inParts : List Act :=
  [.client (.getline [97, 98, 99]), .client (.write Event.write (.ok 2)),
    .session (.read Event.read (.ok [97])), .session (.write Event.write (.ok 1)),
    .session (.read Event.read (.ok [98])), .client (.read Event.read (.ok [97])),
    .client (.getline [100]), .client (.write Event.write (.ok 1)),
    .session (.write Event.write (.ok 1))]

/-- One byte of two is written back; the client reads it, and the answer to its next
line. -/
def gapRun : List Act :=
  [.client (.getline [97, 98]), .client (.write Event.write (.ok 2)),
    .session (.read Event.read (.ok [97, 98])), .session (.write Event.write (.ok 1)),
    .client (.read Event.read (.ok [97])), .client (.getline [99]),
    .client (.write Event.write (.ok 1)), .session (.read Event.read (.ok [99])),
    .session (.write Event.write (.ok 1)), .client (.read Event.read (.ok [99]))]

theorem echo_returned_iff_inParts :
    (Runs.Throughout step Returned start inParts ∧ Runs.Throughout step ReadBack start inParts) ∧
      ∃ s, Runs.exec step start gapRun = some s ∧ s.client.received = [(97, 0), (99, 2)] ∧
        ¬ReadBack s := by
  have hrun : (Runs.exec step start inParts).isSome = true := by decide
  obtain ⟨s, hs⟩ := Option.isSome_iff_exists.mp hrun
  have hgap : ((Runs.exec step start gapRun).map fun s => (s.client.received, s.down)) =
      some ([(97, 0), (99, 2)], []) := by decide
  obtain ⟨t, ht, heq⟩ := Option.map_eq_some_iff.mp hgap
  obtain ⟨hreceived, hdown⟩ := Prod.mk.inj heq
  obtain ⟨hreturned, hread, -⟩ := echo_returned_iff hs
  obtain ⟨-, -, hlast⟩ := echo_returned_iff ht
  refine ⟨⟨hreturned.mpr (by decide), hread (by decide)⟩, t, ht, hreceived, ?_⟩
  rw [hlast hdown]
  decide

section Answers

variable {s t : Connection}

def OfSession : Act → Prop
  | .session _ => True
  | .client _ => False

theorem client_of_session {a : Act} (ha : OfSession a) (h : step s a = some t) :
    t.client = s.client := by
  cases step_cases h with
  | client => exact ha.elim
  | session => rfl

theorem client_of_sessions {acts : List Act} (hacts : ∀ a ∈ acts, OfSession a)
    (h : Runs.exec step s acts = some t) : t.client = s.client := by
  induction acts generalizing s with
  | nil =>
    obtain rfl := Option.some.inj h
    rfl
  | cons a rest ih =>
    obtain ⟨hfirst, hrest⟩ := List.forall_mem_cons.mp hacts
    obtain ⟨u, hu, hlater⟩ := Runs.exec_cons_eq_some.mp h
    exact (ih hrest hlater).trans (client_of_session hfirst hu)

theorem step_writeAll {buffer : List (Byte × ℕ)} (hphase : s.session.phase = .writing buffer) :
    ∃ u, step s (.session (.write Event.write (.ok buffer.length))) = some u ∧
      u.session.phase = .reading ∧ u.up = s.up ∧ u.down = s.down ++ buffer := by
  have hresult : writeResume Event.write (.ok buffer.length) = .ok buffer.length := rfl
  simp [step, EchoSessions.step, hphase, hresult, Session.afterWrite, Connection.afterSession]

theorem step_readOne {byte : Byte} {rest : List Byte} (hphase : s.session.phase = .reading)
    (hup : s.up = byte :: rest) :
    ∃ u, step s (.session (.read Event.read (.ok [byte]))) = some u ∧
      u.session.phase = .writing [(byte, s.session.read.length)] := by
  have hresult : readResume Event.read (.ok [byte]) = some (.ok [byte]) := rfl
  simp [step, EchoSessions.step, hphase, hresult, Session.afterRead, Connection.afterSession, hup,
    bufferSize]

/-- What the session holds is on its way back after one step. -/
theorem answer_of_held {buffer : List (Byte × ℕ)} (hphase : s.session.phase = .writing buffer)
    (hbuffer : buffer ≠ []) :
    ∃ acts t, Runs.exec step s acts = some t ∧ (∀ a ∈ acts, OfSession a) ∧ t.down ≠ [] := by
  obtain ⟨t, hwrite, -, -, hdown⟩ := step_writeAll hphase
  refine ⟨[_], t, Runs.exec_one hwrite, by simp [OfSession], ?_⟩
  simp [hdown, hbuffer]

/-- What is on its way to the session is read first. -/
theorem answer_of_arrived {byte : Byte} {rest : List Byte} (hphase : s.session.phase = .reading)
    (hup : s.up = byte :: rest) :
    ∃ acts t, Runs.exec step s acts = some t ∧ (∀ a ∈ acts, OfSession a) ∧ t.down ≠ [] := by
  obtain ⟨u, hread, hheld⟩ := step_readOne hphase hup
  obtain ⟨acts, t, hrun, hacts, hdown⟩ := answer_of_held hheld (List.cons_ne_nil _ _)
  exact ⟨_ :: acts, t, Runs.exec_cons_eq_some.mpr ⟨u, hread, hrun⟩,
    List.forall_mem_cons.mpr ⟨trivial, hacts⟩, hdown⟩

/-- An answer comes from what is still on its way or held. -/
theorem answer_of_left (hphase : s.session.phase ≠ .finished)
    (hleft : 0 < s.down.length + (pending s.session.phase).length + s.up.length) :
    ∃ acts t, Runs.exec step s acts = some t ∧ (∀ a ∈ acts, OfSession a) ∧ t.down ≠ [] := by
  by_cases hdown : s.down = []
  · rw [hdown, List.length_nil, Nat.zero_add] at hleft
    cases hcase : s.session.phase with
    | finished => exact absurd hcase hphase
    | reading =>
      rw [hcase, pending, List.length_nil, Nat.zero_add] at hleft
      obtain ⟨byte, rest, hup⟩ := List.exists_cons_of_length_pos hleft
      exact answer_of_arrived hcase hup
    | writing buffer =>
      by_cases hbuffer : buffer = []
      · -- A write of nothing leads back to the read.
        rw [hcase, pending, hbuffer, List.length_nil, Nat.zero_add] at hleft
        obtain ⟨byte, rest, hup⟩ := List.exists_cons_of_length_pos hleft
        obtain ⟨u, hwrite, hreading, hup', -⟩ := step_writeAll hcase
        obtain ⟨acts, t, hrun, hacts, hanswer⟩ := answer_of_arrived hreading (hup'.trans hup)
        exact ⟨_ :: acts, t, Runs.exec_cons_eq_some.mpr ⟨u, hwrite, hrun⟩,
          List.forall_mem_cons.mpr ⟨trivial, hacts⟩, hanswer⟩
      · exact answer_of_held hcase hbuffer
  · exact ⟨[], s, rfl, by simp, hdown⟩

end Answers

/-- While the session goes on and none of its writes was short, every byte that has
been sent has come back, is on its way there, is held by the session or is on its
way to it. So the session can come to answer a client exactly if this has not read
all of its bytes; a client that awaits an answer to some bytes has not, while one whose
line was empty, or was not taken, may wait in vain. -/
theorem answer_on_its_way {acts : List Act} {s : Connection}
    (hrun : Runs.exec step start acts = some s) (hshort : s.session.short = false)
    (hphase : s.session.phase ≠ .finished) :
    s.client.sent = s.client.received.map Prod.fst ++ s.down.map Prod.fst ++
        (pending s.session.phase).map Prod.fst ++ s.up ∧
      ((∃ more t, Runs.exec step s more = some t ∧ (∀ a ∈ more, OfSession a) ∧ t.down ≠ []) ↔
        s.client.received.length < s.client.sent.length) ∧
      ∀ taken, s.client.phase = .reading taken →
        s.client.received.length + taken ≤ s.client.sent.length := by
  have hs := run_divided hrun
  have hread := read_eq_of_full hs.ordered hshort hphase
  rw [hs.written] at hread
  have hsent : s.client.sent = s.client.received.map Prod.fst ++ s.down.map Prod.fst ++
      (pending s.session.phase).map Prod.fst ++ s.up := by
    have hbytes := congrArg (List.map Prod.fst) hread
    rw [List.zipIdx_map_fst, List.map_append, List.map_append] at hbytes
    rw [hs.sent, hbytes]
  refine ⟨hsent, ⟨?_, fun hless => ?_⟩, hs.asked⟩
  · rintro ⟨more, t, hmore, hsession, hdown⟩
    have ht : Divided t := Runs.exec_preserves (fun _ _ _ => step_divided) hs hmore
    have hbounded := ht.bounded
    have hpos := List.length_pos_iff.mpr hdown
    rw [← client_of_sessions hsession hmore, ht.sent, List.length_append]
    rw [ht.written, List.length_append] at hbounded
    omega
  · refine answer_of_left hphase ?_
    rw [hsent] at hless
    simp only [List.length_append, List.length_map] at hless
    omega

/-- The first of two bytes comes back; and a client with an empty line waits for
nothing. -/
theorem answer_on_its_way_inParts :
    (∃ s, Runs.exec step start (inParts.take 2) = some s ∧ s.client.phase = .reading 2 ∧
      ∃ more t, Runs.exec step s more = some t ∧ (∀ a ∈ more, OfSession a) ∧ t.down ≠ []) ∧
    ∃ s, Runs.exec step start [.client (.getline []), .client (.write Event.write (.ok 0))] =
        some s ∧ s.client.phase = .reading 0 ∧
      ¬∃ more t, Runs.exec step s more = some t ∧ (∀ a ∈ more, OfSession a) ∧ t.down ≠ [] := by
  have hrun : Runs.exec step start (inParts.take 2) =
      some ⟨⟨⟨.reading 2, [97, 98], []⟩, [97, 98], []⟩, EchoSessions.start⟩ := rfl
  have hempty : Runs.exec step start [.client (.getline []), .client (.write Event.write (.ok 0))] =
      some ⟨⟨⟨.reading 0, [], []⟩, [], []⟩, EchoSessions.start⟩ := rfl
  obtain ⟨-, hanswer, -⟩ := answer_on_its_way hrun rfl nofun
  obtain ⟨-, hnone, -⟩ := answer_on_its_way hempty rfl nofun
  exact ⟨⟨_, hrun, rfl, hanswer.mpr (by decide)⟩, _, hempty, rfl, hnone.not.mpr (by decide)⟩

end Bc.EchoConnections
