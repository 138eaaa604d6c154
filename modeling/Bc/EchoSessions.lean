import Bc.Awaiters
import Bc.Runs
import Mathlib.Data.List.Infix

/-!
The session that the server of `main` runs for a client: it reads into a buffer and
writes back what it has read. A write may take fewer bytes than it is asked to, and
the session reads again all the same. Bytes are kept with their positions, so that one
that was skipped is missed even where a later one is equal.
-/
namespace Bc.EchoSessions

open Polling Awaiters

/-- Where the session is: before an `async_read`, before the `async_write` of what it
has read, or behind its loop. -/
inductive Phase
  | reading
  | writing (buffer : List (Byte × ℕ))
  | finished

/-- `written` are the bytes that the writes have taken. In `short` a write has taken
fewer than it was asked to. -/
structure Session where
  phase : Phase
  read : List Byte
  written : List (Byte × ℕ)
  short : Bool

def start : Session := ⟨.reading, [], [], false⟩

/-- The outcomes of `::read` and of `::write` with the events that the awaiters are
resumed with. -/
inductive Act
  | read (revent : Event) (outcome : Except Errno (List Byte))
  | write (revent : Event) (outcome : Except Errno ℕ)

def bufferSize : ℕ := 1024

/-- The session behind its `async_read`. No system call transfers more than it is
asked to. -/
def Session.afterRead (s : Session) (result : Except ErrorCode (List Byte)) : Option Session :=
  match result with
  | .error _ => some { s with phase := .finished }
  | .ok bytes =>
    if bytes.length ≤ bufferSize then
      some { s with phase := .writing (bytes.zipIdx s.read.length), read := s.read ++ bytes }
    else none

/-- The session behind its `async_write`. -/
def Session.afterWrite (s : Session) (buffer : List (Byte × ℕ)) (result : Except ErrorCode ℕ) :
    Option Session :=
  match result with
  | .error _ => some { s with phase := .finished }
  | .ok n =>
    if n ≤ buffer.length then
      some { s with
        phase := .reading
        written := s.written ++ buffer.take n
        short := s.short || n < buffer.length }
    else none

def step (s : Session) (a : Act) : Option Session :=
  match s.phase, a with
  | .reading, .read revent outcome => (readResume revent outcome).bind s.afterRead
  | .writing buffer, .write revent outcome => s.afterWrite buffer (writeResume revent outcome)
  | _, _ => none

/-- What the writes have taken is where the client's bytes begin. -/
def Echoed (s : Session) : Prop := s.written <+: s.read.zipIdx

/-- The write is resumed without an error or a hang-up, and it takes some byte. -/
def Takes : Act → Prop
  | .read _ _ => False
  | .write revent outcome =>
    Event.meets revent Event.error = false ∧ hangsUp revent = false ∧
      match outcome with
      | .error _ => False
      | .ok n => 0 < n

/-- No byte is taken any more once a write has taken fewer bytes than it was asked
to. -/
def Complete (s : Session) (a : Act) : Prop := s.short = true → ¬Takes a

instance : DecidablePred Takes
  | .read _ _ => inferInstanceAs (Decidable False)
  | .write _ (.error _) => inferInstanceAs (Decidable (_ ∧ _ ∧ False))
  | .write _ (.ok _) => inferInstanceAs (Decidable (_ ∧ _ ∧ _ < _))

instance (s : Session) (a : Act) : Decidable (Complete s a) :=
  inferInstanceAs (Decidable (_ → _))

inductive Step (s : Session) : Act → Session → Prop
  | read (revent : Event) (outcome : Except Errno (List Byte)) (bytes : List Byte)
      (hphase : s.phase = .reading) :
      Step s (.read revent outcome)
        { s with phase := .writing (bytes.zipIdx s.read.length), read := s.read ++ bytes }
  | write (revent : Event) (outcome : Except Errno ℕ) (buffer : List (Byte × ℕ)) (n : ℕ)
      (hphase : s.phase = .writing buffer) (hn : n ≤ buffer.length)
      (htakes : Takes (.write revent outcome) ↔ 0 < n) :
      Step s (.write revent outcome)
        { s with
          phase := .reading
          written := s.written ++ buffer.take n
          short := s.short || n < buffer.length }
  | finish (a : Act) (htakes : ¬Takes a) : Step s a { s with phase := .finished }

section Sessions

variable {s s' : Session} {a : Act} {revent : Event}

theorem takes_iff {outcome : Except Errno ℕ} {n : ℕ} (h : writeResume revent outcome = .ok n) :
    Takes (.write revent outcome) ↔ 0 < n := by
  unfold writeResume transferResume at h
  unfold Takes
  split_ifs at h with herror hhangup
  cases outcome with
  | error errno =>
    simp only at h
    split_ifs at h
    obtain rfl := Except.ok.inj h
    simp
  | ok m =>
    obtain rfl := Except.ok.inj h
    simp [herror, hhangup]

theorem not_takes {outcome : Except Errno ℕ} {code : ErrorCode}
    (h : writeResume revent outcome = .error code) : ¬Takes (.write revent outcome) := by
  unfold writeResume transferResume at h
  rintro ⟨herror, hhangup, htakes⟩
  rw [herror, hhangup] at h
  cases outcome with
  | error errno => exact htakes
  | ok m => cases h

theorem afterRead_cases {outcome : Except Errno (List Byte)}
    {result : Except ErrorCode (List Byte)} (hphase : s.phase = .reading)
    (h : s.afterRead result = some s') : Step s (.read revent outcome) s' := by
  cases result with
  | error code =>
    obtain rfl := Option.some.inj h
    exact .finish _ id
  | ok bytes =>
    obtain ⟨-, h⟩ := Option.ite_none_right_eq_some.mp h
    obtain rfl := Option.some.inj h
    exact .read revent outcome bytes hphase

theorem afterWrite_cases {outcome : Except Errno ℕ} {buffer : List (Byte × ℕ)}
    (hphase : s.phase = .writing buffer)
    (h : s.afterWrite buffer (writeResume revent outcome) = some s') :
    Step s (.write revent outcome) s' := by
  cases hwrite : writeResume revent outcome with
  | error code =>
    rw [hwrite] at h
    obtain rfl := Option.some.inj h
    exact .finish _ (not_takes hwrite)
  | ok n =>
    rw [hwrite] at h
    obtain ⟨hn, h⟩ := Option.ite_none_right_eq_some.mp h
    obtain rfl := Option.some.inj h
    exact .write revent outcome buffer n hphase hn (takes_iff hwrite)

theorem step_cases (h : step s a = some s') : Step s a s' := by
  unfold step at h
  split at h
  · rename_i revent outcome hphase
    obtain ⟨result, -, h⟩ := Option.bind_eq_some_iff.mp h
    exact afterRead_cases hphase h
  · rename_i buffer revent outcome hphase
    exact afterWrite_cases hphase h
  · cases h

/-- All of `asked` is written, or a write was short and less than that is. -/
def Behind (s : Session) (asked : List (Byte × ℕ)) : Prop :=
  if s.short then s.written.length < asked.length else s.written = asked

/-- What the writes were asked to take is what was read, up to the buffer. -/
def Ordered (s : Session) : Prop :=
  match s.phase with
  | .reading => Behind s s.read.zipIdx
  | .writing buffer => ∃ asked, s.read.zipIdx = asked ++ buffer ∧ Behind s asked
  | .finished => True

theorem start_ordered : Ordered start := rfl

theorem start_echoed : Echoed start := List.nil_prefix

theorem behind_write {asked buffer : List (Byte × ℕ)} {n : ℕ} (hs : Behind s asked)
    (hn : n ≤ buffer.length) :
    Behind { s with
      phase := .reading
      written := s.written ++ buffer.take n
      short := s.short || n < buffer.length } (asked ++ buffer) := by
  unfold Behind at hs ⊢
  have htaken : (buffer.take n).length = n := List.length_take_of_le hn
  cases hshort : s.short with
  | true =>
    rw [hshort, if_pos rfl] at hs
    rw [Bool.true_or, if_pos rfl, List.length_append, List.length_append, htaken]
    omega
  | false =>
    rw [hshort, if_neg Bool.false_ne_true] at hs
    rw [hs, Bool.false_or, List.length_append, List.length_append, htaken]
    by_cases hless : n < buffer.length
    · rw [if_pos (decide_eq_true hless)]
      omega
    · rw [if_neg (by simpa using hless), List.take_of_length_le (not_lt.mp hless)]

theorem step_ordered (hs : Ordered s) (h : step s a = some s') : Ordered s' := by
  unfold Ordered at hs
  cases step_cases h with
  | read revent outcome bytes hphase =>
    rw [hphase] at hs
    refine ⟨s.read.zipIdx, ?_, hs⟩
    rw [List.zipIdx_append, Nat.zero_add]
  | write revent outcome buffer n hphase hn htakes =>
    rw [hphase] at hs
    obtain ⟨asked, hasked, hbehind⟩ := hs
    have hwritten := behind_write hbehind hn
    rw [← hasked] at hwritten
    exact hwritten
  | finish a htakes => trivial

theorem position_eq {read : List Byte} {i : ℕ} {p : Byte × ℕ} (h : read.zipIdx[i]? = some p) :
    p.2 = i := by
  rw [List.getElem?_zipIdx, Nat.zero_add] at h
  obtain ⟨byte, -, rfl⟩ := Option.map_eq_some_iff.mp h
  rfl

/-- Bytes that are taken behind a gap are not where the client's bytes go on. -/
theorem not_echoed_of_gap {written asked buffer : List (Byte × ℕ)} {read : List Byte} {n : ℕ}
    (hread : read.zipIdx = asked ++ buffer) (hgap : written.length < asked.length) (hn : 0 < n)
    (hbuffer : n ≤ buffer.length) : ¬written ++ buffer.take n <+: read.zipIdx := by
  rintro ⟨rest, hrest⟩
  obtain ⟨p, later, rfl⟩ := List.exists_cons_of_length_pos (hn.trans_le hbuffer)
  obtain ⟨m, rfl⟩ := Nat.exists_eq_succ_of_ne_zero hn.ne'
  have hwritten : read.zipIdx[written.length]? = some p := by
    rw [← hrest, List.append_assoc, List.getElem?_append_right le_rfl, Nat.sub_self]
    rfl
  have hasked : read.zipIdx[asked.length]? = some p := by
    rw [hread, List.getElem?_append_right le_rfl, Nat.sub_self]
    rfl
  exact hgap.ne ((position_eq hwritten).symm.trans (position_eq hasked))

theorem step_echoed_iff (hs : Ordered s) (hechoed : Echoed s) (h : step s a = some s') :
    Echoed s' ↔ Complete s a := by
  unfold Ordered at hs
  cases step_cases h with
  | read revent outcome bytes hphase =>
    refine iff_of_true ?_ fun _ => id
    unfold Echoed
    rw [List.zipIdx_append]
    exact hechoed.trans (List.prefix_append _ _)
  | write revent outcome buffer n hphase hn htakes =>
    rw [hphase] at hs
    obtain ⟨asked, hasked, hbehind⟩ := hs
    unfold Complete
    rw [htakes]
    unfold Behind at hbehind
    cases hshort : s.short with
    | true =>
      rw [hshort, if_pos rfl] at hbehind
      by_cases hpos : 0 < n
      · exact iff_of_false (not_echoed_of_gap hasked hbehind hpos hn) fun hn' => hn' rfl hpos
      · obtain rfl : n = 0 := by omega
        refine iff_of_true ?_ fun _ => hpos
        simpa [Echoed] using hechoed
    | false =>
      rw [hshort, if_neg Bool.false_ne_true] at hbehind
      refine iff_of_true ?_ nofun
      unfold Echoed
      rw [hbehind, hasked]
      exact (List.prefix_append_right_inj asked).mpr (List.take_prefix n buffer)
  | finish a htakes => exact iff_of_true hechoed fun _ => htakes

/-- Without the positions, the bytes taken are the first of those that were read. -/
theorem echoed_bytes (h : Echoed s) : s.written.map Prod.fst <+: s.read := by
  have hbytes := h.map Prod.fst
  rwa [List.zipIdx_map_fst] at hbytes

end Sessions

/-- The client gets its bytes back in order, none of them skipped, in exactly the
sessions that write nothing more once a write was short. -/
theorem echoed_iff {acts : List Act} {s : Session} (hrun : Runs.exec step start acts = some s) :
    Runs.Throughout step Echoed start acts ↔ Runs.Along step Complete start acts :=
  Runs.throughout_iff_along (fun _ _ _ hs h => step_ordered hs h)
    (fun _ _ _ hs hechoed h => step_echoed_iff hs hechoed h) start_ordered start_echoed hrun

def unhurried : List Act :=
  [.read Event.read (.ok [97, 98]), .write Event.write (.ok 2),
    .read Event.read (.error Errno.eagain), .write Event.write (.ok 0),
    .read Event.rdhangup (.ok [])]

theorem echoed_iff_unhurried : Runs.Throughout step Echoed start unhurried := by
  have hrun : (Runs.exec step start unhurried).isSome = true := by decide
  obtain ⟨s, hs⟩ := Option.isSome_iff_exists.mp hrun
  exact (echoed_iff hs).mpr (by decide)

/-- The first write takes one byte of two. -/
def shortWrite : List Act :=
  [.read Event.read (.ok [97, 98]), .write Event.write (.ok 1), .read Event.read (.ok [99]),
    .write Event.write (.ok 1)]

/-- The client that sends `ab` and `c` gets `ac`. -/
theorem short_write_skips :
    (¬∀ acts s, Runs.exec step start acts = some s → Echoed s) ∧
      ∃ s, Runs.exec step start shortWrite = some s ∧ s.read = [97, 98, 99] ∧
        s.written.map Prod.fst = [97, 99] := by
  refine ⟨fun h => ?_, _, rfl, rfl, rfl⟩
  exact absurd (echoed_bytes (h shortWrite _ rfl)) (by decide)

end Bc.EchoSessions
