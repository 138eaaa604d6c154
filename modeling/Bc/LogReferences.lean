import Bc.LogDelivery

/-!
The counter `ref_` of a logger. A log call counts its record, the drain passes
it and holds one reference more for each buffer that it fills, and in between
the record is in one of the places that are added up here.
-/
namespace Bc.LogReferences

open Runs OrderedMaps LogWorker LogDelivery

/-- The record of a log call that has counted it and has not queued it. -/
def unqueuedEntry : Append → Option Entry
  | .counted e => some e
  | .admitted e => some e
  | .pushed _ _ => none

/-- The record that the drain has in hand until it is passed. -/
def inHand : DrainPc → List Entry
  | .format e => [e]
  | .pass e => [e]
  | _ => []

/-- The records that the drain has not passed. -/
def batch (d : Drain) : List Entry := inHand d.pc ++ d.logs

/-- The records that are counted and not passed. -/
def pending (s : State) : List Entry :=
  s.appends.filterMap unqueuedEntry ++ s.logs ++ batch s.worker.current

/-- How many of the records are a logger's. -/
def countOf (l : ℕ) (entries : List Entry) : ℕ := entries.countP fun e => e.logger = l

/-- The loggers with a reference that `buffers` does not show: of a first
record that is not formatted yet, and of a buffer that is written. -/
def acquired : DrainPc → List ℕ
  | .format e => [e.logger]
  | .release l => [l]
  | _ => []

/-- The drain holds the reference for the buffer of a logger. -/
def Holds (d : Drain) (l : ℕ) : Prop := l ∈ d.buffers.keys ∨ l ∈ acquired d.pc

instance (d : Drain) (l : ℕ) : Decidable (Holds d l) := inferInstanceAs (Decidable (_ ∨ _))

def held (d : Drain) (l : ℕ) : ℕ := if Holds d l then 1 else 0

theorem held_congr {d d' : Drain} {l : ℕ} (h : Holds d' l ↔ Holds d l) : held d' l = held d l := by
  rw [held, held]
  split_ifs <;> tauto

theorem countOf_append (l : ℕ) (left right : List Entry) :
    countOf l (left ++ right) = countOf l left + countOf l right :=
  List.countP_append

theorem countOf_cons (l : ℕ) (e : Entry) (rest : List Entry) :
    countOf l (e :: rest) = countOf l rest + if e.logger = l then 1 else 0 := by
  rw [countOf, List.countP_cons, countOf]
  simp

/-- What the reference that `buffers` does not show is for. -/
structure Filled (d : Drain) : Prop where
  released : ∀ l, d.pc = .release l → l ∉ d.buffers.keys
  passed : ∀ e, d.pc = .pass e → e.logger ∈ d.buffers.keys
  filled : ∀ l ∈ d.buffers.keys, (d.buffers.valueAt l).records ≠ []

structure Referenced (s : State) : Prop where
  counted : ∀ l, (s.loggers l).ref = countOf l (pending s) + held s.worker.current l
  filled : Filled s.worker.current

/-- At the start of a batch there is no buffer and no record in hand. -/
theorem start_filled {d : Drain} (hpc : d.pc = .record) (hkeys : d.buffers.keys = []) :
    Filled d := by
  refine ⟨?_, ?_, ?_⟩
  · simp [hpc]
  · simp [hpc]
  · simp [hkeys]

theorem init_referenced : Referenced init := ⟨fun _ => rfl, start_filled rfl rfl⟩

section Step

variable {c : Config} {s s' t : State} {d d' : Drain}

theorem countOf_pending (l : ℕ) (s : State) : countOf l (pending s) =
    countOf l (s.appends.filterMap unqueuedEntry) + countOf l s.logs +
      countOf l (batch s.worker.current) := by
  rw [pending, countOf_append, countOf_append]

/-- The drain goes on; what its records and buffers count for changes with the
counters. -/
theorem Referenced.next (h : Referenced s) (d' : Drain) (hworker : s.worker.current = d)
    (happends : t.appends = s.appends) (hlogs : t.logs = s.logs) (hworker' : t.worker.current = d')
    (hcount : ∀ l, (t.loggers l).ref + countOf l (batch d) + held d l =
      (s.loggers l).ref + countOf l (batch d') + held d' l) (hfilled : Filled d') :
    Referenced t := by
  refine ⟨?_, hworker' ▸ hfilled⟩
  intro l
  have hcounted := h.counted l
  have hl := hcount l
  rw [countOf_pending, hworker] at hcounted
  rw [countOf_pending, happends, hlogs, hworker']
  push_cast at hcounted ⊢
  omega

theorem Filled.of_same (h : Filled d) (hbuffers : d'.buffers = d.buffers)
    (hrelease : ∀ l, d'.pc ≠ .release l) (hpass : ∀ e, d'.pc ≠ .pass e) : Filled d' := by
  refine ⟨?_, ?_, ?_⟩
  · intro l hpc
    exact absurd hpc (hrelease l)
  · intro e hpc
    exact absurd hpc (hpass e)
  · rw [hbuffers]
    exact h.filled

theorem holds_of_same {l : ℕ} (hbuffers : d'.buffers = d.buffers)
    (hacquired : acquired d'.pc = acquired d.pc) : Holds d' l ↔ Holds d l := by
  rw [Holds, Holds, hbuffers, hacquired]

/-- The drain goes on with no record passed and no reference taken. -/
theorem Referenced.idleStep (h : Referenced s) (d' : Drain) (hworker : s.worker.current = d)
    (happends : t.appends = s.appends) (hlogs : t.logs = s.logs) (hworker' : t.worker.current = d')
    (hloggers : t.loggers = s.loggers) (hbatch : batch d' = batch d)
    (hbuffers : d'.buffers = d.buffers) (hacquired : acquired d'.pc = acquired d.pc)
    (hrelease : ∀ l, d'.pc ≠ .release l) (hpass : ∀ e, d'.pc ≠ .pass e) : Referenced t := by
  refine h.next d' hworker happends hlogs hworker' ?_
    (Filled.of_same (hworker ▸ h.filled) hbuffers hrelease hpass)
  intro l
  rw [hloggers, hbatch, held_congr (holds_of_same hbuffers hacquired)]

/-- What the place after an `unreference_` leaves to be done. -/
theorem after_unreference {pc : DrainPc} {l : ℕ} {back : Loop}
    (hpc : pc = .notify l back ∨ pc = back.head) : inHand pc = [] ∧ acquired pc = [] ∧
      (∀ k, pc ≠ .release k) ∧ ∀ e, pc ≠ .pass e := by
  rcases hpc with rfl | rfl
  · exact ⟨rfl, rfl, by simp, by simp⟩
  · cases back <;> exact ⟨rfl, rfl, by simp [Loop.head], by simp [Loop.head]⟩

theorem Referenced.pass (h : Referenced s) (hworker : s.worker = .drain d) {e : Entry}
    (hpc : d.pc = .pass e) : Referenced (s.unreference d e.logger .records) := by
  have hcurrent : s.worker.current = d := by rw [hworker]; rfl
  have hfilled : Filled d := hcurrent ▸ h.filled
  obtain ⟨pc, hs', hpc'⟩ := s.unreference_cases d e.logger .records
  obtain ⟨hinHand, hacquired, hrelease, hpass⟩ := after_unreference hpc'
  rw [hs']
  refine h.next { d with pc := pc } hcurrent rfl rfl rfl ?_ (hfilled.of_same rfl hrelease hpass)
  intro l
  have hheld : held { d with pc := pc } l = held d l :=
    held_congr (holds_of_same rfl (by rw [hacquired, hpc]; rfl))
  rw [hheld, batch, batch, hinHand, hpc, inHand, List.singleton_append, List.nil_append,
    countOf_cons]
  simp only [State.drainAt, State.modifyLogger_loggers]
  by_cases hl : l = e.logger
  · rw [if_pos hl, if_pos hl.symm, Logger.unreference]
    push_cast
    omega
  · rw [if_neg hl, if_neg (Ne.symm hl), Nat.add_zero]

theorem Referenced.release (h : Referenced s) (hworker : s.worker = .drain d) {k : ℕ}
    (hpc : d.pc = .release k) : Referenced (s.unreference d k .buffers) := by
  have hcurrent : s.worker.current = d := by rw [hworker]; rfl
  have hfilled : Filled d := hcurrent ▸ h.filled
  obtain ⟨pc, hs', hpc'⟩ := s.unreference_cases d k .buffers
  obtain ⟨hinHand, hacquired, hrelease, hpass⟩ := after_unreference hpc'
  rw [hs']
  refine h.next { d with pc := pc } hcurrent rfl rfl rfl ?_ (hfilled.of_same rfl hrelease hpass)
  intro l
  have hbefore : Holds d l ↔ l ∈ d.buffers.keys ∨ l = k := by
    rw [Holds, hpc, acquired, List.mem_singleton]
  have hafter : Holds { d with pc := pc } l ↔ l ∈ d.buffers.keys := by
    rw [Holds, hacquired]
    exact or_iff_left List.not_mem_nil
  have hbatch : batch { d with pc := pc } = batch d := by
    rw [batch, batch, hinHand, hpc]
    rfl
  rw [hbatch]
  simp only [State.drainAt, State.modifyLogger_loggers, held, hbefore, hafter]
  by_cases hl : l = k
  · have hgone : l ∉ d.buffers.keys := hl ▸ hfilled.released k hpc
    simp only [hl, hl ▸ hgone, if_true, if_false, or_true, Logger.unreference]
    omega
  · simp only [hl, if_false, or_false]

/-- The first record of a logger in a batch takes the reference of its buffer. -/
theorem Referenced.newRecord (h : Referenced s) (hworker : s.worker = .drain d) {e : Entry}
    {rest : List Entry} (hpc : d.pc = .record) (hlogs : d.logs = e :: rest)
    (hnew : e.logger ∉ d.buffers.keys) :
    Referenced ((s.modifyLogger e.logger Logger.reference).drainAt
      { d with logs := rest, pc := .format e }) := by
  have hcurrent : s.worker.current = d := by rw [hworker]; rfl
  have hfilled : Filled d := hcurrent ▸ h.filled
  refine h.next { d with logs := rest, pc := .format e } hcurrent rfl rfl rfl ?_
    (hfilled.of_same rfl nofun nofun)
  intro l
  have hbefore : Holds d l ↔ l ∈ d.buffers.keys := by
    rw [Holds, hpc]
    exact or_iff_left List.not_mem_nil
  have hafter : Holds { d with logs := rest, pc := .format e } l ↔
      l ∈ d.buffers.keys ∨ l = e.logger := by
    rw [Holds, acquired, List.mem_singleton]
  have hbatch : batch { d with logs := rest, pc := .format e } = batch d := by
    rw [batch, batch, hpc, hlogs]
    rfl
  rw [hbatch]
  simp only [State.drainAt, State.modifyLogger_loggers, held, hbefore, hafter]
  by_cases hl : l = e.logger
  · simp only [hl, hnew, if_true, if_false, or_true, Logger.reference]
    omega
  · simp only [hl, if_false, or_false]

theorem Referenced.knownRecord (h : Referenced s) (hworker : s.worker = .drain d) {e : Entry}
    {rest : List Entry} (hpc : d.pc = .record) (hlogs : d.logs = e :: rest)
    (hknown : e.logger ∈ d.buffers.keys) :
    Referenced (s.drainAt { d with logs := rest, pc := .format e }) := by
  have hcurrent : s.worker.current = d := by rw [hworker]; rfl
  have hfilled : Filled d := hcurrent ▸ h.filled
  refine h.next { d with logs := rest, pc := .format e } hcurrent rfl rfl rfl ?_
    (hfilled.of_same rfl nofun nofun)
  intro l
  have hholds : Holds { d with logs := rest, pc := .format e } l ↔ Holds d l := by
    rw [Holds, Holds, hpc, acquired, List.mem_singleton]
    constructor
    · rintro (hmem | rfl)
      · exact .inl hmem
      · exact .inl hknown
    · rintro (hmem | hmem)
      · exact .inl hmem
      · cases hmem
  have hbatch : batch { d with logs := rest, pc := .format e } = batch d := by
    rw [batch, batch, hpc, hlogs]
    rfl
  rw [hbatch, held_congr hholds]
  rfl

theorem Referenced.format (h : Referenced s) (hworker : s.worker = .drain d) {e : Entry}
    (hpc : d.pc = .format e) {f : Chunk → Chunk} (hf : ∀ chunk, (f chunk).records ≠ []) :
    Referenced (s.drainAt { d with buffers := d.buffers.modify e.logger f, pc := .pass e }) := by
  have hcurrent : s.worker.current = d := by rw [hworker]; rfl
  have hfilled : Filled d := hcurrent ▸ h.filled
  refine h.next { d with buffers := d.buffers.modify e.logger f, pc := .pass e } hcurrent
    rfl rfl rfl ?_ ⟨nofun, ?_, ?_⟩
  · intro l
    have hbatch : batch { d with buffers := d.buffers.modify e.logger f, pc := .pass e } =
        batch d := by
      rw [batch, batch, hpc]
      rfl
    have hholds : Holds { d with buffers := d.buffers.modify e.logger f, pc := .pass e } l ↔
        Holds d l := by
      rw [Holds, Holds, hpc, OrderedMap.mem_keys_modify, acquired, List.mem_singleton]
      exact (or_iff_left List.not_mem_nil).trans or_comm
    rw [hbatch, held_congr hholds]
    rfl
  · intro e' he'
    obtain rfl : e = e' := DrainPc.pass.inj he'
    exact (OrderedMap.mem_keys_modify _ _ _ _).mpr (.inl rfl)
  · intro l hl
    simp only [OrderedMap.valueAt_modify]
    split
    · exact hf _
    · rename_i hne
      rcases (OrderedMap.mem_keys_modify _ _ _ _).mp hl with heq | hmem
      · exact absurd heq hne
      · exact hfilled.filled l hmem

theorem Referenced.write (h : Referenced s) (hworker : s.worker = .drain d) {k : ℕ}
    {chunk : Chunk} (hpc : d.pc = .write) (hfirst : d.buffers.First k chunk) :
    Referenced ((s.modifyLogger k (Logger.write chunk)).drainAt
      { d with buffers := d.buffers.tail, pc := .release k }) := by
  have hcurrent : s.worker.current = d := by rw [hworker]; rfl
  have hfilled : Filled d := hcurrent ▸ h.filled
  refine h.next { d with buffers := d.buffers.tail, pc := .release k } hcurrent rfl rfl rfl ?_
    ⟨?_, nofun, ?_⟩
  · intro l
    have hbatch : batch { d with buffers := d.buffers.tail, pc := .release k } = batch d := by
      rw [batch, batch, hpc]
      rfl
    have hholds : Holds { d with buffers := d.buffers.tail, pc := .release k } l ↔ Holds d l := by
      rw [Holds, Holds, hpc, hfirst.mem_keys, acquired, List.mem_singleton]
      exact or_comm.trans (or_iff_left List.not_mem_nil).symm
    rw [hbatch, held_congr hholds]
    simp only [State.drainAt]
    rw [s.modifyLogger_keep (f := Logger.write chunk) Logger.ref k fun _ => rfl]
  · intro l hl
    obtain rfl : k = l := DrainPc.release.inj hl
    exact hfirst.not_mem_tail
  · intro l hl
    have hmem := (hfirst.mem_keys l).mpr (.inr hl)
    have hne : l ≠ k := by
      rintro rfl
      exact hfirst.not_mem_tail hl
    simp only [hfirst.valueAt_tail, if_neg hne]
    exact hfilled.filled l hmem

theorem drain_referenced (h : Referenced s) (hordered : Ordered s.worker.current)
    (hworker : s.worker = .drain d) (hstep : DrainStep c s d s') : Referenced s' := by
  have hcurrent : s.worker.current = d := by rw [hworker]; rfl
  rw [hcurrent] at hordered
  cases hstep with
  | recordsEnd hpc hlogs =>
    exact h.idleStep { d with pc := .write } hcurrent rfl rfl rfl rfl
      (by rw [batch, batch, hpc]; rfl) rfl (by rw [hpc]; rfl) (by simp) (by simp)
  | knownRecord e rest hpc hlogs hknown => exact h.knownRecord hworker hpc hlogs hknown
  | newRecord e rest hpc hlogs hnew => exact h.newRecord hworker hpc hlogs hnew
  | format e hpc =>
    exact h.format hworker hpc fun chunk =>
      List.append_ne_nil_of_right_ne_nil _ (List.cons_ne_nil _ _)
  | pass e hpc => exact h.pass hworker hpc
  | writesEnd hpc hbuffers =>
    exact h.idleStep { d with pc := .flag } hcurrent rfl rfl rfl rfl
      (by rw [batch, batch, hpc]; rfl) rfl (by rw [hpc]; rfl) (by simp) (by simp)
  | write l chunk hpc hfirst => exact h.write hworker hpc hfirst
  | release l hpc => exact h.release hworker hpc
  | notify l back hpc =>
    obtain ⟨hinHand, hacquired, hrelease, hpass⟩ := after_unreference (l := l) (.inr rfl)
    exact h.idleStep { d with pc := back.head } hcurrent rfl rfl rfl rfl
      (by rw [batch, batch, hinHand, hpc]; rfl) rfl (by rw [hacquired, hpc]; rfl) hrelease hpass
  | flagsEnd hpc hwaiters =>
    have hlogs : d.logs = [] := hordered.logs_done (by rw [hpc]; simp [loopOf])
    have hbuffers : d.buffers.keys = [] := by
      rw [OrderedMap.keys, hordered.buffers_done (by rw [hpc]; rfl), List.map_nil]
    refine h.next Drain.idle hcurrent rfl rfl ?_ ?_ (start_filled rfl rfl)
    · cases d.last <;> rfl
    · intro l
      have hbatch : batch d = [] := by
        rw [batch, hpc, hlogs]
        rfl
      have hnone : ¬Holds d l := by
        rw [Holds, hbuffers, hpc]
        rintro (hmem | hmem) <;> cases hmem
      rw [hbatch, held, if_neg hnone]
      rfl
  | flag id rest hpc hwaiters =>
    exact h.idleStep { d with waiters := rest, pc := .signal id } hcurrent rfl rfl rfl rfl
      (by rw [batch, batch, hpc]; rfl) rfl (by rw [hpc]; rfl) (by simp) (by simp)
  | signal id hpc =>
    exact h.idleStep { d with pc := .flag } hcurrent rfl rfl rfl rfl
      (by rw [batch, batch, hpc]; rfl) rfl (by rw [hpc]; rfl) (by simp) (by simp)

/-- A log call goes on, and the worker has the same in hand. -/
theorem Referenced.call (h : Referenced s) (hworker : t.worker.current = s.worker.current)
    (hcount : ∀ l, (t.loggers l).ref + countOf l (s.appends.filterMap unqueuedEntry) +
        countOf l s.logs =
      (s.loggers l).ref + countOf l (t.appends.filterMap unqueuedEntry) + countOf l t.logs) :
    Referenced t := by
  refine ⟨?_, hworker ▸ h.filled⟩
  intro l
  have hcounted := h.counted l
  have hl := hcount l
  rw [countOf_pending] at hcounted ⊢
  rw [hworker]
  push_cast at hcounted ⊢
  omega

theorem countOf_unqueued {calls : List Append} {i : ℕ} {call : Append}
    (hget : calls[i]? = some call) (l : ℕ) : countOf l (calls.filterMap unqueuedEntry) =
      countOf l ((call :: calls.eraseIdx i).filterMap unqueuedEntry) :=
  ((perm_cons_eraseIdx hget).filterMap unqueuedEntry).countP_eq _

theorem step_referenced {a : Act} (hdelivering : Delivering c s) (h : Referenced s)
    (ha : step c s a = some s') : Referenced s' := by
  cases step_records ha with
  | same _ hsame =>
    refine h.call hsame.current ?_
    intro l
    rw [hsame.loggers, hsame.appends, hsame.logs]
  | log k r =>
    refine h.call rfl ?_
    intro l
    have hcalls : countOf l ((.counted ⟨k, r⟩ :: s.appends).filterMap unqueuedEntry) =
        countOf l (s.appends.filterMap unqueuedEntry) + if k = l then 1 else 0 :=
      countOf_cons l ⟨k, r⟩ _
    rw [hcalls]
    simp only [State.modifyLogger_loggers]
    by_cases hl : l = k
    · simp only [hl, if_true, Logger.reference, State.modifyLogger]
      omega
    · simp only [hl, Ne.symm hl, if_false, State.modifyLogger, Nat.add_zero]
  | setLevel k level =>
    refine h.call rfl ?_
    intro l
    rw [s.modifyLogger_keep (f := fun x => { x with level := level }) Logger.ref k fun _ => rfl]
    rfl
  | checkStop i e hget =>
    refine h.call rfl ?_
    intro l
    rw [countOf_unqueued hget l]
    rfl
  | push i e needFlush hget hguarded =>
    refine h.call rfl ?_
    intro l
    have hcalls : countOf l ((.admitted e :: s.appends.eraseIdx i).filterMap unqueuedEntry) =
        countOf l ((s.appends.eraseIdx i).filterMap unqueuedEntry) +
          if e.logger = l then 1 else 0 := countOf_cons l e _
    have hpushed : (.pushed e needFlush :: s.appends.eraseIdx i).filterMap unqueuedEntry =
        (s.appends.eraseIdx i).filterMap unqueuedEntry := rfl
    have hlogs : countOf l [e] = if e.logger = l then 1 else 0 := by
      rw [countOf_cons]
      exact Nat.zero_add _
    rw [countOf_unqueued hget l, hcalls, hpushed, countOf_append, hlogs,
      s.modifyLogger_keep (f := Logger.enter e.record) Logger.ref e.logger fun _ => rfl]
    push_cast
    omega
  | leave i e needFlush u hsame hget =>
    refine h.call hsame.current ?_
    intro l
    have hpushed : (.pushed e needFlush :: u.appends.eraseIdx i).filterMap unqueuedEntry =
        (u.appends.eraseIdx i).filterMap unqueuedEntry := rfl
    rw [← hsame.appends, countOf_unqueued hget l, hpushed, ← hsame.loggers, ← hsame.logs,
      u.modifyLogger_keep (f := Logger.leave e.record) Logger.ref e.logger fun _ => rfl]
    rfl
  | take last hidle =>
    refine ⟨?_, start_filled rfl rfl⟩
    intro l
    have hcounted := h.counted l
    rw [countOf_pending, hidle] at hcounted
    rw [countOf_pending]
    have hheld : held Drain.idle l = 0 := rfl
    have hbatch : countOf l (batch Drain.idle) = 0 := rfl
    rw [hheld, hbatch] at hcounted
    exact hcounted
  | drain d _ hpc hstep => exact drain_referenced h hdelivering.carried.ordered hpc hstep

theorem run_referenced {acts : List Act} (h : exec (step c) init acts = some s) :
    Referenced s := by
  have hrun : Delivering c s ∧ Referenced s :=
    exec_preserves (I := fun s => Delivering c s ∧ Referenced s)
      (fun _ _ _ hs ha => ⟨step_delivering hs.1 ha, step_referenced hs.1 hs.2 ha⟩)
      ⟨init_delivering c, init_referenced⟩ h
  exact hrun.2

theorem countOf_eq_zero {l : ℕ} {entries : List Entry} (h : ∀ e ∈ entries, e.logger ≠ l) :
    countOf l entries = 0 := by
  rw [countOf, List.countP_eq_zero]
  simpa using h

theorem countOf_eq_length (l : ℕ) (entries : List Entry) :
    countOf l entries = (recordsOf l entries).length := by
  rw [countOf, recordsOf, List.length_map, List.countP_eq_length_filter]

/-- The records that the worker is still to format. -/
def unformatted (s : State) : List Entry :=
  s.appends.filterMap unqueuedEntry ++ s.logs ++
    (formatting s.worker.current.pc ++ s.worker.current.logs)

theorem inHand_of_formatting {pc : DrainPc} {e : Entry} (h : e ∈ formatting pc) :
    e ∈ inHand pc := by
  cases pc with
  | format e => exact h
  | _ => cases h

theorem unformatted_subset (s : State) : unformatted s ⊆ pending s := by
  intro e he
  simp only [unformatted, pending, batch, List.mem_append] at he ⊢
  exact he.imp_right fun h => h.imp_left inHand_of_formatting

theorem Referenced.pos_of_pending (h : Referenced s) {e : Entry} (he : e ∈ pending s) :
    0 < (s.loggers e.logger).ref := by
  have hcounted := h.counted e.logger
  have hpos : 0 < countOf e.logger (pending s) :=
    List.countP_pos_iff.mpr ⟨e, he, decide_eq_true rfl⟩
  omega

theorem Referenced.pos_of_holds (h : Referenced s) {l : ℕ} (hl : Holds s.worker.current l) :
    0 < (s.loggers l).ref := by
  have hcounted := h.counted l
  have hone : held s.worker.current l = 1 := if_pos hl
  omega

/-- A record in hand that is formatted has a buffer. -/
theorem Filled.batch_ne (h : Filled d) {l : ℕ} (hkey : l ∉ d.buffers.keys)
    (hformat : ∀ e ∈ formatting d.pc ++ d.logs, e.logger ≠ l) : ∀ e ∈ batch d, e.logger ≠ l := by
  intro e he
  rcases List.mem_append.mp he with hhand | hrest
  · cases hpc : d.pc with
    | format e' =>
      rw [hpc] at hhand hformat
      exact hformat e (List.mem_append_left _ hhand)
    | pass e' =>
      rw [hpc] at hhand
      obtain rfl := List.mem_singleton.mp hhand
      rintro rfl
      exact hkey (h.passed e hpc)
    | _ =>
      rw [hpc] at hhand
      cases hhand
  · exact hformat e (List.mem_append_right _ hrest)

theorem not_holds {l : ℕ} (hkey : l ∉ d.buffers.keys)
    (hformat : ∀ e ∈ formatting d.pc ++ d.logs, e.logger ≠ l) (hrelease : d.pc ≠ .release l) :
    ¬Holds d l := by
  rintro (hmem | hmem)
  · exact hkey hmem
  · cases hpc : d.pc with
    | format e =>
      rw [hpc] at hmem hformat
      exact hformat e List.mem_cons_self (List.mem_singleton.mp hmem).symm
    | release k =>
      rw [hpc] at hmem hrelease
      exact hrelease (congrArg DrainPc.release (List.mem_singleton.mp hmem).symm)
    | _ =>
      rw [hpc] at hmem
      cases hmem

/-- When the worker has written all records of a logger it has none of them in
hand, and only the reference of the buffer just written may be left. -/
theorem nothing_left (hdelivering : Delivering c s) (h : Referenced s) {l : ℕ}
    (hcalls : ∀ e ∈ s.appends.filterMap unqueuedEntry, e.logger ≠ l)
    (hall : (s.loggers l).written = (s.loggers l).entered)
    (hrelease : s.worker.current.pc ≠ .release l) :
    countOf l (pending s) = 0 ∧ ¬Holds s.worker.current l := by
  have hconserved := hdelivering.carried.conserved l
  rw [← hall, List.append_assoc] at hconserved
  obtain ⟨hdrain, hlogs⟩ := List.append_eq_nil_iff.mp (List.append_right_eq_self.mp hconserved)
  obtain ⟨hbuffer, hunformatted⟩ := List.append_eq_nil_iff.mp hdrain
  have hkey : l ∉ s.worker.current.buffers.keys := fun hmem => h.filled.filled l hmem hbuffer
  have hformat : ∀ e ∈ formatting s.worker.current.pc ++ s.worker.current.logs, e.logger ≠ l := by
    rw [recordsOf, List.map_eq_nil_iff, List.filter_eq_nil_iff] at hunformatted
    simpa using hunformatted
  refine ⟨?_, not_holds hkey hformat hrelease⟩
  rw [countOf_pending, countOf_eq_length l s.logs, hlogs, countOf_eq_zero hcalls,
    countOf_eq_zero (h.filled.batch_ne hkey hformat)]
  rfl

end Step

/-- A counter is always the number of records counted and not passed, with one
more for a buffer that the drain holds. -/
theorem references_counted {c : Config} {acts : List Act} {s : State}
    (h : exec (step c) init acts = some s) (l : ℕ) :
    (s.loggers l).ref = countOf l (pending s) + held s.worker.current l ∧
      0 ≤ (s.loggers l).ref ∧
      ((∃ e ∈ unformatted s, e.logger = l) ∨ l ∈ s.worker.current.buffers.keys →
        0 < (s.loggers l).ref) ∧
      ((∀ e ∈ s.appends.filterMap unqueuedEntry, e.logger ≠ l) →
        (s.loggers l).written = (s.loggers l).entered → s.worker.current.pc ≠ .release l →
          (s.loggers l).ref = 0) := by
  have hs := run_referenced h
  have hcounted := hs.counted l
  refine ⟨hcounted, by omega, ?_, ?_⟩
  · rintro (⟨e, he, rfl⟩ | hkey)
    · exact hs.pos_of_pending (unformatted_subset s he)
    · exact hs.pos_of_holds (.inl hkey)
  · intro hcalls hall hrelease
    obtain ⟨hnone, hfree⟩ := nothing_left (run_delivering h) hs hcalls hall hrelease
    have hzero : held s.worker.current l = 0 := if_neg hfree
    omega

/-- Two records of one logger are in a batch, and the first is passed. -/
def sampleRun : List Act :=
  List.flatten [sampleCall 0 1, sampleCall 0 2, List.replicate 7 .work]

theorem references_counted_sample : ∃ s, exec (step sampleConfig) init sampleRun = some s ∧
    (s.loggers 0).ref = 2 ∧ countOf 0 (pending s) = 1 ∧ 0 < (s.loggers 0).ref := by
  have hrun : ((exec (step sampleConfig) init sampleRun).map fun s =>
      ((s.loggers 0).ref, countOf 0 (pending s), decide (0 ∈ s.worker.current.buffers.keys))) =
      some (2, 1, true) := by
    decide +kernel
  obtain ⟨s, hs, hvalues⟩ := Option.map_eq_some_iff.mp hrun
  simp only [Prod.mk.injEq, decide_eq_true_eq] at hvalues
  obtain ⟨href, hcount, hkey⟩ := hvalues
  exact ⟨s, hs, href, hcount, (references_counted hs 0).2.2.1 (.inr hkey)⟩

end Bc.LogReferences
