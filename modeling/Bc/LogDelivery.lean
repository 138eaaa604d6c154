import Bc.LogWorker
import Mathlib.Data.List.Infix

/-!
What becomes of a queued record. It is in the shared vector, in the batch, in
the buffer of its logger or written, and for each logger these four in turn
hold its records in the order in which they were queued.
-/
namespace Bc.LogDelivery

open Runs OrderedMaps LogWorker

/-- The loop that the drain is in, with the one a notification goes back to. -/
def loopOf : DrainPc → Loop
  | .record => .records
  | .format _ => .records
  | .pass _ => .records
  | .write => .buffers
  | .release _ => .buffers
  | .notify _ back => back
  | .flag => .waiters
  | .signal _ => .waiters

/-- The record in hand that no buffer has yet. -/
def formatting : DrainPc → List Entry
  | .format e => [e]
  | _ => []

/-- The records of a logger that a drain still has to write. -/
def inDrain (d : Drain) (l : ℕ) : List Record :=
  (d.buffers.valueAt l).records ++ recordsOf l (formatting d.pc ++ d.logs)

theorem recordsOf_append (l : ℕ) (left right : List Entry) :
    recordsOf l (left ++ right) = recordsOf l left ++ recordsOf l right := by
  simp [recordsOf]

theorem recordsOf_cons (l : ℕ) (e : Entry) (rest : List Entry) :
    recordsOf l (e :: rest) = (if e.logger = l then [e.record] else []) ++ recordsOf l rest := by
  by_cases he : e.logger = l <;> simp [recordsOf, he]

theorem recordsOf_single (l : ℕ) (e : Entry) :
    recordsOf l [e] = if e.logger = l then [e.record] else [] := by
  by_cases he : e.logger = l <;> simp [recordsOf, he]

theorem loop_head (back : Loop) : loopOf back.head = back ∧ formatting back.head = [] := by
  cases back <;> exact ⟨rfl, rfl⟩

/-- The order of things in a drain: the second loop starts when the batch is
buffered, the third when the buffers are written. -/
structure Ordered (d : Drain) : Prop where
  logs_done : loopOf d.pc ≠ .records → d.logs = []
  buffers_done : loopOf d.pc = .waiters → d.buffers.entries = []

/-- Where the records are while the worker has `d` in hand. -/
structure Carried (c : Config) (s : State) (d : Drain) : Prop where
  conserved : ∀ l, (s.loggers l).written ++ inDrain d l ++ recordsOf l s.logs =
    (s.loggers l).entered
  output : ∀ l, (s.loggers l).output = (s.loggers l).written.flatMap (c.line l)
  buffered : ∀ l, (d.buffers.valueAt l).text = (d.buffers.valueAt l).records.flatMap (c.line l)
  ordered : Ordered d

structure Delivering (c : Config) (s : State) : Prop where
  carried : Carried c s s.worker.current
  emptied : s.worker.unguarded = true → s.logs = []

theorem idle_ordered : Ordered Drain.idle := ⟨fun _ => rfl, fun _ => rfl⟩

theorem init_delivering (c : Config) : Delivering c init :=
  ⟨⟨fun _ => rfl, fun _ => rfl, fun _ => rfl, idle_ordered⟩, fun _ => rfl⟩

section Step

variable {c : Config} {s s' t : State} {d d' : Drain}

structure SameHistory (s t : State) : Prop where
  logs : t.logs = s.logs
  written : ∀ l, (t.loggers l).written = (s.loggers l).written
  output : ∀ l, (t.loggers l).output = (s.loggers l).output
  entered : ∀ l, (t.loggers l).entered = (s.loggers l).entered

theorem SameHistory.refl (s : State) : SameHistory s s :=
  ⟨rfl, fun _ => rfl, fun _ => rfl, fun _ => rfl⟩

theorem SameRecords.sameHistory (h : SameRecords s t) : SameHistory s t := by
  refine ⟨h.logs, ?_, ?_, ?_⟩ <;> intro l <;> rw [h.loggers]

theorem modifyLogger_history (s : State) (l : ℕ) {f : Logger → Logger}
    (hloggers : t.loggers = (s.modifyLogger l f).loggers) (hlogs : t.logs = s.logs)
    (hwritten : ∀ x, (f x).written = x.written) (houtput : ∀ x, (f x).output = x.output)
    (hentered : ∀ x, (f x).entered = x.entered) : SameHistory s t := by
  refine ⟨hlogs, ?_, ?_, ?_⟩ <;> rw [hloggers]
  · exact s.modifyLogger_keep Logger.written l hwritten
  · exact s.modifyLogger_keep Logger.output l houtput
  · exact s.modifyLogger_keep Logger.entered l hentered

theorem reference_history (s : State) (l : ℕ)
    (hloggers : t.loggers = (s.modifyLogger l Logger.reference).loggers)
    (hlogs : t.logs = s.logs) : SameHistory s t :=
  modifyLogger_history s l hloggers hlogs (fun _ => rfl) (fun _ => rfl) fun _ => rfl

theorem unreference_history (s : State) (l : ℕ)
    (hloggers : t.loggers = (s.modifyLogger l Logger.unreference).loggers)
    (hlogs : t.logs = s.logs) : SameHistory s t :=
  modifyLogger_history s l hloggers hlogs (fun _ => rfl) (fun _ => rfl) fun _ => rfl

theorem setLevel_history (s : State) (l : ℕ) (level : Level) :
    SameHistory s (s.modifyLogger l fun x => { x with level := level }) :=
  modifyLogger_history s l (f := fun x => { x with level := level }) rfl rfl (fun _ => rfl)
    (fun _ => rfl) fun _ => rfl

theorem leave_history (s : State) (e : Entry)
    (hloggers : t.loggers = (s.modifyLogger e.logger (Logger.leave e.record)).loggers)
    (hlogs : t.logs = s.logs) : SameHistory s t :=
  modifyLogger_history s e.logger hloggers hlogs (fun _ => rfl) (fun _ => rfl) fun _ => rfl

theorem Carried.inHand (h : Carried c s d) (hloggers : t.loggers = s.loggers)
    (hlogs : t.logs = s.logs) (hworker : t.worker.current = d) :
    Carried c t t.worker.current := by
  obtain ⟨hconserved, houtput, hbuffered, hordered⟩ := h
  subst hworker
  rw [← hloggers] at hconserved houtput
  rw [← hlogs] at hconserved
  exact ⟨hconserved, houtput, hbuffered, hordered⟩

/-- The drain goes on and moves no record. -/
theorem Carried.same (h : Carried c s d) (ht : SameHistory s t)
    (hbuffers : d'.buffers = d.buffers)
    (hlogs : formatting d'.pc ++ d'.logs = formatting d.pc ++ d.logs) (hordered : Ordered d') :
    Carried c t d' := by
  refine ⟨?_, ?_, ?_, hordered⟩
  · intro l
    rw [ht.written, ht.entered, ht.logs, ← h.conserved l, inDrain, inDrain, hbuffers, hlogs]
  · intro l
    rw [ht.output, ht.written, h.output l]
  · intro l
    rw [hbuffers, h.buffered l]

/-- The order of things is kept inside a loop. -/
theorem Ordered.inLoop (h : Ordered d) (hlogs : d'.logs = d.logs)
    (hbuffers : d'.buffers = d.buffers) (hloop : loopOf d'.pc = loopOf d.pc) : Ordered d' := by
  refine ⟨?_, ?_⟩
  · rw [hloop, hlogs]
    exact h.logs_done
  · rw [hloop, hbuffers]
    exact h.buffers_done

/-- The drain goes on in the same loop. -/
theorem Carried.inLoop (h : Carried c s d) (ht : SameHistory s t)
    (hbuffers : d'.buffers = d.buffers) (hlogs : d'.logs = d.logs)
    (hformatting : formatting d'.pc = formatting d.pc) (hloop : loopOf d'.pc = loopOf d.pc) :
    Carried c t d' :=
  h.same ht hbuffers (by rw [hlogs, hformatting]) (h.ordered.inLoop hlogs hbuffers hloop)

/-- After an `unreference_` the drain is in the same loop, with no record in
hand. -/
theorem Carried.unreference (h : Carried c s d) (l : ℕ) {back : Loop}
    (hformatting : formatting d.pc = []) (hloop : loopOf d.pc = back) :
    Carried c (s.unreference d l back) (s.unreference d l back).worker.current := by
  obtain ⟨pc, hs', hpc⟩ := s.unreference_cases d l back
  have hloop' : loopOf pc = back ∧ formatting pc = [] := by
    rcases hpc with rfl | rfl
    · exact ⟨rfl, rfl⟩
    · exact loop_head back
  rw [hs']
  have hnext : Carried c (s.modifyLogger l Logger.unreference) { d with pc := pc } :=
    h.inLoop (unreference_history s l rfl rfl) rfl rfl (hloop'.2.trans hformatting.symm)
      (hloop'.1.trans hloop.symm)
  exact hnext.inHand rfl rfl rfl

theorem Carried.push (h : Carried c s d) (e : Entry) :
    Carried c { s.modifyLogger e.logger (Logger.enter e.record) with logs := s.logs ++ [e] } d := by
  refine ⟨?_, ?_, h.buffered, h.ordered⟩
  · intro l
    simp only [recordsOf_append, State.modifyLogger_loggers]
    by_cases hl : l = e.logger
    · subst hl
      simp only [if_true, Logger.enter, ← h.conserved e.logger, recordsOf_single,
        List.append_assoc]
    · simp only [if_neg hl, ← h.conserved l, recordsOf_single, if_neg (Ne.symm hl),
        List.append_nil]
  · intro l
    simp only [State.modifyLogger_loggers]
    split
    · exact h.output l
    · exact h.output l

theorem Carried.take (h : Carried c s Drain.idle) (last : Bool) (waiters : List ℕ) :
    Carried c { s with logs := [] } ⟨last, s.logs, waiters, OrderedMap.empty, .record⟩ := by
  refine ⟨?_, h.output, fun _ => rfl, ⟨fun hloop => (hloop rfl).elim, nofun⟩⟩
  intro l
  rw [← h.conserved l]
  simp [inDrain, Drain.idle, recordsOf, formatting]

theorem Carried.format (h : Carried c s d) {e : Entry} (hpc : d.pc = .format e) :
    Carried c s { d with
      buffers := d.buffers.modify e.logger fun chunk =>
        ⟨chunk.text ++ c.line e.logger e.record, chunk.records ++ [e.record]⟩
      pc := .pass e } := by
  refine ⟨?_, h.output, ?_, ⟨fun hloop => (hloop rfl).elim, nofun⟩⟩
  · intro l
    rw [← h.conserved l, inDrain, inDrain, hpc, formatting, List.singleton_append, recordsOf_cons]
    simp only [formatting, List.nil_append, OrderedMap.valueAt_modify]
    by_cases hl : e.logger = l
    · subst hl
      simp
    · simp [hl, Ne.symm hl]
  · intro l
    simp only [OrderedMap.valueAt_modify]
    split
    · rename_i hl
      subst hl
      rw [List.flatMap_append, ← h.buffered e.logger, List.flatMap_singleton]
    · exact h.buffered l

theorem Carried.write (h : Carried c s d) {l : ℕ} {chunk : Chunk} (hpc : d.pc = .write)
    (hfirst : d.buffers.First l chunk) :
    Carried c (s.modifyLogger l (Logger.write chunk))
      { d with buffers := d.buffers.tail, pc := .release l } := by
  have hlogs : d.logs = [] := h.ordered.logs_done (by rw [hpc]; simp [loopOf])
  have hchunk := h.buffered l
  rw [hfirst.valueAt_key] at hchunk
  refine ⟨?_, ?_, ?_, ⟨fun _ => hlogs, nofun⟩⟩
  · intro k
    rw [s.modifyLogger_keep (f := Logger.write chunk) Logger.entered l fun _ => rfl,
      ← h.conserved k]
    simp only [State.modifyLogger_loggers, inDrain, hfirst.valueAt_tail, hpc, formatting, hlogs]
    by_cases hk : k = l
    · subst hk
      simp [hfirst.valueAt_key, Logger.write, default, State.modifyLogger]
    · simp [hk, State.modifyLogger]
  · intro k
    rw [State.modifyLogger_loggers]
    split
    · rename_i hk
      subst hk
      simp only [Logger.write, List.flatMap_append, h.output k, hchunk]
    · exact h.output k
  · intro k
    simp only [hfirst.valueAt_tail]
    split
    · rfl
    · exact h.buffered k

/-- A drain that is past its first two loops has nothing left to write. -/
theorem Ordered.inDrain_eq_nil (h : Ordered d) (hpc : loopOf d.pc = .waiters) (l : ℕ) :
    inDrain d l = [] := by
  have hlogs : d.logs = [] := h.logs_done (by rw [hpc]; simp)
  have hformatting : formatting d.pc = [] := by
    cases hd : d.pc with
    | format e =>
      rw [hd] at hpc
      cases hpc
    | _ => rfl
  rw [inDrain, OrderedMap.valueAt_of_nil (h.buffers_done hpc), hlogs, hformatting]
  rfl

theorem Carried.ended (h : Carried c s d) (hpc : loopOf d.pc = .waiters) :
    Carried c s Drain.idle := by
  refine ⟨?_, h.output, fun _ => rfl, idle_ordered⟩
  intro l
  rw [← h.conserved l, h.ordered.inDrain_eq_nil hpc l]
  rfl

/-- A step of a drain in hand; at its end there is none. -/
theorem drain_carried (h : Carried c s d) (hstep : DrainStep c s d s') :
    Carried c s' s'.worker.current := by
  cases hstep with
  | recordsEnd hpc hlogs =>
    have hnext : Carried c s { d with pc := .write } :=
      h.same (SameHistory.refl s) rfl (by rw [hpc]; rfl) ⟨fun _ => hlogs, nofun⟩
    exact hnext.inHand rfl rfl rfl
  | knownRecord e rest hpc hlogs hknown =>
    have hnext : Carried c s { d with logs := rest, pc := .format e } :=
      h.same (SameHistory.refl s) rfl (by rw [hpc, hlogs]; rfl)
        ⟨fun hloop => (hloop rfl).elim, nofun⟩
    exact hnext.inHand rfl rfl rfl
  | newRecord e rest hpc hlogs hnew =>
    have hnext : Carried c (s.modifyLogger e.logger Logger.reference)
        { d with logs := rest, pc := .format e } :=
      h.same (reference_history s e.logger rfl rfl) rfl (by rw [hpc, hlogs]; rfl)
        ⟨fun hloop => (hloop rfl).elim, nofun⟩
    exact hnext.inHand rfl rfl rfl
  | format e hpc => exact (h.format hpc).inHand rfl rfl rfl
  | pass e hpc =>
    exact h.unreference e.logger (by rw [hpc]; rfl) (by rw [hpc]; rfl)
  | writesEnd hpc hbuffers =>
    have hdone : d.logs = [] := h.ordered.logs_done (by rw [hpc]; simp [loopOf])
    have hnext : Carried c s { d with pc := .flag } :=
      h.same (SameHistory.refl s) rfl (by rw [hpc]; rfl) ⟨fun _ => hdone, fun _ => hbuffers⟩
    exact hnext.inHand rfl rfl rfl
  | write l chunk hpc hfirst => exact (h.write hpc hfirst).inHand rfl rfl rfl
  | release l hpc =>
    exact h.unreference l (by rw [hpc]; rfl) (by rw [hpc]; rfl)
  | notify l back hpc =>
    have hnext : Carried c s { d with pc := back.head } :=
      h.inLoop (SameHistory.refl s) rfl rfl (by rw [(loop_head back).2, hpc]; rfl)
        (by rw [(loop_head back).1, hpc]; rfl)
    exact hnext.inHand rfl rfl rfl
  | flagsEnd hpc hwaiters =>
    have hnext := h.ended (by rw [hpc]; rfl)
    refine hnext.inHand rfl rfl ?_
    cases d.last <;> rfl
  | flag id rest hpc hwaiters =>
    have hnext : Carried c s { d with waiters := rest, pc := .signal id } :=
      h.inLoop (SameHistory.refl s) rfl rfl (by rw [hpc]; rfl) (by rw [hpc]; rfl)
    exact hnext.inHand rfl rfl rfl
  | signal id hpc =>
    have hnext : Carried c s { d with pc := .flag } :=
      h.inLoop (SameHistory.refl s) rfl rfl (by rw [hpc]; rfl) (by rw [hpc]; rfl)
    exact hnext.inHand rfl rfl rfl

/-- Only a step from outside a drain can end the guarding of the vectors, and
it takes everything out of them. -/
theorem drain_emptied (h : d.last = true → s.logs = []) (hstep : DrainStep c s d s') :
    s'.worker.unguarded = true → s'.logs = [] := by
  cases hstep with
  | flagsEnd hpc hwaiters =>
    intro hunguarded
    refine h ?_
    cases hlast : d.last with
    | true => rfl
    | false => simp [hlast, Pc.unguarded] at hunguarded
  | recordsEnd | knownRecord | newRecord | format | pass | writesEnd | write | release | notify
  | flag | signal => exact h

theorem step_delivering {a : Act} (h : Delivering c s) (ha : step c s a = some s') :
    Delivering c s' := by
  obtain ⟨hcarried, hemptied⟩ := h
  cases step_records ha with
  | same _ hsame =>
    refine ⟨?_, ?_⟩
    · exact hcarried.inHand hsame.loggers hsame.logs hsame.current
    · rw [hsame.unguarded, hsame.logs]
      exact hemptied
  | log l r =>
    have hhistory := reference_history (t := s.modifyLogger l Logger.reference) s l rfl rfl
    exact ⟨(hcarried.inLoop hhistory rfl rfl rfl rfl).inHand rfl rfl rfl, hemptied⟩
  | setLevel l level =>
    have hhistory := setLevel_history s l level
    exact ⟨(hcarried.inLoop hhistory rfl rfl rfl rfl).inHand rfl rfl rfl, hemptied⟩
  | checkStop i e hget => exact ⟨hcarried.inHand rfl rfl rfl, hemptied⟩
  | push i e needFlush hget hguarded =>
    refine ⟨(hcarried.push e).inHand rfl rfl rfl, ?_⟩
    intro hunguarded
    exact absurd (hguarded.symm.trans hunguarded) Bool.false_ne_true
  | leave i e needFlush u hsame hget =>
    have hhistory : SameHistory u (u.modifyLogger e.logger (Logger.leave e.record)) :=
      leave_history u e rfl rfl
    have hnow := hcarried.inHand hsame.loggers hsame.logs hsame.current
    refine ⟨(hnow.inLoop hhistory rfl rfl rfl rfl).inHand rfl rfl rfl, ?_⟩
    intro hunguarded
    exact hsame.logs.trans (hemptied (hsame.unguarded.symm.trans hunguarded))
  | take last hidle =>
    rw [hidle] at hcarried
    exact ⟨(hcarried.take last s.waiters).inHand rfl rfl rfl, fun _ => rfl⟩
  | drain d _ hpc hstep =>
    rw [hpc] at hcarried hemptied
    exact ⟨drain_carried hcarried hstep, drain_emptied hemptied hstep⟩

theorem run_delivering {acts : List Act} (h : exec (step c) init acts = some s) :
    Delivering c s :=
  exec_preserves (fun _ _ _ hs ha => step_delivering hs ha) (init_delivering c) h

theorem Delivering.written (hs : Delivering c s) (l : ℕ) :
    (s.loggers l).written <+: (s.loggers l).entered ∧
      (s.worker = .ended → (s.loggers l).written = (s.loggers l).entered) := by
  obtain ⟨hcarried, hemptied⟩ := hs
  have hconserved := hcarried.conserved l
  constructor
  · rw [← hconserved, List.append_assoc]
    exact List.prefix_append _ _
  · intro hended
    have hnone : inDrain Pc.ended.current l = [] := rfl
    rw [hended, hemptied (by rw [hended]; rfl), hnone, List.append_nil] at hconserved
    exact (List.append_nil _).symm.trans hconserved

end Step

section Calls

variable {c : Config} {s s' t : State} {d : Drain}

/-- The record of a log call that has been queued. -/
def pushedEntry : Append → Option Entry
  | .pushed e _ => some e
  | _ => none

/-- The records of a logger whose `append` has queued them and is to return. -/
def unreturned (l : ℕ) (calls : List Append) : List Record :=
  recordsOf l (calls.filterMap pushedEntry)

theorem unreturned_perm {calls others : List Append} (h : calls.Perm others) (l : ℕ) :
    (unreturned l calls).Perm (unreturned l others) :=
  ((h.filterMap pushedEntry).filter _).map _

def Queued (s : State) : Prop :=
  ∀ l, ((s.loggers l).returned ++ unreturned l s.appends).Perm (s.loggers l).entered

/-- No call has queued a record or returned. -/
structure SameCalls (s t : State) : Prop where
  unreturned : ∀ l, (unreturned l t.appends).Perm (unreturned l s.appends)
  returned : ∀ l, (t.loggers l).returned = (s.loggers l).returned
  entered : ∀ l, (t.loggers l).entered = (s.loggers l).entered

theorem Queued.same (h : Queued s) (ht : SameCalls s t) : Queued t := by
  intro l
  rw [ht.returned, ht.entered]
  exact ((ht.unreturned l).append_left _).trans (h l)

theorem modifyLogger_calls (s : State) (l : ℕ) {f : Logger → Logger}
    (hreturned : ∀ x, (f x).returned = x.returned) (hentered : ∀ x, (f x).entered = x.entered)
    (hloggers : t.loggers = (s.modifyLogger l f).loggers)
    (hcalls : ∀ k, unreturned k t.appends = unreturned k s.appends) : SameCalls s t := by
  refine ⟨?_, ?_, ?_⟩
  · intro k
    rw [hcalls]
  · rw [hloggers]
    exact s.modifyLogger_keep Logger.returned l hreturned
  · rw [hloggers]
    exact s.modifyLogger_keep Logger.entered l hentered

theorem drain_calls (hstep : DrainStep c s d s') : SameCalls s s' := by
  cases hstep with
  | newRecord e =>
    exact modifyLogger_calls s e.logger (f := Logger.reference) (fun _ => rfl) (fun _ => rfl)
      rfl fun _ => rfl
  | pass e =>
    exact modifyLogger_calls s e.logger (f := Logger.unreference) (fun _ => rfl) (fun _ => rfl)
      rfl fun _ => rfl
  | write l chunk =>
    exact modifyLogger_calls s l (f := Logger.write chunk) (fun _ => rfl) (fun _ => rfl)
      rfl fun _ => rfl
  | release l =>
    exact modifyLogger_calls s l (f := Logger.unreference) (fun _ => rfl) (fun _ => rfl)
      rfl fun _ => rfl
  | recordsEnd | knownRecord | format | writesEnd | notify | flagsEnd | flag | signal =>
    exact ⟨fun _ => List.Perm.refl _, fun _ => rfl, fun _ => rfl⟩

theorem Queued.push (h : Queued s) {i : ℕ} {e : Entry} (needFlush : Bool)
    (hget : s.appends[i]? = some (.admitted e)) :
    Queued { s.modifyLogger e.logger (Logger.enter e.record) with
      appends := .pushed e needFlush :: s.appends.eraseIdx i
      logs := s.logs ++ [e] } := by
  intro l
  have hothers : (unreturned l s.appends).Perm (unreturned l (s.appends.eraseIdx i)) :=
    unreturned_perm (perm_cons_eraseIdx hget) l
  have hbefore : ((s.loggers l).returned ++ unreturned l (s.appends.eraseIdx i)).Perm
      (s.loggers l).entered := (hothers.symm.append_left _).trans (h l)
  have hnow : unreturned l (.pushed e needFlush :: s.appends.eraseIdx i) =
      recordsOf l (e :: (s.appends.eraseIdx i).filterMap pushedEntry) := rfl
  simp only [hnow, recordsOf_cons, State.modifyLogger_loggers]
  by_cases hl : l = e.logger
  · subst hl
    simp only [if_true, Logger.enter, List.singleton_append]
    exact List.perm_middle.trans ((hbefore.cons _).trans (List.perm_append_singleton _ _).symm)
  · simp only [if_neg hl, if_neg (Ne.symm hl), List.nil_append]
    exact hbefore

theorem Queued.leave (h : Queued s) {i : ℕ} {e : Entry} {needFlush : Bool}
    (hget : s.appends[i]? = some (.pushed e needFlush)) :
    Queued { s.modifyLogger e.logger (Logger.leave e.record) with
      appends := s.appends.eraseIdx i } := by
  intro l
  have hothers : (unreturned l s.appends).Perm
      (recordsOf l (e :: (s.appends.eraseIdx i).filterMap pushedEntry)) :=
    unreturned_perm (perm_cons_eraseIdx hget) l
  have hbefore := (hothers.symm.append_left (s.loggers l).returned).trans (h l)
  rw [recordsOf_cons] at hbefore
  simp only [unreturned, State.modifyLogger_loggers]
  by_cases hl : l = e.logger
  · subst hl
    simp only [if_true, Logger.leave, List.append_assoc] at hbefore ⊢
    exact hbefore
  · simp only [if_neg hl, if_neg (Ne.symm hl), List.nil_append] at hbefore ⊢
    exact hbefore

theorem step_queued {a : Act} (h : Queued s) (ha : step c s a = some s') : Queued s' := by
  cases step_records ha with
  | same _ hsame =>
    refine h.same ⟨?_, ?_, ?_⟩
    · rw [hsame.appends]
      exact fun _ => List.Perm.refl _
    · rw [hsame.loggers]
      exact fun _ => rfl
    · rw [hsame.loggers]
      exact fun _ => rfl
  | log l r =>
    exact h.same (modifyLogger_calls s l (f := Logger.reference) (fun _ => rfl) (fun _ => rfl)
      rfl fun _ => rfl)
  | setLevel l level =>
    exact h.same (modifyLogger_calls s l (f := fun x => { x with level := level }) (fun _ => rfl)
      (fun _ => rfl) rfl fun _ => rfl)
  | checkStop i e hget =>
    have hothers := perm_cons_eraseIdx hget
    exact h.same ⟨fun l => (unreturned_perm hothers l).symm, fun _ => rfl, fun _ => rfl⟩
  | push i e needFlush hget hguarded => exact h.push needFlush hget
  | leave i e needFlush u hsame hget =>
    have hu : Queued u := by
      intro l
      rw [hsame.loggers, hsame.appends]
      exact h l
    exact hu.leave hget
  | take last hidle => exact h
  | drain d _ hpc hstep => exact h.same (drain_calls hstep)

theorem run_queued {acts : List Act} (h : exec (step c) init acts = some s) : Queued s :=
  exec_preserves (fun _ _ _ hs ha => step_queued hs ha) (fun _ => List.Perm.refl _) h

end Calls

/-- However the records are cut into batches, a backend has been given a part
of the lines from their start, and all of them when the worker has ended. With
no call on its way each record is then written once. -/
theorem written_in_order {c : Config} {acts : List Act} {s : State}
    (h : exec (step c) init acts = some s) (l : ℕ) :
    (s.loggers l).written <+: (s.loggers l).entered ∧
    (s.loggers l).output <+: (s.loggers l).entered.flatMap (c.line l) ∧
    (s.worker = .ended →
      (s.loggers l).written = (s.loggers l).entered ∧
      (s.loggers l).output = (s.loggers l).entered.flatMap (c.line l) ∧
      (s.appends = [] → (s.loggers l).returned.Perm (s.loggers l).written)) := by
  have hcarried := (run_delivering h).1
  have hqueued := run_queued h l
  obtain ⟨hwritten, hwhole⟩ := (run_delivering h).written l
  refine ⟨hwritten, ?_, ?_⟩
  · rw [hcarried.output l]
    exact hwritten.flatMap _
  · intro hended
    have hall := hwhole hended
    refine ⟨hall, by rw [hcarried.output l, hall], ?_⟩
    intro hcalls
    rw [hall]
    simpa [hcalls, unreturned, recordsOf] using hqueued

def sampleConfig : Config :=
  ⟨fun _ => "", fun l r => [if l = 0 then 'a' else 'b', if r.tid = 1 then 'x' else 'y']⟩

def sampleCall (l : ℕ) (tid : ℤ) : List Act :=
  [.log l ⟨0, .error, "", tid, ⟨"", 0⟩, ""⟩, .checkStop 0, .push 0, .leave 0 none]

/-- A record for each logger goes out with the first batch, and one more of
the first logger with the last drain. -/
def sampleRun : List Act :=
  List.flatten
    [sampleCall 0 1, sampleCall 1 1, List.replicate 4 .work, sampleCall 0 2,
      List.replicate 14 .work, [.stop, .notifyStop none], List.replicate 10 .work]

theorem written_in_order_sample : ∃ s, exec (step sampleConfig) init sampleRun = some s ∧
    (s.loggers 0).output = ['a', 'x', '\n', 'a', 'y', '\n'] ∧
      (s.loggers 1).output = ['b', 'x', '\n'] ∧
      (s.loggers 0).returned.Perm (s.loggers 0).written := by
  have hrun : ((exec (step sampleConfig) init sampleRun).map fun s =>
      (s.worker, s.appends, (s.loggers 0).output, (s.loggers 1).output)) =
      some (.ended, [], ['a', 'x', '\n', 'a', 'y', '\n'], ['b', 'x', '\n']) := by
    decide +kernel
  obtain ⟨s, hs, hvalues⟩ := Option.map_eq_some_iff.mp hrun
  simp only [Prod.mk.injEq] at hvalues
  obtain ⟨hended, hcalls, hfirst, hsecond⟩ := hvalues
  obtain ⟨-, -, hall⟩ := written_in_order hs 0
  exact ⟨s, hs, hfirst, hsecond, (hall hended).2.2 hcalls⟩

end Bc.LogDelivery
