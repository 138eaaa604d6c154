import Bc.LogDelivery

/-!
The calls of `flush`. A waiter that has registered is in the shared list, in
the list that was taken out with a batch, or flagged; what its flag promises
follows it from one to the next. Whether the caller then wakes is another
question, since the worker signals a condition variable on which nobody waits.
-/
namespace Bc.FlushWaiters

open Runs OrderedMaps LogWorker LogDelivery

def hasEntered : FlushPc → Bool
  | .unused => false
  | .admitted => false
  | .registered => true
  | .testing => true
  | .tested => true
  | .asleep => true
  | .returned => true

def waiting (s : State) : List ℕ := s.waiters ++ s.worker.current.waiters

/-- Every waiter is in one place, and a call that is not yet made is unused. -/
structure Enrolled (s : State) : Prop where
  fresh : ∀ id, s.flushCount ≤ id → (s.flushes id).pc = .unused
  ledger : ∀ id, (waiting s).count id + (s.flushes id).flushed.toNat =
    (hasEntered (s.flushes id).pc).toNat
  signalled : ∀ id, s.worker.signalling = some id → (s.flushes id).flushed = true

theorem init_enrolled : Enrolled init :=
  ⟨fun _ _ => rfl, fun _ => rfl, nofun⟩

section Step

variable {c : Config} {s s' t : State}

/-- Nothing has happened that the ledger keeps. -/
structure SameLedger (s t : State) : Prop where
  flushCount : t.flushCount = s.flushCount
  pc : ∀ id, (t.flushes id).pc = (s.flushes id).pc
  flushed : ∀ id, (t.flushes id).flushed = (s.flushes id).flushed
  waiting : waiting t = waiting s
  signalling : t.worker.signalling = s.worker.signalling

theorem Enrolled.same (h : Enrolled s) (ht : SameLedger s t) : Enrolled t := by
  refine ⟨?_, ?_, ?_⟩ <;> intro id
  · rw [ht.flushCount, ht.pc]
    exact h.fresh id
  · rw [ht.waiting, ht.flushed, ht.pc]
    exact h.ledger id
  · rw [ht.signalling, ht.flushed]
    exact h.signalled id

theorem SameFlushes.sameLedger (h : SameFlushes s t) : SameLedger s t := by
  refine ⟨h.flushCount, ?_, ?_, ?_, h.signalling⟩
  · rw [h.flushes]
    exact fun _ => rfl
  · rw [h.flushes]
    exact fun _ => rfl
  · rw [waiting, waiting, h.waiters, h.taken]

/-- A call of `flush` goes on, its waiter entered or not as before. -/
theorem Enrolled.move (h : Enrolled s) {id : ℕ} {pc : FlushPc}
    (hused : (s.flushes id).pc ≠ .unused) (hpc : hasEntered pc = hasEntered (s.flushes id).pc) :
    Enrolled (s.setFlushPc id pc) := by
  refine ⟨?_, ?_, ?_⟩ <;> intro k <;> rw [State.setFlushPc, State.modifyFlush_flushes]
  · intro hk
    have hne : k ≠ id := by
      rintro rfl
      exact hused (h.fresh k hk)
    rw [if_neg hne]
    exact h.fresh k hk
  · have hledger := h.ledger k
    split
    · rename_i hk
      subst hk
      simp only [hpc]
      exact hledger
    · exact hledger
  · intro hk
    have hflushed := h.signalled k hk
    split
    · exact hflushed
    · exact hflushed

theorem Enrolled.notified (h : Enrolled s) {woken : Option Sleeper} (hnotify : Notified s woken t) :
    Enrolled t := by
  have hheard : Enrolled s.notified :=
    h.same ⟨rfl, fun _ => rfl, fun _ => rfl, rfl, rfl⟩
  cases hnotify with
  | worker hpc =>
    exact hheard.same ⟨rfl, fun _ => rfl, fun _ => rfl,
      by simp only [waiting, State.notified, hpc, Pc.current],
      by simp only [State.notified, hpc, Pc.signalling]⟩
  | flush id hpc =>
    have hpc' : (s.notified.flushes id).pc = .asleep := hpc
    exact hheard.move (by rw [hpc']; decide) (by rw [hpc']; rfl)
  | nobody => exact hheard

/-- Only a sleeping call is moved by a notification. -/
theorem notified_pc {woken : Option Sleeper} (hnotify : Notified s woken t) (id : ℕ)
    (hid : (s.flushes id).pc ≠ .asleep) : (t.flushes id).pc = (s.flushes id).pc := by
  cases hnotify with
  | worker hpc => rfl
  | flush k hpc =>
    have hne : id ≠ k := by
      rintro rfl
      exact hid hpc
    rw [State.setFlushPc, State.modifyFlush_flushes, if_neg hne]
    rfl
  | nobody => rfl

theorem Enrolled.flush (h : Enrolled s) :
    Enrolled { s.setFlushPc s.flushCount .admitted with flushCount := s.flushCount + 1 } := by
  have hunused := h.fresh s.flushCount (le_refl _)
  refine ⟨?_, ?_, ?_⟩ <;> intro id <;> simp only [State.setFlushPc, State.modifyFlush_flushes]
  · intro hid
    rw [if_neg (by omega)]
    exact h.fresh id (by omega)
  · have hledger := h.ledger id
    split
    · rename_i hid
      subst hid
      rw [hunused] at hledger
      exact hledger
    · exact hledger
  · intro hid
    have hflushed := h.signalled id hid
    split
    · exact hflushed
    · exact hflushed

theorem Enrolled.register (h : Enrolled s) {id : ℕ} (hpc : (s.flushes id).pc = .admitted) :
    Enrolled { s.setFlushPc id .registered with waiters := s.waiters ++ [id] } := by
  refine ⟨?_, ?_, ?_⟩ <;> intro k <;> simp only [State.setFlushPc, State.modifyFlush_flushes]
  · intro hk
    have hunused := h.fresh k hk
    have hne : k ≠ id := by
      rintro rfl
      rw [hpc] at hunused
      cases hunused
    rw [if_neg hne]
    exact hunused
  · have hledger := h.ledger k
    have hcount :
        (waiting { s.setFlushPc id .registered with waiters := s.waiters ++ [id] }).count k =
          (waiting s).count k + [id].count k := by
      simp only [waiting, State.setFlushPc, State.modifyFlush, List.count_append]
      omega
    simp only [State.setFlushPc] at hcount
    rw [hcount]
    by_cases hk : k = id
    · subst hk
      rw [hpc] at hledger
      simp only [hasEntered, Bool.toNat_false, Nat.add_eq_zero_iff] at hledger
      simp [hledger.1, hledger.2, hasEntered]
    · rw [if_neg hk, List.count_singleton, if_neg (by simpa using Ne.symm hk)]
      exact hledger
  · intro hk
    have hflushed := h.signalled k hk
    split
    · exact hflushed
    · exact hflushed

theorem Enrolled.flag (h : Enrolled s) {d : Drain} {id : ℕ} {rest : List ℕ}
    (hworker : s.worker = .drain d) (hwaiters : d.waiters = id :: rest) :
    Enrolled ((s.modifyFlush id fun x =>
      { x with flushed := true, signalled := false, heard := false }).drainAt
      { d with waiters := rest, pc := .signal id }) := by
  have hwaiting : waiting s = s.waiters ++ id :: rest := by
    rw [waiting, hworker, Pc.current, hwaiters]
  refine ⟨?_, ?_, ?_⟩ <;> intro k <;> simp only [State.drainAt, State.modifyFlush_flushes]
  · intro hk
    have hunused := h.fresh k hk
    split
    · exact hunused
    · exact hunused
  · have hledger := h.ledger k
    rw [hwaiting] at hledger
    simp only [waiting, Pc.current, State.modifyFlush, List.count_append, List.count_cons]
      at hledger ⊢
    by_cases hk : k = id
    · subst hk
      have hone := Bool.toNat_le (hasEntered (s.flushes k).pc)
      simp only [beq_self_eq_true, if_true, Bool.toNat_true] at hledger ⊢
      omega
    · rw [if_neg hk]
      have hne : (id == k) = false := by simpa using Ne.symm hk
      simp only [hne, Bool.false_eq_true, if_false, Nat.add_zero] at hledger
      exact hledger
  · intro hk
    obtain rfl : id = k := Option.some.inj hk
    rw [if_pos rfl]

theorem Enrolled.signal (h : Enrolled s) {d : Drain} {id : ℕ} (hworker : s.worker = .drain d) :
    Enrolled ((s.modifyFlush id fun x => { x with signalled := true }).drainAt
      { d with pc := .flag }) := by
  have hsame : ∀ {α : Type} (part : Flush → α), (∀ x b, part { x with signalled := b } = part x) →
      ∀ k, part ((s.modifyFlush id fun x => { x with signalled := true }).flushes k) =
        part (s.flushes k) := by
    intro α part hpart k
    rw [State.modifyFlush_flushes]
    split
    · exact hpart _ _
    · rfl
  refine ⟨?_, ?_, nofun⟩ <;> intro k
  · exact fun hk => (hsame Flush.pc (fun _ _ => rfl) k).trans (h.fresh k hk)
  · have hledger := h.ledger k
    rw [waiting, hworker] at hledger
    simp only [waiting, State.drainAt, hsame Flush.pc fun _ _ => rfl,
      hsame Flush.flushed fun _ _ => rfl]
    exact hledger

theorem step_enrolled {a : Act} (h : Enrolled s) (ha : step c s a = some s') : Enrolled s' := by
  cases step_flushes ha with
  | same _ _ hsame => exact h.same (SameFlushes.sameLedger hsame)
  | work _ hsame => exact h.same (SameFlushes.sameLedger hsame)
  | cvNotified _ woken u _ hnotify hsame =>
    exact (h.notified hnotify).same (SameFlushes.sameLedger hsame)
  | flush => exact h.flush
  | register id hpc => exact h.register hpc
  | notify id woken u hpc hnotify =>
    have hpc' := notified_pc hnotify id (by rw [hpc]; nofun)
    rw [hpc] at hpc'
    exact (h.notified hnotify).move (by rw [hpc']; nofun) (by rw [hpc']; rfl)
  | testFlag id pc hpc hnext =>
    refine h.move (by rw [hpc]; nofun) ?_
    rw [hpc]
    rcases hnext with rfl | rfl <;> rfl
  | sleep id hpc => exact h.move (by rw [hpc]; nofun) (by rw [hpc]; rfl)
  | wake id hpc => exact h.move (by rw [hpc]; nofun) (by rw [hpc]; rfl)
  | take last hidle hsignal =>
    refine ⟨h.fresh, ?_, nofun⟩
    intro id
    have hledger := h.ledger id
    rw [waiting, hidle] at hledger
    simpa [waiting, State.drainAt, Pc.current, Drain.idle] using hledger
  | flag d id rest hworker hpc hwaiters => exact h.flag hworker hwaiters
  | signal d id hworker hpc => exact h.signal hworker

theorem run_enrolled {acts : List Act} (h : exec (step c) init acts = some s) : Enrolled s :=
  exec_preserves (fun _ _ _ hs ha => step_enrolled hs ha) init_enrolled h

end Step

section Growth

variable {c : Config} {s s' : State} {d : Drain}

/-- The records of a logger that the worker has taken out, written or not. -/
def reached (s : State) (l : ℕ) : List Record :=
  (s.loggers l).written ++ inDrain s.worker.current l

/-- The records that each part has had stay in front. -/
structure Grows (s t : State) : Prop where
  entered : ∀ l, (s.loggers l).entered <+: (t.loggers l).entered
  written : ∀ l, (s.loggers l).written <+: (t.loggers l).written
  taken : ∀ l, reached s l <+: reached t l

theorem written_prefix {t : State} (h : SameHistory s t) (l : ℕ) :
    (s.loggers l).written <+: (t.loggers l).written := by
  rw [h.written]

theorem grows_of_sameHistory {t : State} (h : SameHistory s t)
    (hworker : t.worker.current = s.worker.current) : Grows s t := by
  refine ⟨?_, ?_, ?_⟩ <;> intro l
  · rw [h.entered]
  · rw [h.written]
  · rw [reached, reached, h.written, hworker]

theorem Grows.trans {t u : State} (hleft : Grows s t) (hright : Grows t u) : Grows s u :=
  ⟨fun l => (hleft.entered l).trans (hright.entered l),
    fun l => (hleft.written l).trans (hright.written l),
    fun l => (hleft.taken l).trans (hright.taken l)⟩

theorem drain_logs (hstep : DrainStep c s d s') : s'.logs = s.logs := by
  cases hstep <;> rfl

theorem drain_written (hstep : DrainStep c s d s') (l : ℕ) :
    (s.loggers l).written <+: (s'.loggers l).written := by
  cases hstep with
  | newRecord e => exact written_prefix (reference_history s e.logger rfl rfl) l
  | pass e => exact written_prefix (unreference_history s e.logger rfl rfl) l
  | release k => exact written_prefix (unreference_history s k rfl rfl) l
  | write k chunk =>
    simp only [State.drainAt, State.modifyLogger_loggers]
    split
    · exact List.prefix_append _ _
    · exact List.prefix_rfl
  | recordsEnd | knownRecord | format | writesEnd | notify | flagsEnd | flag | signal =>
    exact List.prefix_rfl

/-- Inside a drain what is taken out stays the same, as nothing is queued and
nothing more is taken. -/
theorem drain_reached (h : Carried c s d) (h' : Carried c s' s'.worker.current)
    (hworker : s.worker = .drain d) (hstep : DrainStep c s d s') (l : ℕ) :
    reached s' l = reached s l := by
  have hentered := (drain_calls hstep).entered l
  rw [← h.conserved l, ← h'.conserved l, drain_logs hstep] at hentered
  rw [reached, reached, hworker]
  exact List.append_cancel_right hentered

theorem Grows.push (s : State) (e : Entry) (calls : List Append) :
    Grows s { s.modifyLogger e.logger (Logger.enter e.record) with
      appends := calls
      logs := s.logs ++ [e] } := by
  have hwritten := s.modifyLogger_keep (f := Logger.enter e.record) Logger.written e.logger
    fun _ => rfl
  refine ⟨?_, ?_, ?_⟩ <;> intro l
  · simp only [State.modifyLogger_loggers]
    split
    · exact List.prefix_append _ _
    · exact List.prefix_rfl
  · rw [← hwritten l]
  · rw [reached, ← hwritten l]
    exact List.prefix_rfl

theorem step_grows {a : Act} (h : Delivering c s) (ha : step c s a = some s') : Grows s s' := by
  have h' := step_delivering h ha
  cases step_records ha with
  | same _ hsame => exact grows_of_sameHistory (SameRecords.sameHistory hsame) hsame.current
  | log l r => exact grows_of_sameHistory (reference_history s l rfl rfl) rfl
  | setLevel l level => exact grows_of_sameHistory (setLevel_history s l level) rfl
  | checkStop i e hget =>
    exact grows_of_sameHistory ⟨rfl, fun _ => rfl, fun _ => rfl, fun _ => rfl⟩ rfl
  | push i e needFlush hget hguarded => exact Grows.push s e _
  | leave i e needFlush u hsame hget =>
    have hu := grows_of_sameHistory (SameRecords.sameHistory hsame) hsame.current
    exact hu.trans (grows_of_sameHistory (leave_history u e rfl rfl) rfl)
  | take last hidle =>
    refine ⟨fun _ => List.prefix_rfl, fun _ => List.prefix_rfl, ?_⟩
    intro l
    have hnone : inDrain Drain.idle l = [] := rfl
    rw [reached, hidle, hnone, List.append_nil]
    exact List.prefix_append _ _
  | drain d _ hpc hstep =>
    have hcarried := h.carried
    rw [hpc] at hcarried
    refine ⟨?_, drain_written hstep, ?_⟩ <;> intro l
    · rw [(drain_calls hstep).entered l]
    · rw [drain_reached hcarried h'.carried hpc hstep l]

end Growth

section Coverage

variable {c : Config} {s s' t : State} {E : ℕ → List Record} {id : ℕ}

/-- Where a waiter that has entered can have come from. -/
structure Flow (s t : State) (id : ℕ) : Prop where
  entered : hasEntered (s.flushes id).pc = true → hasEntered (t.flushes id).pc = true
  queued : hasEntered (s.flushes id).pc = true → id ∈ t.waiters → id ∈ s.waiters
  taken : id ∈ t.worker.current.waiters →
    id ∈ s.worker.current.waiters ∨ (id ∈ s.waiters ∧ t.logs = [])
  flagged : (t.flushes id).flushed = true →
    (s.flushes id).flushed = true ∨ ∃ d, s.worker = .drain d ∧ d.pc = .flag ∧ id ∈ d.waiters

structure Still (s t : State) (id : ℕ) : Prop where
  entered : hasEntered (t.flushes id).pc = hasEntered (s.flushes id).pc
  flushed : (t.flushes id).flushed = (s.flushes id).flushed
  waiters : t.waiters = s.waiters
  taken : t.worker.current.waiters = s.worker.current.waiters

theorem Still.trans {u : State} (h : Still s t id) (h' : Still t u id) : Still s u id :=
  ⟨h'.entered.trans h.entered, h'.flushed.trans h.flushed, h'.waiters.trans h.waiters,
    h'.taken.trans h.taken⟩

theorem Still.flow (h : Still s t id) : Flow s t id := by
  refine ⟨?_, ?_, ?_, ?_⟩
  · rw [h.entered]
    exact fun hentered => hentered
  · intro _ hmem
    rwa [h.waiters] at hmem
  · intro hmem
    rw [h.taken] at hmem
    exact .inl hmem
  · rw [h.flushed]
    exact .inl

theorem setFlushPc_flushed (s : State) (id : ℕ) (pc : FlushPc) (k : ℕ) :
    ((s.setFlushPc id pc).flushes k).flushed = (s.flushes k).flushed := by
  rw [State.setFlushPc, State.modifyFlush_flushes]
  split <;> rfl

theorem setFlushPc_entered {pc : FlushPc} (hpc : hasEntered pc = hasEntered (s.flushes id).pc)
    (k : ℕ) : hasEntered ((s.setFlushPc id pc).flushes k).pc = hasEntered (s.flushes k).pc := by
  rw [State.setFlushPc, State.modifyFlush_flushes]
  split
  · rename_i hk
    rw [hk]
    exact hpc
  · rfl

/-- A call goes on from one place to another, its waiter entered in both. -/
theorem move_still {k : ℕ} {pc : FlushPc} (hpc : hasEntered pc = hasEntered (s.flushes k).pc) :
    Still s (s.setFlushPc k pc) id :=
  ⟨setFlushPc_entered hpc id, setFlushPc_flushed s k pc id, rfl, rfl⟩

theorem notified_still {woken : Option Sleeper} (hnotify : Notified s woken t) :
    Still s t id := by
  have hheard : Still s s.notified id := ⟨rfl, rfl, rfl, rfl⟩
  cases hnotify with
  | worker hpc => exact ⟨rfl, rfl, rfl, by rw [hpc]; rfl⟩
  | flush k hpc =>
    have hpc' : (s.notified.flushes k).pc = .asleep := hpc
    exact hheard.trans (move_still (by rw [hpc']; rfl))
  | nobody => exact hheard

theorem SameFlushes.still (h : SameFlushes s t) : Still s t id :=
  ⟨by rw [h.flushes], by rw [h.flushes], h.waiters, h.taken⟩

theorem step_flow {a : Act} (h : Enrolled s) (ha : FlushStep c s a s') : Flow s s' id := by
  cases ha with
  | same _ _ hsame => exact (SameFlushes.still hsame).flow
  | work _ hsame => exact (SameFlushes.still hsame).flow
  | cvNotified _ woken u _ hnotify hsame =>
    exact ((notified_still hnotify).trans (SameFlushes.still hsame)).flow
  | flush =>
    have hunused := h.fresh s.flushCount (le_refl _)
    have hmove : Still s (s.setFlushPc s.flushCount .admitted) id :=
      move_still (by rw [hunused]; rfl)
    exact Still.flow (hmove.trans ⟨rfl, rfl, rfl, rfl⟩)
  | register k hpc =>
    refine ⟨?_, ?_, .inl, ?_⟩
    · simp only [State.setFlushPc, State.modifyFlush_flushes]
      split
      · exact fun _ => rfl
      · exact fun hentered => hentered
    · intro hentered hmem
      rcases List.mem_append.mp hmem with hbefore | hnew
      · exact hbefore
      · obtain rfl := List.mem_singleton.mp hnew
        rw [hpc] at hentered
        cases hentered
    · intro hflushed
      rw [← setFlushPc_flushed s k .registered id]
      exact .inl hflushed
  | notify k woken u hpc hnotify =>
    have hpc' := notified_pc hnotify k (by rw [hpc]; nofun)
    exact ((notified_still hnotify).trans (move_still (by rw [hpc', hpc]; rfl))).flow
  | testFlag k pc hpc hnext =>
    refine Still.flow (move_still ?_)
    rw [hpc]
    rcases hnext with rfl | rfl <;> rfl
  | sleep k hpc => exact (move_still (by rw [hpc]; rfl)).flow
  | wake k hpc => exact (move_still (by rw [hpc]; rfl)).flow
  | take last hidle hsignal =>
    exact ⟨fun h => h, nofun, fun hmem => .inr ⟨hmem, rfl⟩, .inl⟩
  | flag d k rest hworker hpc hwaiters =>
    refine ⟨?_, fun _ hmem => hmem, ?_, ?_⟩
    · simp only [State.drainAt, State.modifyFlush_flushes]
      split
      · exact fun h => h
      · exact fun h => h
    · intro hmem
      rw [hworker, Pc.current, hwaiters]
      exact .inl (List.mem_cons_of_mem k hmem)
    · intro hflushed
      by_cases hk : id = k
      · subst hk
        exact .inr ⟨d, hworker, hpc, by rw [hwaiters]; exact List.mem_cons_self⟩
      · simp only [State.drainAt, State.modifyFlush_flushes, if_neg hk] at hflushed
        exact .inl hflushed
  | signal d k hworker hpc =>
    have hsame : Still s (s.modifyFlush k fun x => { x with signalled := true }) id := by
      refine ⟨?_, ?_, rfl, rfl⟩ <;> rw [State.modifyFlush_flushes] <;> split <;> rfl
    exact Still.flow (hsame.trans ⟨rfl, rfl, rfl, by rw [State.modifyFlush, hworker]; rfl⟩)

/-- What has been queued before a waiter entered goes ahead of it. `E` holds
the records of each logger that were queued by then. -/
structure Covered (E : ℕ → List Record) (id : ℕ) (s : State) : Prop where
  entered : hasEntered (s.flushes id).pc = true
  queued : id ∈ s.waiters → ∀ l, E l <+: (s.loggers l).entered
  taken : id ∈ s.worker.current.waiters → ∀ l, E l <+: reached s l
  flushed : (s.flushes id).flushed = true → ∀ l, E l <+: (s.loggers l).written

theorem step_covered {a : Act} (hdelivering : Delivering c s) (henrolled : Enrolled s)
    (h : Covered E id s) (ha : step c s a = some s') : Covered E id s' := by
  have hgrows := step_grows hdelivering ha
  have hcarried' := (step_delivering hdelivering ha).carried
  have hflow : Flow s s' id := step_flow henrolled (step_flushes ha)
  refine ⟨hflow.entered h.entered, ?_, ?_, ?_⟩
  · intro hmem l
    exact (h.queued (hflow.queued h.entered hmem) l).trans (hgrows.entered l)
  · intro hmem l
    rcases hflow.taken hmem with hbefore | ⟨hqueued, hempty⟩
    · exact (h.taken hbefore l).trans (hgrows.taken l)
    · -- The batch that was taken out together with the waiter has the rest.
      have hall : reached s' l = (s'.loggers l).entered := by
        rw [← hcarried'.conserved l, hempty]
        exact (List.append_nil _).symm
      rw [hall]
      exact (h.queued hqueued l).trans (hgrows.entered l)
  · intro hflushed l
    rcases hflow.flagged hflushed with hbefore | ⟨d, hworker, hpc, hmem⟩
    · exact (h.flushed hbefore l).trans (hgrows.written l)
    · have hordered := hdelivering.carried.ordered
      rw [hworker] at hordered
      have hnone : inDrain (Pc.drain d).current l = [] :=
        hordered.inDrain_eq_nil (by rw [Pc.current, hpc]; rfl) l
      have hall : reached s l = (s.loggers l).written := by
        rw [reached, hworker, hnone, List.append_nil]
      have htaken := h.taken (by rw [hworker]; exact hmem) l
      rw [hall] at htaken
      exact htaken.trans (hgrows.written l)

/-- At its registration a waiter is in the shared list only, behind all that
has been queued. -/
theorem register_covered (henrolled : Enrolled s) (ha : step c s (.register id) = some s') :
    Covered (fun l => (s.loggers l).entered) id s' := by
  cases step_cases ha with
  | register _ hpc hmutex hguarded =>
    have hledger := henrolled.ledger id
    rw [hpc, waiting, List.count_append] at hledger
    simp only [hasEntered, Bool.toNat_false, Nat.add_eq_zero_iff] at hledger
    obtain ⟨⟨-, htaken⟩, hflushed⟩ := hledger
    refine ⟨?_, fun _ l => List.prefix_rfl, ?_, ?_⟩
    · simp only [State.setFlushPc, State.modifyFlush_flushes, if_true]
      rfl
    · intro hmem
      exact absurd hmem (List.count_eq_zero.mp htaken)
    · intro h
      rw [← Bool.not_eq_false, ← Bool.toNat_eq_zero] at h
      exact (h ((congrArg Bool.toNat (setFlushPc_flushed s id _ id)).trans hflushed)).elim

end Coverage

/-- What holds between the steps of every run. -/
structure Worked (c : Config) (s : State) : Prop where
  delivering : Delivering c s
  enrolled : Enrolled s

theorem step_worked {c : Config} {s s' : State} {a : Act} (h : Worked c s)
    (ha : step c s a = some s') : Worked c s' :=
  ⟨step_delivering h.delivering ha, step_enrolled h.enrolled ha⟩

/-- When a waiter has its flag, all that was queued before it entered has been
written, and so every record whose `append` had returned. -/
theorem flushed_after_records {c : Config} {before after : List Act} {id : ℕ} {t s : State}
    (hbefore : exec (step c) init before = some t)
    (hafter : exec (step c) t (.register id :: after) = some s)
    (hflushed : (s.flushes id).flushed = true) (l : ℕ) :
    (t.loggers l).returned.Subperm (s.loggers l).written ∧
      (t.loggers l).entered <+: (s.loggers l).written ∧
      (t.loggers l).entered.flatMap (c.line l) <+: (s.loggers l).output := by
  obtain ⟨u, hregister, hrest⟩ := exec_cons_eq_some.mp hafter
  have ht : Worked c t := ⟨run_delivering hbefore, run_enrolled hbefore⟩
  have hu : Worked c u ∧ Covered (fun l => (t.loggers l).entered) id u :=
    ⟨step_worked ht hregister, register_covered ht.enrolled hregister⟩
  obtain ⟨hs, hcovered⟩ := exec_preserves
    (I := fun s => Worked c s ∧ Covered (fun l => (t.loggers l).entered) id s)
    (fun _ _ _ h ha => ⟨step_worked h.1 ha,
      step_covered h.1.delivering h.1.enrolled h.2 ha⟩) hu hrest
  have hwritten := hcovered.flushed hflushed l
  have hqueued := run_queued hbefore l
  have hreturned : (t.loggers l).returned.Subperm (t.loggers l).entered :=
    (List.sublist_append_left _ _).subperm.trans hqueued.subperm
  refine ⟨hreturned.trans hwritten.sublist.subperm, hwritten, ?_⟩
  rw [hs.delivering.carried.output l]
  exact hwritten.flatMap _

/-- The batch is out when the waiter enters, and the wait of the worker has to
end before the waiter is taken out too. -/
def sampleBefore : List Act :=
  List.flatten [sampleCall 0 1, List.replicate 4 .work, [.flush]]

def sampleAfter : List Act :=
  List.flatten [[.notify 0 none], List.replicate 13 .work, [.wakeWorker true],
    List.replicate 5 .work]

theorem flushed_after_records_sample :
    ∃ t s, exec (step sampleConfig) init sampleBefore = some t ∧
      exec (step sampleConfig) t (.register 0 :: sampleAfter) = some s ∧
      (t.loggers 0).output = [] ∧ (t.loggers 0).returned.length = 1 ∧
      (t.loggers 0).returned.Subperm (s.loggers 0).written := by
  have hrun : ((exec (step sampleConfig) init sampleBefore).bind fun t =>
      (exec (step sampleConfig) t (.register 0 :: sampleAfter)).map fun s =>
        ((t.loggers 0).output, (t.loggers 0).returned.length, (s.flushes 0).flushed)) =
      some ([], 1, true) := by
    decide +kernel
  obtain ⟨t, ht, hmap⟩ := Option.bind_eq_some_iff.mp hrun
  obtain ⟨s, hs, hvalues⟩ := Option.map_eq_some_iff.mp hmap
  simp only [Prod.mk.injEq] at hvalues
  obtain ⟨houtput, hreturned, hflushed⟩ := hvalues
  exact ⟨t, s, ht, hs, houtput, hreturned, (flushed_after_records ht hs hflushed 0).1⟩

end Bc.FlushWaiters
