import Bc.OrderedMaps
import Bc.Runs
import Mathlib.Algebra.Ring.Int.Defs
import Mathlib.Data.List.Perm.Basic
import Mathlib.Logic.Function.Basic

/-!
The background worker of the loggers. Any number of threads append records or
wait for a flush while the worker takes out batches and writes them. Steps of
different threads interleave: what is done under `mutex_` is one step, and so
is each access to an atomic. A failed assertion, and a use of the shared vectors
by a caller once the worker has left its loop, in its last drain or behind it,
have no successor.
-/
namespace Bc.LogWorker

open OrderedMaps

inductive Level
  | debug
  | info
  | warning
  | error
  | fatal
  deriving DecidableEq

def Level.toUnderlying : Level → ℕ
  | debug => 0
  | info => 1
  | warning => 2
  | error => 3
  | fatal => 4

abbrev Text := List Char

structure Location where
  fileName : String
  line : ℕ
  deriving DecidableEq

structure Record where
  timestamp : ℤ
  lv : Level
  topic : String
  tid : ℤ
  location : Location
  message : String
  deriving DecidableEq

/-- What the loggers are constructed with. The formatter is known by the texts
that it makes. -/
structure Config where
  topic : ℕ → String
  format : ℕ → Record → Text

/-- A record in `buffers`: the formatted text and its newline. -/
def Config.line (c : Config) (l : ℕ) (r : Record) : Text := c.format l r ++ ['\n']

/-- An element of `logs_`. -/
structure Entry where
  logger : ℕ
  record : Record
  deriving DecidableEq

/-- The records of one logger, in order. -/
def recordsOf (l : ℕ) (entries : List Entry) : List Record :=
  (entries.filter fun e => e.logger = l).map Entry.record

/-- A value of `buffers`, with the records that its text was made from. -/
structure Chunk where
  text : Text
  records : List Record
  deriving DecidableEq

instance : Inhabited Chunk := ⟨⟨[], []⟩⟩

/-- `output` is all that the backend has been given. The last three fields are
the history: the records written, queued, and whose `append` has returned.
`ref` is an integer so that a decrement below zero would show. -/
structure Logger where
  level : Level
  ref : ℤ
  output : Text
  written : List Record
  entered : List Record
  returned : List Record
  deriving DecidableEq

namespace Logger

def start : Logger := ⟨.warning, 0, [], [], [], []⟩

def reference (x : Logger) : Logger := { x with ref := x.ref + 1 }

def unreference (x : Logger) : Logger := { x with ref := x.ref - 1 }

def write (chunk : Chunk) (x : Logger) : Logger :=
  { x with output := x.output ++ chunk.text, written := x.written ++ chunk.records }

def enter (r : Record) (x : Logger) : Logger := { x with entered := x.entered ++ [r] }

def leave (r : Record) (x : Logger) : Logger := { x with returned := x.returned ++ [r] }

end Logger

/-- A log call on its way: counted in `ref_`, past the assertion of `append`,
or with its record queued and perhaps a notification to make. -/
inductive Append
  | counted (e : Entry)
  | admitted (e : Entry)
  | pushed (e : Entry) (needFlush : Bool)
  deriving DecidableEq

/-- Where a call of `flush` is. In `tested` the predicate was false and the
thread is about to sleep on `cv_`. -/
inductive FlushPc
  | unused
  | admitted
  | registered
  | testing
  | tested
  | asleep
  | returned
  deriving DecidableEq

/-- A call of `flush` with its flag. `signalled` says that the worker has
notified the call's own condition variable, and `heard` that `cv_` has been
notified, both since the flag was set. -/
structure Flush where
  pc : FlushPc
  flushed : Bool
  signalled : Bool
  heard : Bool
  deriving DecidableEq

/-- The loops of `drain_`. -/
inductive Loop
  | records
  | buffers
  | waiters
  deriving DecidableEq

/-- Where `drain_` is: at the head of a loop, or at a later part of its body.
In `notify` an `unreference_` has reached zero and goes on to notify. -/
inductive DrainPc
  | record
  | format (e : Entry)
  | pass (e : Entry)
  | write
  | release (l : ℕ)
  | notify (l : ℕ) (back : Loop)
  | flag
  | signal (id : ℕ)
  deriving DecidableEq

def Loop.head : Loop → DrainPc
  | records => .record
  | buffers => .write
  | waiters => .flag

/-- A call of `drain_`; the lists are those from the iterators on. `last` is
the drain after the loop, on the shared vectors themselves. -/
structure Drain where
  last : Bool
  logs : List Entry
  waiters : List ℕ
  buffers : OrderedMap ℕ Chunk
  pc : DrainPc
  deriving DecidableEq

/-- Where the worker's thread is. In `locking` and `expired` it is about to
take `mutex_`, after `expired` with the wait over. -/
inductive Pc
  | head
  | locking
  | test
  | tested
  | asleep
  | expired
  | ready
  | drain (d : Drain)
  | ended
  deriving DecidableEq

def Pc.holdsMutex : Pc → Bool
  | test => true
  | tested => true
  | ready => true
  | _ => false

/-- The shared vectors belong to the worker alone. -/
def Pc.unguarded : Pc → Bool
  | drain d => d.last
  | ended => true
  | _ => false

def Pc.sleeps : Pc → Bool
  | asleep => true
  | _ => false

/-- `~worker`, up to the join: `stopping` has set `stop_` and is to notify. -/
inductive Owner
  | running
  | stopping
  | stopped
  deriving DecidableEq

structure State where
  appends : List Append
  logs : List Entry
  waiters : List ℕ
  worker : Pc
  owner : Owner
  loggers : ℕ → Logger
  flushes : ℕ → Flush
  flushCount : ℕ

def init : State :=
  { appends := []
    logs := []
    waiters := []
    worker := .head
    owner := .running
    loggers := fun _ => Logger.start
    flushes := fun _ => ⟨.unused, false, false, false⟩
    flushCount := 0 }

/-- The threads that `cv_` may wake. -/
inductive Sleeper
  | worker
  | flush (id : ℕ)
  deriving DecidableEq

namespace State

def stop (s : State) : Bool := s.owner ≠ .running

def modifyLogger (s : State) (l : ℕ) (f : Logger → Logger) : State :=
  { s with loggers := Function.update s.loggers l (f (s.loggers l)) }

def modifyFlush (s : State) (id : ℕ) (f : Flush → Flush) : State :=
  { s with flushes := Function.update s.flushes id (f (s.flushes id)) }

def setFlushPc (s : State) (id : ℕ) (pc : FlushPc) : State :=
  s.modifyFlush id fun x => { x with pc := pc }

def drainAt (s : State) (d : Drain) : State := { s with worker := .drain d }

/-- Whoever has his flag set hears a notification of `cv_`. -/
def notified (s : State) : State :=
  { s with flushes := fun id =>
      { s.flushes id with heard := (s.flushes id).heard || (s.flushes id).flushed } }

def notifyOne (s : State) (woken : Option Sleeper) : Option State :=
  match woken with
  | some .worker => if s.worker.sleeps then some { s.notified with worker := .locking } else none
  | some (.flush id) =>
    if (s.flushes id).pc = .asleep then some (s.notified.setFlushPc id .testing) else none
  | none =>
    if s.worker.sleeps = false ∧ ∀ id < s.flushCount, (s.flushes id).pc ≠ .asleep then
      some s.notified
    else none

def unreference (s : State) (d : Drain) (l : ℕ) (back : Loop) : State :=
  let s := s.modifyLogger l Logger.unreference
  s.drainAt { d with pc := if (s.loggers l).ref = 0 then .notify l back else back.head }

def drain (c : Config) (s : State) (d : Drain) : State :=
  match d.pc with
  | .record =>
    match d.logs with
    | [] => s.drainAt { d with pc := .write }
    | e :: rest =>
      let s := if e.logger ∈ d.buffers.keys then s else s.modifyLogger e.logger Logger.reference
      s.drainAt { d with logs := rest, pc := .format e }
  | .format e =>
    let buffers := d.buffers.modify e.logger fun chunk =>
      ⟨chunk.text ++ c.line e.logger e.record, chunk.records ++ [e.record]⟩
    s.drainAt { d with buffers := buffers, pc := .pass e }
  | .pass e => s.unreference d e.logger .records
  | .write =>
    match d.buffers.entries with
    | [] => s.drainAt { d with pc := .flag }
    | (l, chunk) :: _ =>
      (s.modifyLogger l (Logger.write chunk)).drainAt
        { d with buffers := d.buffers.tail, pc := .release l }
  | .release l => s.unreference d l .buffers
  | .notify _ back => s.drainAt { d with pc := back.head }
  | .flag =>
    match d.waiters with
    | [] => { s with worker := if d.last then .ended else .head }
    | id :: rest =>
      (s.modifyFlush id fun x =>
        { x with flushed := true, signalled := false, heard := false }).drainAt
        { d with waiters := rest, pc := .signal id }
  | .signal id =>
    (s.modifyFlush id fun x => { x with signalled := true }).drainAt { d with pc := .flag }

def work (c : Config) (s : State) : Option State :=
  match s.worker with
  | .head =>
    if s.stop then
      -- The last drain walks the shared vectors in place; nothing reads them again.
      some ({ s with logs := [], waiters := [] }.drainAt
        ⟨true, s.logs, s.waiters, OrderedMap.empty, .record⟩)
    else some { s with worker := .locking }
  | .locking => some { s with worker := .test }
  | .test => some { s with worker := if s.logs ≠ [] ∨ s.stop then .ready else .tested }
  | .tested => some { s with worker := .asleep }
  | .asleep => none
  | .expired => some { s with worker := .ready }
  | .ready =>
    some ({ s with logs := [], waiters := [] }.drainAt
      ⟨false, s.logs, s.waiters, OrderedMap.empty, .record⟩)
  | .drain d => some (s.drain c d)
  | .ended => none

end State

/-- `leave` ends a log call. `wake` is a spurious wake-up of a `flush`;
`wakeWorker` is one of the worker's wait, or with `timeout` its end. -/
inductive Act
  | log (l : ℕ) (r : Record)
  | setLevel (l : ℕ) (level : Level)
  | checkStop (i : ℕ)
  | push (i : ℕ)
  | leave (i : ℕ) (woken : Option Sleeper)
  | flush
  | register (id : ℕ)
  | notify (id : ℕ) (woken : Option Sleeper)
  | testFlag (id : ℕ)
  | sleep (id : ℕ)
  | wake (id : ℕ)
  | stop
  | notifyStop (woken : Option Sleeper)
  | wakeWorker (timeout : Bool)
  | work
  deriving DecidableEq

/-- A caller can use the shared vectors: nobody holds the mutex, and the worker has
not left its loop. -/
def State.open (s : State) : Bool := !s.worker.holdsMutex && !s.worker.unguarded

def step (c : Config) (s : State) : Act → Option State
  | .log l r =>
    if r.lv.toUnderlying < (s.loggers l).level.toUnderlying then some s
    else
      some { s.modifyLogger l Logger.reference with
        appends := .counted ⟨l, { r with topic := c.topic l }⟩ :: s.appends }
  | .setLevel l level => some (s.modifyLogger l fun x => { x with level := level })
  | .checkStop i =>
    match s.appends[i]? with
    | some (.counted e) =>
      if s.stop then none
      else some { s with appends := .admitted e :: s.appends.eraseIdx i }
    | _ => none
  | .push i =>
    match s.appends[i]? with
    | some (.admitted e) =>
      if s.open then
        some { s.modifyLogger e.logger (Logger.enter e.record) with
          appends := .pushed e (decide (20 < s.logs.length + 1)) :: s.appends.eraseIdx i
          logs := s.logs ++ [e] }
      else none
    | _ => none
  | .leave i woken =>
    match s.appends[i]? with
    | some (.pushed e needFlush) =>
      (if needFlush then s.notifyOne woken else if woken = none then some s else none).map fun s =>
        { s.modifyLogger e.logger (Logger.leave e.record) with appends := s.appends.eraseIdx i }
    | _ => none
  | .flush =>
    if s.stop then none
    else
      some { s.setFlushPc s.flushCount .admitted with flushCount := s.flushCount + 1 }
  | .register id =>
    if (s.flushes id).pc = .admitted ∧ s.open then
      some { s.setFlushPc id .registered with waiters := s.waiters ++ [id] }
    else none
  | .notify id woken =>
    if (s.flushes id).pc = .registered then
      (s.notifyOne woken).map fun s => s.setFlushPc id .testing
    else none
  | .testFlag id =>
    if (s.flushes id).pc = .testing then
      some (s.setFlushPc id (if (s.flushes id).flushed then .returned else .tested))
    else none
  | .sleep id =>
    if (s.flushes id).pc = .tested then some (s.setFlushPc id .asleep) else none
  | .wake id =>
    if (s.flushes id).pc = .asleep then some (s.setFlushPc id .testing) else none
  | .stop => if s.owner = .running then some { s with owner := .stopping } else none
  | .notifyStop woken =>
    if s.owner = .stopping then
      (s.notifyOne woken).map fun s => { s with owner := .stopped }
    else none
  | .wakeWorker timeout =>
    if s.worker.sleeps then some { s with worker := if timeout then .expired else .locking }
    else none
  | .work => s.work c

section Inversion

variable {c : Config} {s s' : State}

/-- What a notification of `cv_` can do. -/
inductive Notified (s : State) : Option Sleeper → State → Prop
  | worker (hpc : s.worker = .asleep) :
      Notified s (some .worker) { s.notified with worker := .locking }
  | flush (id : ℕ) (hpc : (s.flushes id).pc = .asleep) :
      Notified s (some (.flush id)) (s.notified.setFlushPc id .testing)
  | nobody (hworker : s.worker.sleeps = false)
      (hflushes : ∀ id < s.flushCount, (s.flushes id).pc ≠ .asleep) :
      Notified s none s.notified

theorem Pc.sleeps_eq_true {pc : Pc} : pc.sleeps = true ↔ pc = .asleep := by
  cases pc <;> simp [Pc.sleeps]

theorem notifyOne_cases {woken : Option Sleeper} (h : s.notifyOne woken = some s') :
    Notified s woken s' := by
  unfold State.notifyOne at h
  split at h
  · simp only [Option.ite_none_right_eq_some, Option.some.injEq] at h
    obtain ⟨hsleeps, rfl⟩ := h
    exact .worker (Pc.sleeps_eq_true.mp hsleeps)
  · simp only [Option.ite_none_right_eq_some, Option.some.injEq] at h
    obtain ⟨hpc, rfl⟩ := h
    exact .flush _ hpc
  · simp only [Option.ite_none_right_eq_some, Option.some.injEq] at h
    obtain ⟨⟨hworker, hflushes⟩, rfl⟩ := h
    exact .nobody hworker hflushes

/-- Everything a step of `drain_` can do. -/
inductive DrainStep (c : Config) (s : State) (d : Drain) : State → Prop
  | recordsEnd (hpc : d.pc = .record) (hlogs : d.logs = []) :
      DrainStep c s d (s.drainAt { d with pc := .write })
  | newRecord (e : Entry) (rest : List Entry) (hpc : d.pc = .record)
      (hlogs : d.logs = e :: rest) (hnew : e.logger ∉ d.buffers.keys) :
      DrainStep c s d ((s.modifyLogger e.logger Logger.reference).drainAt
        { d with logs := rest, pc := .format e })
  | knownRecord (e : Entry) (rest : List Entry) (hpc : d.pc = .record)
      (hlogs : d.logs = e :: rest) (hknown : e.logger ∈ d.buffers.keys) :
      DrainStep c s d (s.drainAt { d with logs := rest, pc := .format e })
  | format (e : Entry) (hpc : d.pc = .format e) :
      DrainStep c s d (s.drainAt
        { d with
          buffers := d.buffers.modify e.logger fun chunk =>
            ⟨chunk.text ++ c.line e.logger e.record, chunk.records ++ [e.record]⟩
          pc := .pass e })
  | pass (e : Entry) (hpc : d.pc = .pass e) :
      DrainStep c s d (s.unreference d e.logger .records)
  | writesEnd (hpc : d.pc = .write) (hbuffers : d.buffers.entries = []) :
      DrainStep c s d (s.drainAt { d with pc := .flag })
  | write (l : ℕ) (chunk : Chunk) (hpc : d.pc = .write) (hfirst : d.buffers.First l chunk) :
      DrainStep c s d ((s.modifyLogger l (Logger.write chunk)).drainAt
        { d with buffers := d.buffers.tail, pc := .release l })
  | release (l : ℕ) (hpc : d.pc = .release l) : DrainStep c s d (s.unreference d l .buffers)
  | notify (l : ℕ) (back : Loop) (hpc : d.pc = .notify l back) :
      DrainStep c s d (s.drainAt { d with pc := back.head })
  | flagsEnd (hpc : d.pc = .flag) (hwaiters : d.waiters = []) :
      DrainStep c s d { s with worker := if d.last then .ended else .head }
  | flag (id : ℕ) (rest : List ℕ) (hpc : d.pc = .flag) (hwaiters : d.waiters = id :: rest) :
      DrainStep c s d ((s.modifyFlush id fun x =>
        { x with flushed := true, signalled := false, heard := false }).drainAt
        { d with waiters := rest, pc := .signal id })
  | signal (id : ℕ) (hpc : d.pc = .signal id) :
      DrainStep c s d ((s.modifyFlush id fun x => { x with signalled := true }).drainAt
        { d with pc := .flag })

theorem drain_cases (c : Config) (s : State) (d : Drain) : DrainStep c s d (s.drain c d) := by
  unfold State.drain
  split
  · rename_i hpc
    split
    · rename_i hlogs
      exact .recordsEnd hpc hlogs
    · rename_i e rest hlogs
      simp only
      split
      · rename_i hknown
        exact .knownRecord e rest hpc hlogs hknown
      · rename_i hnew
        exact .newRecord e rest hpc hlogs hnew
  · rename_i e hpc
    exact .format e hpc
  · rename_i e hpc
    exact .pass e hpc
  · rename_i hpc
    split
    · rename_i hbuffers
      exact .writesEnd hpc hbuffers
    · rename_i l chunk rest hbuffers
      exact .write l chunk hpc (OrderedMap.first_of_cons hbuffers)
  · rename_i l hpc
    exact .release l hpc
  · rename_i l back hpc
    exact .notify l back hpc
  · rename_i hpc
    split
    · rename_i hwaiters
      exact .flagsEnd hpc hwaiters
    · rename_i id rest hwaiters
      exact .flag id rest hpc hwaiters
  · rename_i id hpc
    exact .signal id hpc

/-- Everything a step of the worker's thread can do. -/
inductive WorkStep (c : Config) (s : State) : State → Prop
  | headStop (hpc : s.worker = .head) (hstop : s.owner ≠ .running) :
      WorkStep c s ({ s with logs := [], waiters := [] }.drainAt
        ⟨true, s.logs, s.waiters, OrderedMap.empty, .record⟩)
  | headGo (hpc : s.worker = .head) (hrun : s.owner = .running) :
      WorkStep c s { s with worker := .locking }
  | lock (hpc : s.worker = .locking) : WorkStep c s { s with worker := .test }
  | testReady (hpc : s.worker = .test) (hready : s.logs ≠ [] ∨ s.owner ≠ .running) :
      WorkStep c s { s with worker := .ready }
  | testNone (hpc : s.worker = .test) (hlogs : s.logs = []) (hrun : s.owner = .running) :
      WorkStep c s { s with worker := .tested }
  | sleep (hpc : s.worker = .tested) : WorkStep c s { s with worker := .asleep }
  | expired (hpc : s.worker = .expired) : WorkStep c s { s with worker := .ready }
  | swap (hpc : s.worker = .ready) :
      WorkStep c s ({ s with logs := [], waiters := [] }.drainAt
        ⟨false, s.logs, s.waiters, OrderedMap.empty, .record⟩)
  | drain (d : Drain) (s' : State) (hpc : s.worker = .drain d) (h : DrainStep c s d s') :
      WorkStep c s s'

theorem work_cases (h : s.work c = some s') : WorkStep c s s' := by
  unfold State.work at h
  split at h
  · rename_i hpc
    split at h
    · rename_i hstop
      obtain rfl := Option.some.inj h
      exact .headStop hpc (by simpa [State.stop] using hstop)
    · rename_i hstop
      obtain rfl := Option.some.inj h
      exact .headGo hpc (by simpa [State.stop] using hstop)
  · rename_i hpc
    obtain rfl := Option.some.inj h
    exact .lock hpc
  · rename_i hpc
    split at h
    · rename_i hready
      obtain rfl := Option.some.inj h
      exact .testReady hpc (by simpa [State.stop] using hready)
    · rename_i hready
      obtain rfl := Option.some.inj h
      simp only [State.stop, ne_eq, not_or, not_not, decide_eq_true_eq] at hready
      exact .testNone hpc hready.1 hready.2
  · rename_i hpc
    obtain rfl := Option.some.inj h
    exact .sleep hpc
  · cases h
  · rename_i hpc
    obtain rfl := Option.some.inj h
    exact .expired hpc
  · rename_i hpc
    obtain rfl := Option.some.inj h
    exact .swap hpc
  · rename_i d hpc
    obtain rfl := Option.some.inj h
    exact .drain d _ hpc (drain_cases c s d)
  · cases h

/-- Everything a step can do. -/
inductive Step (c : Config) (s : State) : Act → State → Prop
  | logBelow (l : ℕ) (r : Record)
      (hlevel : r.lv.toUnderlying < (s.loggers l).level.toUnderlying) : Step c s (.log l r) s
  | log (l : ℕ) (r : Record)
      (hlevel : (s.loggers l).level.toUnderlying ≤ r.lv.toUnderlying) :
      Step c s (.log l r)
        { s.modifyLogger l Logger.reference with
          appends := .counted ⟨l, { r with topic := c.topic l }⟩ :: s.appends }
  | setLevel (l : ℕ) (level : Level) :
      Step c s (.setLevel l level) (s.modifyLogger l fun x => { x with level := level })
  | checkStop (i : ℕ) (e : Entry) (hget : s.appends[i]? = some (.counted e))
      (hrun : s.owner = .running) :
      Step c s (.checkStop i) { s with appends := .admitted e :: s.appends.eraseIdx i }
  | push (i : ℕ) (e : Entry) (hget : s.appends[i]? = some (.admitted e))
      (hmutex : s.worker.holdsMutex = false) (hguarded : s.worker.unguarded = false) :
      Step c s (.push i)
        { s.modifyLogger e.logger (Logger.enter e.record) with
          appends := .pushed e (decide (20 < s.logs.length + 1)) :: s.appends.eraseIdx i
          logs := s.logs ++ [e] }
  | leave (i : ℕ) (woken : Option Sleeper) (e : Entry) (needFlush : Bool) (u : State)
      (hget : s.appends[i]? = some (.pushed e needFlush))
      (hnotify : if needFlush then Notified s woken u else u = s) :
      Step c s (.leave i woken)
        { u.modifyLogger e.logger (Logger.leave e.record) with appends := u.appends.eraseIdx i }
  | flush (hrun : s.owner = .running) :
      Step c s .flush
        { s.setFlushPc s.flushCount .admitted with flushCount := s.flushCount + 1 }
  | register (id : ℕ) (hpc : (s.flushes id).pc = .admitted)
      (hmutex : s.worker.holdsMutex = false) (hguarded : s.worker.unguarded = false) :
      Step c s (.register id) { s.setFlushPc id .registered with waiters := s.waiters ++ [id] }
  | notify (id : ℕ) (woken : Option Sleeper) (u : State) (hpc : (s.flushes id).pc = .registered)
      (hnotify : Notified s woken u) : Step c s (.notify id woken) (u.setFlushPc id .testing)
  | flagSet (id : ℕ) (hpc : (s.flushes id).pc = .testing)
      (hflushed : (s.flushes id).flushed = true) :
      Step c s (.testFlag id) (s.setFlushPc id .returned)
  | flagUnset (id : ℕ) (hpc : (s.flushes id).pc = .testing)
      (hflushed : (s.flushes id).flushed = false) :
      Step c s (.testFlag id) (s.setFlushPc id .tested)
  | sleep (id : ℕ) (hpc : (s.flushes id).pc = .tested) :
      Step c s (.sleep id) (s.setFlushPc id .asleep)
  | wake (id : ℕ) (hpc : (s.flushes id).pc = .asleep) :
      Step c s (.wake id) (s.setFlushPc id .testing)
  | stop (hrun : s.owner = .running) : Step c s .stop { s with owner := .stopping }
  | notifyStop (woken : Option Sleeper) (u : State) (howner : s.owner = .stopping)
      (hnotify : Notified s woken u) : Step c s (.notifyStop woken) { u with owner := .stopped }
  | wakeWorker (timeout : Bool) (hpc : s.worker = .asleep) :
      Step c s (.wakeWorker timeout) { s with worker := if timeout then .expired else .locking }
  | work (s' : State) (h : WorkStep c s s') : Step c s .work s'

theorem step_cases {a : Act} (h : step c s a = some s') : Step c s a s' := by
  cases a with
  | log l r =>
    simp only [step] at h
    split at h
    · rename_i hlevel
      obtain rfl := Option.some.inj h
      exact .logBelow l r hlevel
    · rename_i hlevel
      obtain rfl := Option.some.inj h
      exact .log l r (not_lt.mp hlevel)
  | setLevel l level =>
    obtain rfl := Option.some.inj h
    exact .setLevel l level
  | checkStop i =>
    simp only [step] at h
    split at h
    · rename_i e hget
      simp only [State.stop, ne_eq, decide_not, Bool.not_eq_true', decide_eq_false_iff_not,
        Option.ite_none_left_eq_some, not_not, Option.some.injEq] at h
      obtain ⟨hrun, rfl⟩ := h
      exact .checkStop i e hget hrun
    · cases h
  | push i =>
    simp only [step] at h
    split at h
    · rename_i e hget
      simp only [State.open, Bool.and_eq_true, Bool.not_eq_true', Option.ite_none_right_eq_some,
        Option.some.injEq] at h
      obtain ⟨⟨hmutex, hguarded⟩, rfl⟩ := h
      exact .push i e hget hmutex hguarded
    · cases h
  | leave i woken =>
    simp only [step] at h
    split at h
    · rename_i e needFlush hget
      obtain ⟨u, hu, rfl⟩ := Option.map_eq_some_iff.mp h
      refine .leave i woken e needFlush u hget ?_
      cases needFlush with
      | true => exact notifyOne_cases hu
      | false =>
        simp only [Bool.false_eq_true, if_false, Option.ite_none_right_eq_some,
          Option.some.injEq] at hu
        exact hu.2.symm
    · cases h
  | flush =>
    simp only [step, State.stop, ne_eq, decide_not, Bool.not_eq_true', decide_eq_false_iff_not,
      Option.ite_none_left_eq_some, not_not, Option.some.injEq] at h
    obtain ⟨hrun, rfl⟩ := h
    exact .flush hrun
  | register id =>
    simp only [step, State.open, Bool.and_eq_true, Bool.not_eq_true',
      Option.ite_none_right_eq_some, Option.some.injEq] at h
    obtain ⟨⟨hpc, hmutex, hguarded⟩, rfl⟩ := h
    exact .register id hpc hmutex hguarded
  | notify id woken =>
    simp only [step, Option.ite_none_right_eq_some, Option.map_eq_some_iff] at h
    obtain ⟨hpc, u, hu, rfl⟩ := h
    exact .notify id woken u hpc (notifyOne_cases hu)
  | testFlag id =>
    simp only [step, Option.ite_none_right_eq_some, Option.some.injEq] at h
    obtain ⟨hpc, rfl⟩ := h
    cases hflushed : (s.flushes id).flushed with
    | true => exact .flagSet id hpc hflushed
    | false => exact .flagUnset id hpc hflushed
  | sleep id =>
    simp only [step, Option.ite_none_right_eq_some, Option.some.injEq] at h
    obtain ⟨hpc, rfl⟩ := h
    exact .sleep id hpc
  | wake id =>
    simp only [step, Option.ite_none_right_eq_some, Option.some.injEq] at h
    obtain ⟨hpc, rfl⟩ := h
    exact .wake id hpc
  | stop =>
    simp only [step, Option.ite_none_right_eq_some, Option.some.injEq] at h
    obtain ⟨hrun, rfl⟩ := h
    exact .stop hrun
  | notifyStop woken =>
    simp only [step, Option.ite_none_right_eq_some, Option.map_eq_some_iff] at h
    obtain ⟨howner, u, hu, rfl⟩ := h
    exact .notifyStop woken u howner (notifyOne_cases hu)
  | wakeWorker timeout =>
    simp only [step, Option.ite_none_right_eq_some, Option.some.injEq] at h
    obtain ⟨hsleeps, rfl⟩ := h
    exact .wakeWorker timeout (Pc.sleeps_eq_true.mp hsleeps)
  | work => exact .work s' (work_cases h)

end Inversion

def Drain.idle : Drain := ⟨false, [], [], OrderedMap.empty, .record⟩

def Pc.current : Pc → Drain
  | drain d => d
  | _ => Drain.idle

namespace State

variable {c : Config} {s : State}

theorem modifyLogger_loggers (s : State) (l : ℕ) (f : Logger → Logger) (k : ℕ) :
    (s.modifyLogger l f).loggers k = if k = l then f (s.loggers k) else s.loggers k := by
  by_cases hk : k = l
  · subst hk
    simp [modifyLogger]
  · simp [modifyLogger, hk]

/-- A change of a logger leaves the parts that it does not name. -/
theorem modifyLogger_keep {α : Type*} (part : Logger → α) (s : State) (l : ℕ)
    {f : Logger → Logger} (hf : ∀ x, part (f x) = part x) (k : ℕ) :
    part ((s.modifyLogger l f).loggers k) = part (s.loggers k) := by
  rw [modifyLogger_loggers]
  split
  · exact hf _
  · rfl

theorem unreference_cases (s : State) (d : Drain) (l : ℕ) (back : Loop) :
    ∃ pc, s.unreference d l back =
        (s.modifyLogger l Logger.unreference).drainAt { d with pc := pc } ∧
      (pc = .notify l back ∨ pc = back.head) := by
  refine ⟨_, rfl, ?_⟩
  split
  · exact .inl rfl
  · exact .inr rfl

theorem modifyFlush_flushes (s : State) (id : ℕ) (f : Flush → Flush) (k : ℕ) :
    (s.modifyFlush id f).flushes k = if k = id then f (s.flushes k) else s.flushes k := by
  by_cases hk : k = id
  · subst hk
    simp [modifyFlush]
  · simp [modifyFlush, hk]

end State

/-- One log call of those on their way, and the others. -/
theorem perm_cons_eraseIdx {calls : List Append} {i : ℕ} {call : Append}
    (hget : calls[i]? = some call) : calls.Perm (call :: calls.eraseIdx i) := by
  obtain ⟨hi, rfl⟩ := List.getElem?_eq_some_iff.mp hget
  exact (List.getElem_cons_eraseIdx_perm hi).symm

structure SameRecords (s s' : State) : Prop where
  appends : s'.appends = s.appends
  logs : s'.logs = s.logs
  loggers : s'.loggers = s.loggers
  current : s'.worker.current = s.worker.current
  unguarded : s'.worker.unguarded = s.worker.unguarded

section Records

variable {c : Config} {s s' : State}

theorem Notified.sameRecords {woken : Option Sleeper} (h : Notified s woken s') :
    SameRecords s s' := by
  cases h with
  | worker hpc => exact ⟨rfl, rfl, rfl, by rw [hpc]; rfl, by rw [hpc]; rfl⟩
  | flush | nobody => exact ⟨rfl, rfl, rfl, rfl, rfl⟩

/-- A call that returns notifies at most. -/
theorem sameRecords_of_leave {woken : Option Sleeper} {needFlush : Bool}
    (h : if needFlush then Notified s woken s' else s' = s) : SameRecords s s' := by
  cases needFlush with
  | true => exact Notified.sameRecords h
  | false =>
    obtain rfl : s' = s := h
    exact ⟨rfl, rfl, rfl, rfl, rfl⟩

/-- What a step can do to the records, the calls that pass them on and the
references to their loggers. -/
inductive RecordStep (c : Config) (s : State) : State → Prop
  | same (s' : State) (h : SameRecords s s') : RecordStep c s s'
  | log (l : ℕ) (r : Record) :
      RecordStep c s
        { s.modifyLogger l Logger.reference with appends := .counted ⟨l, r⟩ :: s.appends }
  | setLevel (l : ℕ) (level : Level) :
      RecordStep c s (s.modifyLogger l fun x => { x with level := level })
  | checkStop (i : ℕ) (e : Entry) (hget : s.appends[i]? = some (.counted e)) :
      RecordStep c s { s with appends := .admitted e :: s.appends.eraseIdx i }
  | push (i : ℕ) (e : Entry) (needFlush : Bool) (hget : s.appends[i]? = some (.admitted e))
      (hguarded : s.worker.unguarded = false) :
      RecordStep c s
        { s.modifyLogger e.logger (Logger.enter e.record) with
          appends := .pushed e needFlush :: s.appends.eraseIdx i
          logs := s.logs ++ [e] }
  | leave (i : ℕ) (e : Entry) (needFlush : Bool) (u : State) (h : SameRecords s u)
      (hget : u.appends[i]? = some (.pushed e needFlush)) :
      RecordStep c s
        { u.modifyLogger e.logger (Logger.leave e.record) with appends := u.appends.eraseIdx i }
  | take (last : Bool) (hidle : s.worker.current = Drain.idle) :
      RecordStep c s ({ s with logs := [], waiters := [] }.drainAt
        ⟨last, s.logs, s.waiters, OrderedMap.empty, .record⟩)
  | drain (d : Drain) (s' : State) (hpc : s.worker = .drain d) (h : DrainStep c s d s') :
      RecordStep c s s'

theorem work_records (h : WorkStep c s s') : RecordStep c s s' := by
  cases h with
  | headStop hpc => exact .take true (by rw [hpc]; rfl)
  | swap hpc => exact .take false (by rw [hpc]; rfl)
  | drain d _ hpc h => exact .drain d s' hpc h
  | headGo hpc | lock hpc | testReady hpc | testNone hpc | sleep hpc | expired hpc =>
    exact .same _ ⟨rfl, rfl, rfl, by rw [hpc]; rfl, by rw [hpc]; rfl⟩

theorem step_records {a : Act} (h : step c s a = some s') : RecordStep c s s' := by
  cases step_cases h with
  | log l r => exact .log l _
  | setLevel l level => exact .setLevel l level
  | checkStop i e hget => exact .checkStop i e hget
  | push i e hget hmutex hguarded => exact .push i e _ hget hguarded
  | leave i woken e needFlush u hget hnotify =>
    have hsame := sameRecords_of_leave hnotify
    exact .leave i e needFlush u hsame (by rw [hsame.appends, hget])
  | notify id woken u hpc hnotify =>
    have hsame := hnotify.sameRecords
    exact .same _ ⟨hsame.appends, hsame.logs, hsame.loggers, hsame.current, hsame.unguarded⟩
  | notifyStop woken u howner hnotify =>
    have hsame := hnotify.sameRecords
    exact .same _ ⟨hsame.appends, hsame.logs, hsame.loggers, hsame.current, hsame.unguarded⟩
  | wakeWorker timeout hpc =>
    refine .same _ ⟨rfl, rfl, rfl, ?_, ?_⟩
    · rw [hpc]
      cases timeout <;> rfl
    · rw [hpc]
      cases timeout <;> rfl
  | work _ h => exact work_records h
  | logBelow | flush | register | flagSet | flagUnset | sleep | wake | stop =>
    exact .same _ ⟨rfl, rfl, rfl, rfl, rfl⟩

end Records

/-- The waiter that a drain has flagged and is to signal. -/
def DrainPc.signalling : DrainPc → Option ℕ
  | signal id => some id
  | _ => none

def Pc.signalling : Pc → Option ℕ
  | drain d => d.pc.signalling
  | _ => none

structure SameFlushes (s s' : State) : Prop where
  flushes : s'.flushes = s.flushes
  flushCount : s'.flushCount = s.flushCount
  waiters : s'.waiters = s.waiters
  taken : s'.worker.current.waiters = s.worker.current.waiters
  signalling : s'.worker.signalling = s.worker.signalling

section Flushes

variable {c : Config} {s s' : State}

/-- What a step can do to the calls of `flush` and the list of waiters. -/
inductive FlushStep (c : Config) (s : State) : Act → State → Prop
  | same (a : Act) (s' : State) (h : SameFlushes s s') (hwork : a ≠ .work)
      (hsleep : ∀ id, a ≠ .sleep id) : FlushStep c s a s'
  | work (s' : State) (h : SameFlushes s s') (hsignal : s.worker.signalling = none) :
      FlushStep c s .work s'
  | cvNotified (a : Act) (woken : Option Sleeper) (u s' : State) (hnotify : Notified s woken u)
      (h : SameFlushes u s') (hwork : a ≠ .work) (hsleep : ∀ id, a ≠ .sleep id) :
      FlushStep c s a s'
  | flush :
      FlushStep c s .flush
        { s.setFlushPc s.flushCount .admitted with flushCount := s.flushCount + 1 }
  | register (id : ℕ) (hpc : (s.flushes id).pc = .admitted) :
      FlushStep c s (.register id)
        { s.setFlushPc id .registered with waiters := s.waiters ++ [id] }
  | notify (id : ℕ) (woken : Option Sleeper) (u : State) (hpc : (s.flushes id).pc = .registered)
      (hnotify : Notified s woken u) : FlushStep c s (.notify id woken) (u.setFlushPc id .testing)
  | testFlag (id : ℕ) (pc : FlushPc) (hpc : (s.flushes id).pc = .testing)
      (hnext : pc = .returned ∨ pc = .tested) :
      FlushStep c s (.testFlag id) (s.setFlushPc id pc)
  | sleep (id : ℕ) (hpc : (s.flushes id).pc = .tested) :
      FlushStep c s (.sleep id) (s.setFlushPc id .asleep)
  | wake (id : ℕ) (hpc : (s.flushes id).pc = .asleep) :
      FlushStep c s (.wake id) (s.setFlushPc id .testing)
  | take (last : Bool) (hidle : s.worker.current = Drain.idle)
      (hsignal : s.worker.signalling = none) :
      FlushStep c s .work ({ s with logs := [], waiters := [] }.drainAt
        ⟨last, s.logs, s.waiters, OrderedMap.empty, .record⟩)
  | flag (d : Drain) (id : ℕ) (rest : List ℕ) (hworker : s.worker = .drain d)
      (hpc : d.pc = .flag) (hwaiters : d.waiters = id :: rest) :
      FlushStep c s .work ((s.modifyFlush id fun x =>
        { x with flushed := true, signalled := false, heard := false }).drainAt
        { d with waiters := rest, pc := .signal id })
  | signal (d : Drain) (id : ℕ) (hworker : s.worker = .drain d) (hpc : d.pc = .signal id) :
      FlushStep c s .work ((s.modifyFlush id fun x => { x with signalled := true }).drainAt
        { d with pc := .flag })

/-- A step of a drain that keeps the waiters. -/
theorem FlushStep.drain {d d' : Drain} (hworker : s.worker = .drain d)
    (hworker' : s'.worker = .drain d') (hflushes : s'.flushes = s.flushes)
    (hcount : s'.flushCount = s.flushCount) (hwaiters : s'.waiters = s.waiters)
    (htaken : d'.waiters = d.waiters) (hsignal : d.pc.signalling = none)
    (hsignal' : d'.pc.signalling = none) : FlushStep c s .work s' := by
  have hquiet : s.worker.signalling = none := by rw [hworker]; exact hsignal
  refine .work s' ⟨hflushes, hcount, hwaiters, ?_, ?_⟩ hquiet
  · rw [hworker', hworker]
    exact htaken
  · rw [hquiet, hworker']
    exact hsignal'

theorem drain_flushes {d : Drain} (hworker : s.worker = .drain d) (h : DrainStep c s d s') :
    FlushStep c s .work s' := by
  cases h with
  | recordsEnd hpc | writesEnd hpc | format e hpc | write l chunk hpc | knownRecord e rest hpc
  | newRecord e rest hpc =>
    exact .drain hworker rfl rfl rfl rfl rfl (by rw [hpc]; rfl) rfl
  | pass e hpc =>
    refine .drain hworker rfl rfl rfl rfl rfl (by rw [hpc]; rfl) ?_
    simp only
    split <;> rfl
  | release l hpc =>
    refine .drain hworker rfl rfl rfl rfl rfl (by rw [hpc]; rfl) ?_
    simp only
    split <;> rfl
  | notify l back hpc =>
    refine .drain hworker rfl rfl rfl rfl rfl (by rw [hpc]; rfl) ?_
    cases back <;> rfl
  | flagsEnd hpc hwaiters =>
    have hquiet : s.worker.signalling = none := by
      rw [hworker, Pc.signalling, hpc]
      rfl
    refine .work _ ⟨rfl, rfl, rfl, ?_, ?_⟩ hquiet
    · rw [hworker]
      cases d.last <;> exact hwaiters.symm
    · rw [hquiet]
      cases d.last <;> rfl
  | flag id rest hpc hwaiters => exact .flag d id rest hworker hpc hwaiters
  | signal id hpc => exact .signal d id hworker hpc

theorem work_flushes (h : WorkStep c s s') : FlushStep c s .work s' := by
  cases h with
  | headStop hpc => exact .take true (by rw [hpc]; rfl) (by rw [hpc]; rfl)
  | swap hpc => exact .take false (by rw [hpc]; rfl) (by rw [hpc]; rfl)
  | drain d _ hpc h => exact drain_flushes hpc h
  | headGo hpc | lock hpc | testReady hpc | testNone hpc | sleep hpc | expired hpc =>
    exact .work _ ⟨rfl, rfl, rfl, by rw [hpc]; rfl, by rw [hpc]; rfl⟩ (by rw [hpc]; rfl)

theorem step_flushes {a : Act} (h : step c s a = some s') : FlushStep c s a s' := by
  cases step_cases h with
  | leave i woken e needFlush u hget hnotify =>
    cases needFlush with
    | true => exact .cvNotified _ woken u _ hnotify ⟨rfl, rfl, rfl, rfl, rfl⟩ nofun nofun
    | false =>
      obtain rfl : u = s := hnotify
      exact .same _ _ ⟨rfl, rfl, rfl, rfl, rfl⟩ nofun nofun
  | notifyStop woken u howner hnotify =>
    exact .cvNotified _ woken u _ hnotify ⟨rfl, rfl, rfl, rfl, rfl⟩ nofun nofun
  | wakeWorker timeout hpc =>
    refine .same _ _ ⟨rfl, rfl, rfl, ?_, ?_⟩ nofun nofun
    · rw [hpc]
      cases timeout <;> rfl
    · rw [hpc]
      cases timeout <;> rfl
  | logBelow | log | setLevel | checkStop | push | stop =>
    exact .same _ _ ⟨rfl, rfl, rfl, rfl, rfl⟩ nofun nofun
  | flush => exact .flush
  | register id hpc => exact .register id hpc
  | notify id woken u hpc hnotify => exact .notify id woken u hpc hnotify
  | flagSet id hpc => exact .testFlag id _ hpc (.inl rfl)
  | flagUnset id hpc => exact .testFlag id _ hpc (.inr rfl)
  | sleep id hpc => exact .sleep id hpc
  | wake id hpc => exact .wake id hpc
  | work _ h => exact work_flushes h

end Flushes

end Bc.LogWorker
