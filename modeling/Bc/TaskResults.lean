import Mathlib.Logic.Function.Iterate
import Mathlib.Data.Nat.Basic

/-!
The result of a task. Its call operator resumes the coroutine once at most and then
moves the result out of the promise, whether the coroutine has come to its end or not.
-/
namespace Bc.TaskResults

variable {σ T : Type*}

/-- How a coroutine's body goes on from where it is, up to its next suspension point.
An exception that leaves it ends the process. -/
inductive Leg (σ T : Type*)
  | suspended (s : σ)
  | returned (value : T)
  | threw

structure Body (σ T : Type*) where
  start : Leg σ T
  resume : σ → Leg σ T

/-- A coroutine that is suspended in its body or at its end, where it has given
`value` to `co_return`. -/
inductive Coro (σ T : Type*)
  | suspended (s : σ)
  | final (value : T)

/-- `task`, with the `result` in the coroutine's promise. -/
structure Task (σ T : Type*) where
  coro : Coro σ T
  result : T

namespace Task

def advance (leg : Leg σ T) (result : T) : Option (Task σ T) :=
  match leg with
  | .suspended s => some ⟨.suspended s, result⟩
  | .returned value => some ⟨.final value, value⟩
  | .threw => none

/-- The call of the coroutine. It runs at once, and `initial` is what the promise's
result is initialised to. -/
def make (body : Body σ T) (initial : T) : Option (Task σ T) := advance body.start initial

def resume (body : Body σ T) (t : Task σ T) : Option (Task σ T) :=
  match t.coro with
  | .suspended s => advance (body.resume s) t.result
  | .final _ => some t

/-- `moved` is what a value becomes when it is moved from. -/
def takeResult (moved : T → T) (t : Task σ T) : Task σ T := { t with result := moved t.result }

/-- `task::operator()`, with the result and the task that it leaves. -/
def call (body : Body σ T) (moved : T → T) (t : Task σ T) : Option (T × Task σ T) :=
  (t.resume body).map fun t => (t.result, t.takeResult moved)

def afterCalls (body : Body σ T) (initial : T) (moved : T → T) : ℕ → Option (Task σ T)
  | 0 => make body initial
  | n + 1 => (afterCalls body initial moved n).bind fun t => (t.call body moved).map Prod.snd

end Task

inductive Returns (body : Body σ T) : Leg σ T → ℕ → T → Prop
  | now (value : T) : Returns body (.returned value) 0 value
  | later (s : σ) (n : ℕ) (value : T) (h : Returns body (body.resume s) n value) :
      Returns body (.suspended s) (n + 1) value

section Calls

variable {body : Body σ T} {initial : T} {moved : T → T} {leg : Leg σ T}
variable {n m : ℕ} {value other : T} {t t' : Task σ T}

theorem Returns.unique (h : Returns body leg n value) (h' : Returns body leg m other) :
    n = m ∧ value = other := by
  induction h generalizing m with
  | now value =>
    cases h' with
    | now _ => exact ⟨rfl, rfl⟩
  | later s n value _ ih =>
    cases h' with
    | later _ m _ h' =>
      obtain ⟨rfl, rfl⟩ := ih h'
      exact ⟨rfl, rfl⟩

/-- How far the coroutine is after some calls, and what is in its promise: where it is
complete, the value that has been moved from by every call since. -/
def Advanced (body : Body σ T) (moved : T → T) (calls taken : ℕ) (t : Task σ T) : Prop :=
  match t.coro with
  | .suspended s => ∀ n value, Returns body body.start n value ↔
      ∃ m, n = m + calls ∧ Returns body (.suspended s) m value
  | .final value => ∃ n ≤ calls, Returns body body.start n value ∧
      t.result = moved^[taken - max n 1] value

theorem make_advanced (h : Task.make body initial = some t) : Advanced body moved 0 1 t := by
  unfold Task.make at h
  cases hstart : body.start with
  | suspended s =>
    rw [hstart] at h
    obtain rfl := Option.some.inj h
    intro n value
    rw [hstart]
    simp
  | returned value =>
    rw [hstart] at h
    obtain rfl := Option.some.inj h
    exact ⟨0, le_rfl, hstart ▸ .now value, rfl⟩
  | threw =>
    rw [hstart] at h
    cases h

theorem returns_suspended_iff {s : σ} :
    Returns body (.suspended s) n value ↔
      ∃ m, n = m + 1 ∧ Returns body (body.resume s) m value := by
  constructor
  · intro h
    cases h with
    | later _ m _ h => exact ⟨m, rfl, h⟩
  · rintro ⟨m, rfl, h⟩
    exact .later s m value h

theorem resume_advanced {calls : ℕ} (ht : Advanced body moved calls (calls + 1) t)
    (h : t.resume body = some t') : Advanced body moved (calls + 1) (calls + 1) t' := by
  obtain ⟨coro, result⟩ := t
  cases coro with
  | suspended s =>
    have hstart : ∀ n value, Returns body body.start n value ↔
        ∃ m, n = m + calls ∧ Returns body (.suspended s) m value := ht
    have hadvance : Task.advance (body.resume s) result = some t' := h
    cases hleg : body.resume s with
    | suspended s' =>
      rw [hleg] at hadvance
      obtain rfl := Option.some.inj hadvance
      intro n value
      rw [hstart]
      constructor
      · rintro ⟨k, rfl, hreturns⟩
        obtain ⟨m, rfl, hlater⟩ := returns_suspended_iff.mp hreturns
        exact ⟨m, by omega, hleg ▸ hlater⟩
      · rintro ⟨m, rfl, hreturns⟩
        exact ⟨m + 1, by omega, .later s m value (hleg ▸ hreturns)⟩
    | returned value =>
      rw [hleg] at hadvance
      obtain rfl := Option.some.inj hadvance
      have hreturns : Returns body (.suspended s) 1 value := .later s 0 value (hleg ▸ .now value)
      refine ⟨calls + 1, le_rfl, (hstart _ _).mpr ⟨1, Nat.add_comm _ _, hreturns⟩, ?_⟩
      rw [Nat.max_eq_left (Nat.le_add_left 1 calls), Nat.sub_self]
      rfl
    | threw =>
      rw [hleg] at hadvance
      cases hadvance
  | final value =>
    obtain rfl := Option.some.inj h
    obtain ⟨n, hn, hreturns, hresult⟩ := ht
    exact ⟨n, Nat.le_succ_of_le hn, hreturns, hresult⟩

theorem takeResult_advanced {calls : ℕ} (ht : Advanced body moved (calls + 1) (calls + 1) t) :
    Advanced body moved (calls + 1) (calls + 2) (t.takeResult moved) := by
  obtain ⟨coro, result⟩ := t
  cases coro with
  | suspended s => exact ht
  | final value =>
    obtain ⟨n, hn, hreturns, hresult⟩ := ht
    refine ⟨n, hn, hreturns, ?_⟩
    have hmax : max n 1 ≤ calls + 1 := max_le hn (Nat.le_add_left 1 calls)
    calc (Task.takeResult moved ⟨.final value, result⟩).result
      _ = moved (moved^[calls + 1 - max n 1] value) := congrArg moved hresult
      _ = moved^[calls + 2 - max n 1] value := by
        rw [← Function.iterate_succ_apply' moved]
        congr 1
        omega

theorem afterCalls_advanced {calls : ℕ} (h : Task.afterCalls body initial moved calls = some t) :
    Advanced body moved calls (calls + 1) t := by
  induction calls generalizing t with
  | zero => exact make_advanced h
  | succ calls ih =>
    obtain ⟨before, hbefore, hcall⟩ := Option.bind_eq_some_iff.mp h
    obtain ⟨answered, hanswered, rfl⟩ := Option.map_eq_some_iff.mp hcall
    obtain ⟨resumed, hresume, rfl⟩ := Option.map_eq_some_iff.mp hanswered
    exact takeResult_advanced (resume_advanced (ih hbefore) hresume)

/-- A call returns what was given to `co_return` exactly if no more than one suspension
point was left and nothing of the value has been lost to earlier calls. -/
theorem call_returns_iff (body : Body σ T) (initial : T) (moved : T → T) (calls : ℕ)
    {t t' : Task σ T} {answer : T} (ht : Task.afterCalls body initial moved calls = some t)
    (h : t.call body moved = some (answer, t')) :
    t'.coro = .final answer ↔
      ∃ n value, Returns body body.start n value ∧ n ≤ calls + 1 ∧
        moved^[calls + 1 - max n 1] value = value := by
  obtain ⟨resumed, hresume, heq⟩ := Option.map_eq_some_iff.mp h
  have hresumed := resume_advanced (afterCalls_advanced ht) hresume
  obtain ⟨rfl, rfl⟩ := Prod.mk.inj heq
  obtain ⟨coro, result⟩ := resumed
  cases coro with
  | suspended s =>
    refine iff_of_false nofun ?_
    rintro ⟨n, value, hreturns, hn, -⟩
    obtain ⟨m, rfl, hlater⟩ := (hresumed n value).mp hreturns
    obtain ⟨k, rfl, -⟩ := returns_suspended_iff.mp hlater
    omega
  | final value =>
    obtain ⟨n, hn, hreturns, hresult⟩ := hresumed
    have hcoro : (Coro.final value : Coro σ T) = .final result ↔ result = value :=
      ⟨fun heq => (Coro.final.inj heq).symm, fun heq => heq ▸ rfl⟩
    have hkept : result = moved^[calls + 1 - max n 1] value := hresult
    refine hcoro.trans ?_
    rw [hkept]
    constructor
    · exact fun hvalue => ⟨n, value, hreturns, hn, hvalue⟩
    · rintro ⟨m, other, hother, -, hvalue⟩
      obtain ⟨rfl, rfl⟩ := hreturns.unique hother
      exact hvalue

end Calls

/-- A body that suspends as often as it is told to and then gives 7 to `co_return`. -/
def suspending : ℕ → Body ℕ ℕ
  | 0 => ⟨.returned 7, fun _ => .threw⟩
  | n + 1 => ⟨.suspended n, fun
    | 0 => .returned 7
    | m + 1 => .suspended m⟩

theorem call_returns_iff_suspending :
    (Coro.final 7 : Coro ℕ ℕ) = .final 7 ↔
      ∃ n value, Returns (suspending 1) (suspending 1).start n value ∧ n ≤ 0 + 1 ∧
        (fun _ => 0)^[0 + 1 - max n 1] value = value := by
  have hcreated : Task.afterCalls (suspending 1) 0 (fun _ => 0) 0 = some ⟨.suspended 0, 0⟩ := rfl
  have hcalled : Task.call (suspending 1) (fun _ => 0) ⟨.suspended 0, 0⟩ =
      some (7, ⟨.final 7, 0⟩) := rfl
  exact call_returns_iff (suspending 1) 0 (fun _ => 0) 0 hcreated hcalled

/-- With two suspension points the first call returns what the promise was initialised
to; without any, the second call returns what is left of the value. -/
theorem early_call_returns_nothing :
    (¬∀ (body : Body ℕ ℕ) initial moved calls t answer t',
      Task.afterCalls body initial moved calls = some t →
        t.call body moved = some (answer, t') → t'.coro = .final answer) ∧
      (∃ t, Task.afterCalls (suspending 2) 0 (fun _ => 0) 0 = some t ∧
        t.call (suspending 2) (fun _ => 0) = some (0, ⟨.suspended 0, 0⟩)) ∧
      ∃ t, Task.afterCalls (suspending 0) 0 (fun _ => 0) 1 = some t ∧
        t.call (suspending 0) (fun _ => 0) = some (0, ⟨.final 7, 0⟩) := by
  refine ⟨fun h => ?_, ⟨_, rfl, rfl⟩, ⟨_, rfl, rfl⟩⟩
  have hearly : (Coro.suspended 0 : Coro ℕ ℕ) = .final 0 :=
    h (suspending 2) 0 (fun _ => 0) 0 _ 0 _ rfl rfl
  cases hearly

end Bc.TaskResults
