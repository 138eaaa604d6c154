import Mathlib.Data.List.Basic
import Mathlib.Tactic.Common

/-!
The loop that walks a linked list with an iterator, calls some of its
elements and erases the ones whose call reports that it is done. A call may
change anything but the list, which is local to the loop. An element whose
call is not done stays where it is and so does the iterator.
-/
namespace Bc.EraseLoop

variable {α σ : Type*}

/-- A list with an iterator into it: `kept` lies before the iterator and
`rest` starts at it. -/
structure Cursor (α : Type*) where
  kept : List α
  rest : List α
  deriving DecidableEq

namespace Cursor

def start (list : List α) : Cursor α := ⟨[], list⟩

def list (c : Cursor α) : List α := c.kept ++ c.rest

def advance (c : Cursor α) : Cursor α := ⟨c.kept ++ c.rest.take 1, c.rest.drop 1⟩

def erase (c : Cursor α) : Cursor α := ⟨c.kept, c.rest.drop 1⟩

end Cursor

/-- What one turn of the loop did. A call records the state it was made in
and whether it reported to be done. -/
inductive Turn (α σ : Type*)
  | passed (a : α)
  | called (a : α) (before : σ) (ready : Bool)

namespace Turn

def node : Turn α σ → α
  | passed a => a
  | called a _ _ => a

def fired : Turn α σ → Option α
  | passed _ => none
  | called a _ ready => if ready then some a else none

def isCall : Turn α σ → Bool
  | passed _ => false
  | called _ _ _ => true

end Turn

/-- The loop in progress, with the turns it has taken. -/
structure Walk (α σ : Type*) where
  cursor : Cursor α
  state : σ
  turns : List (Turn α σ)

namespace Walk

def start (list : List α) (s : σ) : Walk α σ := ⟨Cursor.start list, s, []⟩

def calls (w : Walk α σ) : ℕ := w.turns.countP Turn.isCall

def Ended (w : Walk α σ) : Prop := w.cursor.rest = []

end Walk

section Loop

variable (hit : α → Bool) (prepare : α → σ → σ) (call : ℕ → α → σ → Option (σ × Bool))

/-- One turn. `prepare` is what the loop itself does before a call and
`call k` is the `k`-th call of the loop. -/
def turn (w : Walk α σ) : Option (Walk α σ) :=
  match w.cursor.rest with
  | [] => some w
  | a :: _ =>
    if hit a then
      let before := prepare a w.state
      (call w.calls a before).map fun (after, ready) =>
        ⟨if ready then w.cursor.erase else w.cursor, after,
          w.turns ++ [.called a before ready]⟩
    else some ⟨w.cursor.advance, w.state, w.turns ++ [.passed a]⟩

def loop : ℕ → Walk α σ → Option (Walk α σ)
  | 0, w => some w
  | n + 1, w => (turn hit prepare call w).bind (loop n)

end Loop

/-- The turns of a loop that ended serve the list in order: an element that is
not hit is passed once, the others are called until one call is done. -/
inductive Served (hit : α → Bool) : List α → List (Turn α σ) → Prop
  | nil : Served hit [] []
  | passed {a : α} {list : List α} {turns : List (Turn α σ)} :
      hit a = false → Served hit list turns → Served hit (a :: list) (.passed a :: turns)
  | refused {a : α} {list : List α} {turns : List (Turn α σ)} {before : σ} :
      hit a = true → Served hit (a :: list) turns →
      Served hit (a :: list) (.called a before false :: turns)
  | fired {a : α} {list : List α} {turns : List (Turn α σ)} {before : σ} :
      hit a = true → Served hit list turns →
      Served hit (a :: list) (.called a before true :: turns)

variable {hit : α → Bool}

theorem Served.fired_eq {list : List α} {turns : List (Turn α σ)}
    (h : Served hit list turns) : turns.filterMap Turn.fired = list.filter hit := by
  induction h with
  | nil => rfl
  | passed ha _ ih => simpa [List.filterMap_cons, Turn.fired, ha] using ih
  | refused _ _ ih => simp [Turn.fired, ih]
  | fired ha _ ih => simp [Turn.fired, ha, ih]

theorem Served.length_le {list : List α} {turns : List (Turn α σ)}
    (h : Served hit list turns) : list.length ≤ turns.length := by
  induction h with
  | nil => exact Nat.le_refl 0
  | passed _ _ ih => simpa using ih
  | refused _ _ ih => exact Nat.le_succ_of_le ih
  | fired _ _ ih => simpa using ih

/-- A loop that took one turn for each element refused none, and called just
the elements that are hit. -/
theorem Served.of_length_eq {list : List α} {turns : List (Turn α σ)}
    (h : Served hit list turns) (hlength : turns.length = list.length) :
    (turns.filter Turn.isCall).map Turn.node = list.filter hit ∧
      ∀ a before, Turn.called a before false ∉ turns := by
  induction h with
  | nil => simp
  | passed ha _ ih =>
    have h := ih (by simpa using hlength)
    exact ⟨by simpa [Turn.isCall, ha] using h.1, by simpa using h.2⟩
  | refused _ hserved _ =>
    have hle := hserved.length_le
    simp only [List.length_cons] at hlength hle
    omega
  | fired ha _ ih =>
    have h := ih (by simpa using hlength)
    exact ⟨by simp [List.filter_cons, Turn.isCall, Turn.node, ha, h.1], by simpa using h.2⟩

section Rules

variable {prepare : α → σ → σ} {call : ℕ → α → σ → Option (σ × Bool)}

theorem turn_passed {kept rest : List α} {a : α} {s : σ} {turns : List (Turn α σ)}
    (ha : hit a = false) :
    turn hit prepare call ⟨⟨kept, a :: rest⟩, s, turns⟩ =
      some ⟨⟨kept ++ [a], rest⟩, s, turns ++ [.passed a]⟩ := by
  simp [turn, ha, Cursor.advance]

theorem turn_called {kept rest : List α} {a : α} {s : σ} {turns : List (Turn α σ)}
    (ha : hit a = true) :
    turn hit prepare call ⟨⟨kept, a :: rest⟩, s, turns⟩ =
      (call (turns.countP Turn.isCall) a (prepare a s)).map fun (after, ready) =>
        ⟨⟨kept, if ready then rest else a :: rest⟩, after,
          turns ++ [.called a (prepare a s) ready]⟩ := by
  simp only [turn, ha, if_true, Walk.calls, Cursor.erase]
  congr 1
  funext ⟨after, ready⟩
  cases ready <;> rfl

theorem loop_ended {w : Walk α σ} (hw : w.Ended) (n : ℕ) :
    loop hit prepare call n w = some w := by
  induction n with
  | zero => rfl
  | succ n ih =>
    have hturn : turn hit prepare call w = some w := by
      unfold Walk.Ended at hw
      simp [turn, hw]
    simpa [loop, hturn] using ih

/-- The rule of the loop: what passing an element and calling one preserve,
given what the loop does before a call, holds when the loop stops. -/
theorem loop_invariant {I : List (Turn α σ) → σ → Prop}
    (hpassed : ∀ turns s a, I turns s → I (turns ++ [.passed a]) s)
    (hcalled : ∀ turns s a after ready, I turns s →
      call (turns.countP Turn.isCall) a (prepare a s) = some (after, ready) →
      I (turns ++ [.called a (prepare a s) ready]) after)
    {n : ℕ} {w w' : Walk α σ} (hw : I w.turns w.state)
    (hloop : loop hit prepare call n w = some w') : I w'.turns w'.state := by
  induction n generalizing w with
  | zero =>
    obtain rfl := Option.some.inj hloop
    exact hw
  | succ n ih =>
    obtain ⟨v, hv, hrest⟩ := Option.bind_eq_some_iff.mp hloop
    refine ih ?_ hrest
    obtain ⟨⟨kept, rest⟩, s, turns⟩ := w
    cases rest with
    | nil =>
      obtain rfl := Option.some.inj hv
      exact hw
    | cons a rest =>
      cases ha : hit a with
      | false =>
        rw [turn_passed ha] at hv
        obtain rfl := Option.some.inj hv
        exact hpassed turns s a hw
      | true =>
        rw [turn_called ha] at hv
        obtain ⟨⟨after, ready⟩, hc, rfl⟩ := Option.map_eq_some_iff.mp hv
        exact hcalled turns s a after ready hw hc

/-- Whatever the calls do to the state, a loop that ended has served the list
from the iterator on, and has kept just the elements that are not hit. -/
theorem loop_served {n : ℕ} {kept rest : List α} {s : σ} {turns : List (Turn α σ)}
    {w : Walk α σ} (hloop : loop hit prepare call n ⟨⟨kept, rest⟩, s, turns⟩ = some w)
    (hend : w.Ended) :
    w.cursor.kept = kept ++ rest.filter (fun a => !hit a) ∧
      ∃ later, w.turns = turns ++ later ∧ Served hit rest later := by
  induction n generalizing kept rest s turns with
  | zero =>
    obtain rfl := Option.some.inj hloop
    have hrest : rest = [] := hend
    subst hrest
    exact ⟨by simp, [], by simp, .nil⟩
  | succ n ih =>
    cases rest with
    | nil =>
      have hnil : Walk.Ended ⟨⟨kept, []⟩, s, turns⟩ := rfl
      rw [loop_ended hnil] at hloop
      obtain rfl := Option.some.inj hloop
      exact ⟨by simp, [], by simp, .nil⟩
    | cons a rest =>
      obtain ⟨v, hv, hrest⟩ := Option.bind_eq_some_iff.mp hloop
      cases ha : hit a with
      | false =>
        rw [turn_passed ha] at hv
        obtain rfl := Option.some.inj hv
        obtain ⟨hkept, later, hturns, hserved⟩ := ih hrest
        exact ⟨by simpa [ha] using hkept, .passed a :: later, by simpa using hturns,
          .passed ha hserved⟩
      | true =>
        rw [turn_called ha] at hv
        obtain ⟨⟨after, ready⟩, hc, rfl⟩ := Option.map_eq_some_iff.mp hv
        cases ready with
        | false =>
          obtain ⟨hkept, later, hturns, hserved⟩ := ih hrest
          exact ⟨by simpa [ha] using hkept, .called a (prepare a s) false :: later,
            by simpa using hturns, .refused ha hserved⟩
        | true =>
          obtain ⟨hkept, later, hturns, hserved⟩ := ih hrest
          exact ⟨by simpa [ha] using hkept, .called a (prepare a s) true :: later,
            by simpa using hturns, .fired ha hserved⟩

theorem hit_of_called {n : ℕ} {kept rest : List α} {s : σ} {turns : List (Turn α σ)}
    {w : Walk α σ} (hloop : loop hit prepare call n ⟨⟨kept, rest⟩, s, turns⟩ = some w)
    {a : α} {before : σ} {ready : Bool} (h : .called a before ready ∈ w.turns) :
    .called a before ready ∈ turns ∨ a ∈ rest.filter hit := by
  induction n generalizing kept rest s turns with
  | zero =>
    obtain rfl := Option.some.inj hloop
    exact .inl h
  | succ n ih =>
    obtain ⟨v, hv, hrest⟩ := Option.bind_eq_some_iff.mp hloop
    cases rest with
    | nil =>
      obtain rfl := Option.some.inj hv
      exact ih hrest
    | cons b rest =>
      cases hb : hit b with
      | false =>
        rw [turn_passed hb] at hv
        obtain rfl := Option.some.inj hv
        rcases ih hrest with hold | hlater
        · exact .inl (by simpa using hold)
        · exact .inr (by simpa [hb] using hlater)
      | true =>
        rw [turn_called hb] at hv
        obtain ⟨⟨after, answer⟩, -, rfl⟩ := Option.map_eq_some_iff.mp hv
        rcases ih hrest with hold | hlater
        · rcases List.mem_append.mp hold with hturns | hnew
          · exact .inl hturns
          · obtain ⟨rfl, -, -⟩ := Turn.called.inj (List.mem_singleton.mp hnew)
            exact .inr (by simp [hb])
        · cases answer with
          | true => exact .inr (by simpa [hb] using .inr (List.mem_filter.mp hlater))
          | false => exact .inr hlater

end Rules

section Outcomes

variable {prepare : α → σ → σ} {effect : ℕ → α → σ → σ} {outcome : ℕ → α → Bool}

/-- The calls that always return, with a given effect and outcome. -/
def totalCall (effect : ℕ → α → σ → σ) (outcome : ℕ → α → Bool) :
    ℕ → α → σ → Option (σ × Bool) :=
  fun k a s => some (effect k a s, outcome k a)

/-- When the calls ahead are all done at once, the loop needs one turn for
each element. -/
theorem loop_visits_once {rest kept : List α} {s : σ} {turns : List (Turn α σ)}
    (hready : ∀ j (hj : j < (rest.filter hit).length),
      outcome (turns.countP Turn.isCall + j) (rest.filter hit)[j] = true) :
    ∃ w, loop hit prepare (totalCall effect outcome) rest.length ⟨⟨kept, rest⟩, s, turns⟩ =
        some w ∧ w.Ended ∧
      ∃ later, w.turns = turns ++ later ∧ later.map Turn.node = rest := by
  induction rest generalizing kept s turns with
  | nil => exact ⟨_, rfl, rfl, [], by simp, rfl⟩
  | cons a rest ih =>
    cases ha : hit a with
    | false =>
      have hrest : ∀ j (hj : j < (rest.filter hit).length),
          outcome ((turns ++ [Turn.passed a]).countP Turn.isCall + j) (rest.filter hit)[j] =
            true := by
        intro j hj
        simpa [ha, Turn.isCall] using hready j (by simpa [ha] using hj)
      obtain ⟨w, hloop, hend, later, hturns, hnodes⟩ :=
        @ih (kept ++ [a]) s _ hrest
      refine ⟨w, ?_, hend, .passed a :: later, by simpa using hturns,
        by simpa [Turn.node] using hnodes⟩
      simpa [loop, turn_passed ha] using hloop
    | true =>
      have hfirst : outcome (turns.countP Turn.isCall) a = true := by
        simpa [ha] using hready 0 (by simp [ha])
      let before := prepare a s
      let after := effect (turns.countP Turn.isCall) a before
      have hrest : ∀ j (hj : j < (rest.filter hit).length),
          outcome ((turns ++ [Turn.called a before true]).countP Turn.isCall + j)
            (rest.filter hit)[j] = true := by
        intro j hj
        have h := hready (j + 1) (by simpa [ha] using hj)
        simpa [ha, Turn.isCall, Nat.add_assoc, Nat.add_comm 1 j] using h
      obtain ⟨w, hloop, hend, later, hturns, hnodes⟩ := @ih kept after _ hrest
      refine ⟨w, ?_, hend, .called a before true :: later, by simpa using hturns,
        by simpa [Turn.node] using hnodes⟩
      simpa [loop, turn_called ha, totalCall, hfirst, before, after] using hloop

/-- Where some element is hit, the loop comes to a call. -/
theorem loop_calls {rest kept : List α} {s : σ} {turns : List (Turn α σ)}
    (hsome : rest.filter hit ≠ []) :
    ∃ n w, loop hit prepare (totalCall effect outcome) n ⟨⟨kept, rest⟩, s, turns⟩ = some w ∧
      ∃ a before ready, .called a before ready ∈ w.turns := by
  induction rest generalizing kept s turns with
  | nil => exact absurd rfl hsome
  | cons a rest ih =>
    cases ha : hit a with
    | false =>
      obtain ⟨n, w, hloop, hcalled⟩ := @ih (kept ++ [a]) s (turns ++ [.passed a])
        (by simpa [ha] using hsome)
      refine ⟨n + 1, w, ?_, hcalled⟩
      rw [loop, turn_passed ha]
      exact hloop
    | true =>
      let k := turns.countP Turn.isCall
      have hloop : loop hit prepare (totalCall effect outcome) 1 ⟨⟨kept, a :: rest⟩, s, turns⟩ =
          some ⟨⟨kept, if outcome k a then rest else a :: rest⟩, effect k a (prepare a s),
            turns ++ [.called a (prepare a s) (outcome k a)]⟩ := by
        rw [loop, turn_called ha]
        rfl
      exact ⟨1, _, hloop, a, prepare a s, outcome k a,
        List.mem_append_right _ List.mem_cons_self⟩

/-- A loop that visited each element once had every call done at once. -/
theorem ready_of_visits_once {n : ℕ} {rest kept : List α} {s : σ} {turns later : List (Turn α σ)}
    {w : Walk α σ}
    (hloop : loop hit prepare (totalCall effect outcome) n ⟨⟨kept, rest⟩, s, turns⟩ = some w)
    (hend : w.Ended) (hturns : w.turns = turns ++ later) (hnodes : later.map Turn.node = rest) :
    ∀ j (hj : j < (rest.filter hit).length),
      outcome (turns.countP Turn.isCall + j) (rest.filter hit)[j] = true := by
  induction rest generalizing n kept s turns later with
  | nil => simp
  | cons a rest ih =>
    cases n with
    | zero =>
      obtain rfl := Option.some.inj hloop
      cases hend
    | succ n =>
      obtain ⟨v, hv, hrest⟩ := Option.bind_eq_some_iff.mp hloop
      cases ha : hit a with
      | false =>
        rw [turn_passed ha] at hv
        obtain rfl := Option.some.inj hv
        obtain ⟨_, tail, htail, _⟩ := loop_served hrest hend
        have hlater : later = .passed a :: tail := by
          simpa [htail] using hturns.symm
        intro j hj
        have h := ih hrest htail
          (by simpa [hlater, Turn.node] using hnodes) j (by simpa [ha] using hj)
        simpa [ha, Turn.isCall] using h
      | true =>
        rw [turn_called ha] at hv
        simp only [totalCall, Option.map_some, Option.some.injEq] at hv
        subst hv
        obtain ⟨_, tail, htail, hserved⟩ := loop_served hrest hend
        have hlater : later =
            .called a (prepare a s) (outcome (turns.countP Turn.isCall) a) :: tail := by
          simpa [htail] using hturns.symm
        have htailNodes : tail.map Turn.node = rest := by
          simpa [hlater, Turn.node] using hnodes
        have hlength : tail.length = rest.length := by
          rw [← htailNodes, List.length_map]
        cases hout : outcome (turns.countP Turn.isCall) a with
        | false =>
          have hle := hserved.length_le
          simp only [hout, Bool.false_eq_true, if_false, List.length_cons] at hle
          omega
        | true =>
          simp only [hout, if_true] at hrest htail
          intro j hj
          cases j with
          | zero => simpa [ha] using hout
          | succ j =>
            have h := ih hrest (by simpa using htail) htailNodes j
              (by simpa [ha] using hj)
            simpa [ha, Turn.isCall, Nat.add_assoc, Nat.add_comm 1 j] using h

end Outcomes

end Bc.EraseLoop
