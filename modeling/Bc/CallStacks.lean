import Bc.Runs

/-!
Programs with procedure calls, over any operations. A program is given by what
its code does next at each point; it runs on a stack of such points, the
innermost call first. Apart from the answers that operations get, a run is
determined by its program.
-/
namespace Bc.CallStacks

/-- What the code at a point does next. An operation may go on in more than one
way, by its answer; a call goes on when the called code has returned. A spawned
program is run by someone else, and the answer is a name for it. -/
inductive Op (σ ω ρ : Type*)
  | perform (op : ω) (next : ρ → σ)
  | call (body next : σ)
  | spawn (body : σ) (next : ρ → σ)
  | ret

inductive Mark (ω ρ : Type*)
  | performed (op : ω) (answer : ρ)
  | called
  | spawned (answer : ρ)
  | returned
  deriving DecidableEq

variable {σ ω ρ : Type*}

def Mark.answer : Mark ω ρ → Option ρ
  | performed _ answer => some answer
  | called => none
  | spawned answer => some answer
  | returned => none

def answers (log : List (Mark ω ρ)) : List ρ := log.filterMap Mark.answer

theorem answers_cons (mark : Mark ω ρ) (log : List (Mark ω ρ)) :
    answers (mark :: log) = mark.answer.toList ++ answers log := by
  rw [answers, List.filterMap_cons]
  cases mark.answer <;> rfl

variable [DecidableEq ω]

/-- The points on the stack are those at which the code goes on. -/
def step (code : σ → Op σ ω ρ) : List σ → Mark ω ρ → Option (List σ)
  | [], _ => none
  | point :: below, mark =>
    match code point, mark with
    | .perform op next, .performed op' answer =>
      if op = op' then some (next answer :: below) else none
    | .call body next, .called => some (body :: next :: below)
    | .spawn _ next, .spawned answer => some (next answer :: below)
    | .ret, .returned => some below
    | _, _ => none

variable {code : σ → Op σ ω ρ} {point : σ} {below : List σ}

theorem step_perform {op : ω} {next : ρ → σ} (h : code point = .perform op next) (answer : ρ) :
    step code (point :: below) (.performed op answer) = some (next answer :: below) := by
  simp [step, h]

theorem step_call {body next : σ} (h : code point = .call body next) :
    step code (point :: below) .called = some (body :: next :: below) := by
  simp [step, h]

theorem step_spawn {body : σ} {next : ρ → σ} (h : code point = .spawn body next) (answer : ρ) :
    step code (point :: below) (.spawned answer) = some (next answer :: below) := by
  simp [step, h]

theorem step_ret (h : code point = .ret) :
    step code (point :: below) .returned = some below := by
  simp [step, h]

inductive Step (code : σ → Op σ ω ρ) : List σ → Mark ω ρ → List σ → Prop
  | perform (point : σ) (below : List σ) (op : ω) (next : ρ → σ) (answer : ρ)
      (hcode : code point = .perform op next) :
      Step code (point :: below) (.performed op answer) (next answer :: below)
  | call (point : σ) (below : List σ) (body next : σ) (hcode : code point = .call body next) :
      Step code (point :: below) .called (body :: next :: below)
  | spawn (point : σ) (below : List σ) (body : σ) (next : ρ → σ) (answer : ρ)
      (hcode : code point = .spawn body next) :
      Step code (point :: below) (.spawned answer) (next answer :: below)
  | ret (point : σ) (below : List σ) (hcode : code point = .ret) :
      Step code (point :: below) .returned below

theorem step_cases {points points' : List σ} {mark : Mark ω ρ}
    (h : step code points mark = some points') : Step code points mark points' := by
  cases points with
  | nil => cases h
  | cons point below =>
    cases hcode : code point with
    | perform op next =>
      cases mark with
      | performed op' answer =>
        simp only [step, hcode, Option.ite_none_right_eq_some, Option.some.injEq] at h
        obtain ⟨rfl, rfl⟩ := h
        exact .perform point below op next answer hcode
      | called | spawned | returned => simp [step, hcode] at h
    | call body next =>
      cases mark with
      | called =>
        simp only [step, hcode, Option.some.injEq] at h
        obtain rfl := h
        exact .call point below body next hcode
      | performed | spawned | returned => simp [step, hcode] at h
    | spawn body next =>
      cases mark with
      | spawned answer =>
        simp only [step, hcode, Option.some.injEq] at h
        obtain rfl := h
        exact .spawn point below body next answer hcode
      | performed | called | returned => simp [step, hcode] at h
    | ret =>
      cases mark with
      | returned =>
        simp only [step, hcode, Option.some.injEq] at h
        obtain rfl := h
        exact .ret point below hcode
      | performed | called | spawned => simp [step, hcode] at h

/-- From one stack only the answers can differ. -/
theorem mark_eq_of_step {points points₁ points₂ : List σ} {mark₁ mark₂ : Mark ω ρ}
    (h₁ : step code points mark₁ = some points₁) (h₂ : step code points mark₂ = some points₂)
    (hanswers : ∀ answer₁ ∈ mark₁.answer, ∀ answer₂ ∈ mark₂.answer, answer₁ = answer₂) :
    mark₁ = mark₂ := by
  cases step_cases h₁ with
  | perform point below op next answer hcode =>
    cases step_cases h₂ with
    | perform _ _ op' next' answer' hcode' =>
      rw [hcode] at hcode'
      obtain ⟨rfl, -⟩ := Op.perform.inj hcode'
      rw [hanswers answer rfl answer' rfl]
    | call _ _ _ _ hcode' | spawn _ _ _ _ _ hcode' | ret _ _ hcode' => simp [hcode] at hcode'
  | call point below body next hcode =>
    cases step_cases h₂ with
    | call => rfl
    | perform _ _ _ _ _ hcode' | spawn _ _ _ _ _ hcode' | ret _ _ hcode' =>
      simp [hcode] at hcode'
  | spawn point below body next answer hcode =>
    cases step_cases h₂ with
    | spawn _ _ _ _ answer' => rw [hanswers answer rfl answer' rfl]
    | perform _ _ _ _ _ hcode' | call _ _ _ _ hcode' | ret _ _ hcode' => simp [hcode] at hcode'
  | ret point below hcode =>
    cases step_cases h₂ with
    | ret => rfl
    | perform _ _ _ _ _ hcode' | call _ _ _ _ hcode' | spawn _ _ _ _ _ hcode' =>
      simp [hcode] at hcode'

/-- Of two runs from one stack with answers that agree as far as both go, one
continues the other. -/
theorem comparable_of_answers {points points₁ points₂ : List σ} {log₁ log₂ : List (Mark ω ρ)}
    (h₁ : Runs.exec (step code) points log₁ = some points₁)
    (h₂ : Runs.exec (step code) points log₂ = some points₂)
    (hanswers : answers log₁ <+: answers log₂ ∨ answers log₂ <+: answers log₁) :
    log₁ <+: log₂ ∨ log₂ <+: log₁ := by
  induction log₁ generalizing points log₂ with
  | nil => exact Or.inl (List.nil_prefix ..)
  | cons mark₁ rest₁ ih =>
    cases log₂ with
    | nil => exact Or.inr (List.nil_prefix ..)
    | cons mark₂ rest₂ =>
      obtain ⟨next₁, hstep₁, hrest₁⟩ := Runs.exec_cons_eq_some.mp h₁
      obtain ⟨next₂, hstep₂, hrest₂⟩ := Runs.exec_cons_eq_some.mp h₂
      rw [answers_cons, answers_cons] at hanswers
      have hmark : mark₁ = mark₂ := by
        refine mark_eq_of_step hstep₁ hstep₂ ?_
        intro answer₁ hanswer₁ answer₂ hanswer₂
        rw [Option.mem_def] at hanswer₁ hanswer₂
        simp only [hanswer₁, hanswer₂, Option.toList_some, List.singleton_append,
          List.cons_prefix_cons] at hanswers
        exact hanswers.elim And.left fun hfirst => hfirst.1.symm
      subst hmark
      obtain rfl := Option.some.inj (hstep₁.symm.trans hstep₂)
      rw [List.prefix_append_right_inj, List.prefix_append_right_inj] at hanswers
      rw [List.prefix_cons_inj, List.prefix_cons_inj]
      exact ih hrest₁ hrest₂ hanswers

/-- Nothing follows the run that has emptied the stack. -/
theorem eq_of_continued {points points' : List σ} {log log' : List (Mark ω ρ)}
    (h : Runs.exec (step code) points log = some [])
    (h' : Runs.exec (step code) points log' = some points') (hcontinues : log <+: log') :
    log = log' := by
  obtain ⟨rest, rfl⟩ := hcontinues
  rw [Runs.exec_append, h] at h'
  cases rest with
  | nil => rw [List.append_nil]
  | cons mark rest => cases h'

end Bc.CallStacks
