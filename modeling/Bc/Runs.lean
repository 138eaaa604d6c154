import Mathlib.Data.List.Basic

/-!
Runs of a machine given by a partial step function. An action that is not
possible in a state, and one after which nothing is promised, have no
successor. The invariant rule and the simulation rule are stated once here.
-/
namespace Bc.Runs

variable {σ τ α β : Type*}

def exec (step : σ → α → Option σ) : σ → List α → Option σ
  | s, [] => some s
  | s, a :: rest => (step s a).bind fun s' => exec step s' rest

/-- Every step that the run takes meets `P` in the state before it. -/
def Along (step : σ → α → Option σ) (P : σ → α → Prop) : σ → List α → Prop
  | _, [] => True
  | s, a :: rest => P s a ∧ (step s a).elim True fun s' => Along step P s' rest

/-- Every state that the run reaches satisfies `Q`, the first one included. -/
def Throughout (step : σ → α → Option σ) (Q : σ → Prop) : σ → List α → Prop
  | s, [] => Q s
  | s, a :: rest => Q s ∧ (step s a).elim True fun s' => Throughout step Q s' rest

/-- What a run shows of itself, step by step. -/
def trace (step : σ → α → Option σ) (label : σ → α → List β) : σ → List α → List β
  | _, [] => []
  | s, a :: rest => label s a ++ (step s a).elim [] fun s' => trace step label s' rest

variable {step : σ → α → Option σ}

theorem throughout_cons {Q : σ → Prop} {s : σ} {a : α} {rest : List α} :
    Throughout step Q s (a :: rest) ↔
      Q s ∧ ∀ s', step s a = some s' → Throughout step Q s' rest := by
  cases h : step s a <;> simp [Throughout, h]

theorem throughout_head {Q : σ → Prop} {s : σ} {acts : List α}
    (h : Throughout step Q s acts) : Q s := by
  cases acts with
  | nil => exact h
  | cons a rest => exact h.1

theorem Throughout.mono {Q Q' : σ → Prop} (h : ∀ s, Q s → Q' s) {s : σ} {acts : List α}
    (hQ : Throughout step Q s acts) : Throughout step Q' s acts := by
  induction acts generalizing s with
  | nil => exact h s hQ
  | cons a rest ih =>
    obtain ⟨hfirst, hrest⟩ := throughout_cons.mp hQ
    exact throughout_cons.mpr ⟨h s hfirst, fun s' hs' => ih (hrest s' hs')⟩

theorem along_cons {P : σ → α → Prop} {s : σ} {a : α} {rest : List α} :
    Along step P s (a :: rest) ↔
      P s a ∧ ∀ s', step s a = some s' → Along step P s' rest := by
  cases h : step s a <;> simp [Along, h]

instance decidableAlong (P : σ → α → Prop) [∀ s a, Decidable (P s a)] :
    (s : σ) → (acts : List α) → Decidable (Along step P s acts)
  | _, [] => inferInstanceAs (Decidable True)
  | s, a :: rest =>
    have : Decidable ((step s a).elim True fun s' => Along step P s' rest) :=
      match step s a with
      | none => inferInstanceAs (Decidable True)
      | some s' => decidableAlong P s' rest
    inferInstanceAs (Decidable (_ ∧ _))

theorem exec_cons_eq_some {s t : σ} {a : α} {rest : List α} :
    exec step s (a :: rest) = some t ↔
      ∃ s', step s a = some s' ∧ exec step s' rest = some t := by
  simp only [exec, Option.bind_eq_some_iff]

theorem exec_one {s t : σ} {a : α} (h : step s a = some t) : exec step s [a] = some t := by
  simp only [exec, h, Option.bind_some]

theorem exec_append {s : σ} (left right : List α) :
    exec step s (left ++ right) = (exec step s left).bind fun t => exec step t right := by
  induction left generalizing s with
  | nil => rfl
  | cons a rest ih =>
    cases h : step s a with
    | none => simp [exec, h]
    | some s' => simp [exec, h, ih]

theorem along_append {P : σ → α → Prop} {s : σ} {left right : List α} :
    Along step P s (left ++ right) ↔
      Along step P s left ∧ ∀ t, exec step s left = some t → Along step P t right := by
  induction left generalizing s with
  | nil => simp [Along, exec]
  | cons a rest ih =>
    rw [List.cons_append, along_cons, along_cons, and_assoc]
    refine and_congr_right fun _ => ?_
    cases h : step s a with
    | none => simp [exec, h]
    | some s' => simpa [exec, h] using ih

theorem Along.mono {P Q : σ → α → Prop} (h : ∀ s a, P s a → Q s a) {s : σ} {acts : List α}
    (hP : Along step P s acts) : Along step Q s acts := by
  induction acts generalizing s with
  | nil => trivial
  | cons a rest ih =>
    obtain ⟨hfirst, hrest⟩ := along_cons.mp hP
    exact along_cons.mpr ⟨h s a hfirst, fun s' hs' => ih (hrest s' hs')⟩

/-- A predicate that every step meeting `P` preserves holds after every run
all of whose steps meet `P`. -/
theorem exec_invariant {I : σ → Prop} {P : σ → α → Prop}
    (hstep : ∀ s a s', I s → P s a → step s a = some s' → I s')
    {s t : σ} {acts : List α} (hs : I s) (hP : Along step P s acts)
    (hrun : exec step s acts = some t) : I t := by
  induction acts generalizing s with
  | nil =>
    obtain rfl := Option.some.inj hrun
    exact hs
  | cons a rest ih =>
    obtain ⟨s', ha, hrest⟩ := exec_cons_eq_some.mp hrun
    obtain ⟨hPs, hPrest⟩ := along_cons.mp hP
    exact ih (hstep s a s' hs hPs ha) (hPrest s' ha) hrest

/-- The invariant rule without a condition on the steps. -/
theorem exec_preserves {I : σ → Prop}
    (hstep : ∀ s a s', I s → step s a = some s' → I s')
    {s t : σ} {acts : List α} (hs : I s) (hrun : exec step s acts = some t) : I t := by
  induction acts generalizing s with
  | nil =>
    obtain rfl := Option.some.inj hrun
    exact hs
  | cons a rest ih =>
    obtain ⟨s', ha, hrest⟩ := exec_cons_eq_some.mp hrun
    exact ih (hstep s a s' hs ha) hrest

/-- What no step brings about held all the way, if it holds at the end. -/
theorem throughout_of_last {I Q : σ → Prop} (hI : ∀ s a s', I s → step s a = some s' → I s')
    (hback : ∀ s a s', I s → step s a = some s' → Q s' → Q s)
    {s t : σ} {acts : List α} (hs : I s) (hrun : exec step s acts = some t) (hQ : Q t) :
    Throughout step Q s acts := by
  induction acts generalizing s with
  | nil =>
    obtain rfl := Option.some.inj hrun
    exact hQ
  | cons a rest ih =>
    obtain ⟨u, hu, hrest⟩ := exec_cons_eq_some.mp hrun
    have hlater := ih (hI s a u hs hu) hrest
    refine throughout_cons.mpr ⟨hback s a u hs hu (throughout_head hlater), ?_⟩
    intro v hv
    obtain rfl := Option.some.inj (hu.symm.trans hv)
    exact hlater

theorem throughout_last {Q : σ → Prop} {s t : σ} {acts : List α}
    (h : Throughout step Q s acts) (hrun : exec step s acts = some t) : Q t := by
  induction acts generalizing s with
  | nil =>
    obtain rfl := Option.some.inj hrun
    exact h
  | cons a rest ih =>
    obtain ⟨u, hu, hrest⟩ := exec_cons_eq_some.mp hrun
    exact ih ((throughout_cons.mp h).2 u hu) hrest

/-- Where an invariant `I` makes `P` the exact condition for a step to keep
`Q`, a run keeps `Q` throughout exactly when all of its steps meet `P`. -/
theorem throughout_iff_along {I Q : σ → Prop} {P : σ → α → Prop}
    (hI : ∀ s a s', I s → step s a = some s' → I s')
    (hstep : ∀ s a s', I s → Q s → step s a = some s' → (Q s' ↔ P s a))
    {s t : σ} {acts : List α} (hs : I s) (hQ : Q s) (hrun : exec step s acts = some t) :
    Throughout step Q s acts ↔ Along step P s acts := by
  induction acts generalizing s with
  | nil => exact ⟨fun _ => trivial, fun _ => hQ⟩
  | cons a rest ih =>
    obtain ⟨u, hu, hrest⟩ := exec_cons_eq_some.mp hrun
    have hiff := hstep s a u hs hQ hu
    have hnext : ∀ hQ' : Q u, Throughout step Q u rest ↔ Along step P u rest :=
      fun hQ' => ih (hI s a u hs hu) hQ' hrest
    rw [throughout_cons, along_cons]
    simp only [hu, Option.some.injEq, forall_eq']
    constructor
    · intro h
      obtain ⟨-, hthrough⟩ := h
      have hQ' : Q u := throughout_head hthrough
      exact ⟨hiff.mp hQ', (hnext hQ').mp hthrough⟩
    · intro h
      obtain ⟨hP, halong⟩ := h
      exact ⟨hQ, (hnext (hiff.mpr hP)).mpr halong⟩

/-- Where every step that counts uses up some of a measure, and no step adds to it,
the measure bounds how many of them a run can take. -/
theorem exec_countP_le {I : σ → Prop} {measure : σ → ℕ} {counts : α → Bool}
    (hI : ∀ s a s', I s → step s a = some s' → I s')
    (hstep : ∀ s a s', I s → step s a = some s' → measure s' + (counts a).toNat ≤ measure s)
    {s t : σ} {acts : List α} (hs : I s) (hrun : exec step s acts = some t) :
    acts.countP counts + measure t ≤ measure s := by
  induction acts generalizing s with
  | nil =>
    obtain rfl := Option.some.inj hrun
    exact Nat.le_of_eq (Nat.zero_add (measure s))
  | cons a rest ih =>
    obtain ⟨u, hu, hrest⟩ := exec_cons_eq_some.mp hrun
    have hfirst := hstep s a u hs hu
    have hlater := ih (hI s a u hs hu) hrest
    rw [List.countP_cons]
    cases hcounts : counts a <;> simp only [hcounts, Bool.toNat_false, Bool.toNat_true] at hfirst
    · simp only [Bool.false_eq_true, if_false]
      omega
    · simp only [if_true]
      omega

/-- Where, besides, a step that counts is possible until the end, such steps alone
lead to it. -/
theorem exists_exec_of_progress {I Done : σ → Prop} {measure : σ → ℕ} {counts : α → Bool}
    (hI : ∀ s a s', I s → step s a = some s' → I s')
    (hstep : ∀ s a s', I s → step s a = some s' → measure s' + (counts a).toNat ≤ measure s)
    (hprogress : ∀ s, I s → ¬Done s → ∃ a s', counts a = true ∧ step s a = some s')
    {s : σ} (hs : I s) :
    ∃ acts t, exec step s acts = some t ∧ Done t ∧ (∀ a ∈ acts, counts a = true) ∧
      acts.length ≤ measure s := by
  have aux : ∀ n s, I s → measure s = n → ∃ acts t, exec step s acts = some t ∧ Done t ∧
      (∀ a ∈ acts, counts a = true) ∧ acts.length ≤ n := by
    intro n
    induction n using Nat.strongRecOn with
    | ind n ih =>
      intro s hs hn
      by_cases hdone : Done s
      · exact ⟨[], s, rfl, hdone, by simp, Nat.zero_le n⟩
      · obtain ⟨a, u, hcounts, hu⟩ := hprogress s hs hdone
        have hless := hstep s a u hs hu
        rw [hcounts, Bool.toNat_true] at hless
        obtain ⟨acts, t, hrun, ht, hall, hlength⟩ :=
          ih (measure u) (by omega) u (hI s a u hs hu) rfl
        refine ⟨a :: acts, t, exec_cons_eq_some.mpr ⟨u, hu, hrun⟩, ht, ?_, ?_⟩
        · intro b hb
          rcases List.mem_cons.mp hb with rfl | hlater
          · exact hcounts
          · exact hall b hlater
        · rw [List.length_cons]
          omega
  exact aux (measure s) s hs rfl

/-- Where the steps of one machine that meet `P` are matched by the same steps of
another one, so are its runs. -/
theorem exec_matched {step' : τ → α → Option τ} {R : σ → τ → Prop} {P : σ → α → Prop}
    (hstep : ∀ s a s' t, R s t → P s a → step s a = some s' → ∃ t', step' t a = some t' ∧ R s' t')
    {s s' : σ} {t : τ} {acts : List α} (hR : R s t) (hP : Along step P s acts)
    (hrun : exec step s acts = some s') : ∃ t', exec step' t acts = some t' ∧ R s' t' := by
  induction acts generalizing s t with
  | nil =>
    obtain rfl := Option.some.inj hrun
    exact ⟨t, rfl, hR⟩
  | cons a rest ih =>
    obtain ⟨u, hu, hrest⟩ := exec_cons_eq_some.mp hrun
    obtain ⟨hfirst, hlater⟩ := along_cons.mp hP
    obtain ⟨v, hv, hmatched⟩ := hstep s a u t hR hfirst hu
    obtain ⟨t', ht', hend⟩ := ih hmatched (hlater u hu) hrest
    exact ⟨t', exec_cons_eq_some.mpr ⟨v, hv, ht'⟩, hend⟩

/-- Where every step of one machine is a run of another, so is every run. -/
theorem exec_simulation {step' : τ → β → Option τ} (view : τ → σ)
    (hstep : ∀ t b t', step' t b = some t' → ∃ acts, exec step (view t) acts = some (view t'))
    {t t' : τ} {acts' : List β} (hrun : exec step' t acts' = some t') :
    ∃ acts, exec step (view t) acts = some (view t') := by
  induction acts' generalizing t with
  | nil =>
    obtain rfl := Option.some.inj hrun
    exact ⟨[], rfl⟩
  | cons b rest ih =>
    obtain ⟨u, hb, hrest⟩ := exec_cons_eq_some.mp hrun
    obtain ⟨first, hfirst⟩ := hstep t b u hb
    obtain ⟨later, hlater⟩ := ih hrest
    refine ⟨first ++ later, ?_⟩
    rw [exec_append, hfirst]
    exact hlater

/-- Where what each step shows is a run of another machine, so is what a run shows. -/
theorem exec_trace {step' : τ → β → Option τ} {view : σ → τ} {label : σ → α → List β}
    {I : σ → Prop} (hI : ∀ s a s', I s → step s a = some s' → I s')
    (hstep : ∀ s a s', I s → step s a = some s' →
      exec step' (view s) (label s a) = some (view s'))
    {s t : σ} {acts : List α} (hs : I s) (hrun : exec step s acts = some t) :
    exec step' (view s) (trace step label s acts) = some (view t) := by
  induction acts generalizing s with
  | nil =>
    obtain rfl := Option.some.inj hrun
    rfl
  | cons a rest ih =>
    obtain ⟨u, hu, hrest⟩ := exec_cons_eq_some.mp hrun
    rw [trace, hu, Option.elim_some, exec_append, hstep s a u hs hu, Option.bind_some]
    exact ih (hI s a u hs hu) hrest

/-- The invariant rule with what the run has shown so far. -/
theorem trace_invariant {label : σ → α → List β} {I : σ → List β → Prop}
    (hstep : ∀ s shown a s', I s shown → step s a = some s' → I s' (shown ++ label s a))
    {s t : σ} {shown : List β} {acts : List α} (hs : I s shown)
    (hrun : exec step s acts = some t) : I t (shown ++ trace step label s acts) := by
  induction acts generalizing s shown with
  | nil =>
    obtain rfl := Option.some.inj hrun
    rw [trace, List.append_nil]
    exact hs
  | cons a rest ih =>
    obtain ⟨u, hu, hrest⟩ := exec_cons_eq_some.mp hrun
    rw [trace, hu, Option.elim_some, ← List.append_assoc]
    exact ih (hstep s shown a u hs hu) hrest

theorem trace_append {label : σ → α → List β} {s t : σ} {left : List α} (right : List α)
    (h : exec step s left = some t) :
    trace step label s (left ++ right) = trace step label s left ++ trace step label t right := by
  induction left generalizing s with
  | nil =>
    obtain rfl := Option.some.inj h
    rfl
  | cons a rest ih =>
    obtain ⟨u, hu, hrest⟩ := exec_cons_eq_some.mp h
    rw [List.cons_append, trace, trace, hu, Option.elim_some, Option.elim_some, ih hrest,
      List.append_assoc]

end Bc.Runs
