import Bc.Awaiters
import Bc.Overloads

/-!
Values that are expected and may be errors instead. `has_value` visits the variant with
two handlers, and everything else asks it. The first handler also takes the errors that
convert to a value.
-/
namespace Bc.ExpectedValues

open Overloads

/-- What comes of a call: `badAccess` is `std::get` of the alternative that is not stored,
and `thrown` the exception of a conversion. Both end the process in a `noexcept` function,
and a failed assertion does everywhere. -/
inductive Outcome (α : Type*)
  | returned (a : α)
  | assertion
  | badAccess
  | thrown
  deriving DecidableEq

namespace Outcome

variable {α β : Type*}

def bind (f : α → Outcome β) : Outcome α → Outcome β
  | returned a => f a
  | assertion => assertion
  | badAccess => badAccess
  | thrown => thrown

def asserting (condition : Option Bool) (rest : Outcome α) : Outcome α :=
  match condition with
  | none => thrown
  | some true => rest
  | some false => assertion

end Outcome

variable {ι : Type*} {V : ι → Type} {T E G : ι}

structure Unexpected (V : ι → Type) (G : ι) where
  error : V G

/-- `value_` is a `std::variant`. Its converting constructor takes the alternative of the
argument's own type where there is one. -/
structure Expected (V : ι → Type) (T E : ι) where
  value : V T ⊕ V E

namespace Expected

def inPlace (t : V T) : Expected V T E := ⟨.inl t⟩

def unexpect (e : V E) : Expected V T E := ⟨.inr e⟩

/-- Which alternative an error of another type becomes is for overload resolution to say. -/
def ofUnexpected (alternative : V G → V T ⊕ V E) (u : Unexpected V G) : Expected V T E :=
  ⟨alternative u.error⟩

def handlers (V : ι → Type) (T E : ι) : List (Handler V Bool) :=
  [⟨T, fun _ => some true⟩, ⟨E, fun _ => some false⟩]

def hasValue (C : Conversions V) (x : Expected V T E) : Option Bool :=
  match x.value with
  | .inl t => call C (handlers V T E) t
  | .inr e => call C (handlers V T E) e

def getValue (x : Expected V T E) : Outcome (V T) :=
  match x.value with
  | .inl t => .returned t
  | .inr _ => .badAccess

def getError (x : Expected V T E) : Outcome (V E) :=
  match x.value with
  | .inl _ => .badAccess
  | .inr e => .returned e

/-- `operator*`, and `value` like it. -/
def deref (C : Conversions V) (x : Expected V T E) : Outcome (V T) :=
  .asserting (x.hasValue C) x.getValue

def error (C : Conversions V) (x : Expected V T E) : Outcome (V E) :=
  .asserting ((x.hasValue C).map not) x.getError

/-- `construct` is `T {value}`. -/
def valueOr {U : Type} (C : Conversions V) (construct : U → Outcome (V T)) (value : U)
    (x : Expected V T E) : Outcome (V T) :=
  match x.hasValue C with
  | none => .thrown
  | some true => x.deref C
  | some false => construct value

/-- `construct` is `U(unexpect, error())`. -/
def andThen {U : Type} (C : Conversions V) (f : V T → Outcome U) (construct : V E → Outcome U)
    (x : Expected V T E) : Outcome U :=
  match x.hasValue C with
  | none => .thrown
  | some true => (x.deref C).bind f
  | some false => (x.error C).bind construct

/-- The members go by the alternative that is stored. For an error none of them gets to
`std::get<T>`. -/
structure ByAlternative (C : Conversions V) (x : Expected V T E) : Prop where
  has_value : x.hasValue C = some x.value.isLeft
  deref : x.deref C = x.value.elim .returned fun _ => .assertion
  error : x.error C = x.value.elim (fun _ => .assertion) .returned
  value_or : ∀ (U : Type) (construct : U → Outcome (V T)) (value : U),
    x.valueOr C construct value = x.value.elim .returned fun _ => construct value
  and_then : ∀ (U : Type) (f : V T → Outcome U) (construct : V E → Outcome U),
    x.andThen C f construct = x.value.elim f construct

section Members

variable {C : Conversions V}

theorem hasValue_value (t : V T) : (⟨.inl t⟩ : Expected V T E).hasValue C = some true := by
  have hcall : call C (handlers V T E) t = some true := by
    rw [handlers, call_cons_of_converts (C.converts_self T), apply_self]
  exact hcall

/-- An error that does not convert to a value gets to the handler for errors. -/
theorem hasValue_error (h : ¬C.Converts E T) (e : V E) :
    (⟨.inr e⟩ : Expected V T E).hasValue C = some false := by
  have hown : (handlers V T E).Pairwise fun f g => ¬C.Converts g.param f.param :=
    List.pairwise_pair.mpr h
  have hmem : (⟨E, fun _ => some false⟩ : Handler V Bool) ∈ handlers V T E :=
    List.mem_cons_of_mem _ List.mem_cons_self
  exact call_own hown hmem e

theorem hasValue_converted (h : C.Converts E T) (e : V E) :
    (⟨.inr e⟩ : Expected V T E).hasValue C ≠ some false := by
  have hcall : call C (handlers V T E) e = Handler.apply C ⟨T, fun _ => some true⟩ e := by
    rw [handlers, call_cons_of_converts h]
  intro hfalse
  have happly := hcall.symm.trans hfalse
  rw [Handler.apply] at happly
  obtain ⟨conversion, -, hconverted⟩ := Option.bind_eq_some_iff.mp happly
  obtain ⟨t, -, htrue⟩ := Option.bind_eq_some_iff.mp hconverted
  cases htrue

/-- Behind a wrong answer a value is taken out of an error. -/
theorem deref_of_hasValue {e : V E} (h : (⟨.inr e⟩ : Expected V T E).hasValue C = some true) :
    (⟨.inr e⟩ : Expected V T E).deref C = .badAccess := by
  rw [deref, h]
  rfl

theorem valueOr_of_hasValue {e : V E} {U : Type}
    (h : (⟨.inr e⟩ : Expected V T E).hasValue C = some true) (construct : U → Outcome (V T))
    (value : U) : (⟨.inr e⟩ : Expected V T E).valueOr C construct value = .badAccess := by
  rw [valueOr, h, ← deref_of_hasValue h]

theorem andThen_of_hasValue {e : V E} {U : Type}
    (h : (⟨.inr e⟩ : Expected V T E).hasValue C = some true) (f : V T → Outcome U)
    (construct : V E → Outcome U) : (⟨.inr e⟩ : Expected V T E).andThen C f construct =
      .badAccess := by
  rw [andThen, h]
  simp only [deref_of_hasValue h, Outcome.bind]

/-- All that the members need is the answer of `has_value`. -/
theorem byAlternative_of_hasValue {x : Expected V T E} (h : x.hasValue C = some x.value.isLeft) :
    ByAlternative C x := by
  obtain ⟨t | e⟩ := x
  · refine ⟨h, ?_, ?_, fun U construct value => ?_, fun U f construct => ?_⟩
    · rw [deref, h]
      rfl
    · rw [error, h]
      rfl
    · rw [valueOr, deref, h]
      rfl
    · rw [andThen, deref, h]
      rfl
  · refine ⟨h, ?_, ?_, fun U construct value => ?_, fun U f construct => ?_⟩
    · rw [deref, h]
      rfl
    · rw [error, h]
      rfl
    · rw [valueOr, h]
      rfl
    · rw [andThen, error, h]
      rfl

theorem byAlternative_value (t : V T) : ByAlternative C (⟨.inl t⟩ : Expected V T E) :=
  byAlternative_of_hasValue (hasValue_value t)

theorem byAlternative_error (h : ¬C.Converts E T) (e : V E) :
    ByAlternative C (⟨.inr e⟩ : Expected V T E) :=
  byAlternative_of_hasValue (hasValue_error h e)

/-- What an `expected` stands for where its errors do not convert to values. -/
def toExcept (x : Expected V T E) : Except (V E) (V T) := x.value.elim .ok .error

theorem hasValue_toExcept (h : ¬C.Converts E T) (x : Expected V T E) :
    x.hasValue C = some x.toExcept.toBool := by
  obtain ⟨t | e⟩ := x
  · exact hasValue_value t
  · exact hasValue_error h e

/-- The second function is not called on an error of the first, which is kept. -/
theorem andThen_toExcept (h : ¬C.Converts E T) (f : V T → Expected V G E) (x : Expected V T E) :
    ∃ y : Expected V G E, x.andThen C (fun t => .returned (f t)) (fun e => .returned (unexpect e)) =
        .returned y ∧ y.toExcept = x.toExcept.bind fun t => (f t).toExcept := by
  obtain ⟨t | e⟩ := x
  · exact ⟨f t, (byAlternative_value t).and_then _ _ _, rfl⟩
  · exact ⟨unexpect e, (byAlternative_error h e).and_then _ _ _, rfl⟩

end Members

/-- A value is always seen as one, and an error as one exactly where its type does not
convert to that of the values. -/
theorem by_alternative_iff (C : Conversions V) (x : Expected V T E) :
    ByAlternative C x ↔ (x.value.isRight = true → ¬C.Converts E T) := by
  obtain ⟨t | e⟩ := x
  · exact iff_of_true (byAlternative_value t) nofun
  · constructor
    · intro h _ hconverts
      exact hasValue_converted hconverts e h.has_value
    · intro h
      exact byAlternative_error (h rfl) e

/-- Three types, of which the numbers convert to each other. -/
inductive SampleType
  | sizeT
  | int
  | errorCode
  deriving DecidableEq

def SampleValue : SampleType → Type
  | .sizeT => BitVec 64
  | .int => BitVec 32
  | .errorCode => Awaiters.ErrorCode

def sampleConversions : Conversions SampleValue where
  convert
    | .sizeT, .sizeT => some some
    | .int, .int => some some
    | .errorCode, .errorCode => some some
    | .int, .sizeT => some fun n => some (BitVec.signExtend 64 n)
    | .sizeT, .int => some fun n => some (BitVec.truncate 32 n)
    | _, _ => none
  convert_self := by
    rintro (_ | _ | _) <;> rfl

/-- The results of reads and writes are of such types. -/
example : ¬sampleConversions.Converts .errorCode .sizeT := by decide

def sampleError : SampleValue .int := (5 : BitVec 32)

/-- An error of type `int` where the values are of type `std::size_t`. -/
theorem converted_error_taken_for_value :
    (¬∀ (T E : SampleType) (x : Expected SampleValue T E) (e : SampleValue E), T ≠ E →
      x.value = .inr e → x.hasValue sampleConversions = some false) ∧
      ∃ x : Expected SampleValue .sizeT .int, x = unexpect sampleError ∧
        x.hasValue sampleConversions = some true ∧ x.deref sampleConversions = .badAccess ∧
          (∀ construct, x.valueOr sampleConversions construct () = .badAccess) ∧
            ∀ f construct, x.andThen sampleConversions f construct =
              (.badAccess : Outcome Unit) := by
  have htrue : (unexpect sampleError : Expected SampleValue .sizeT .int).hasValue
      sampleConversions = some true := rfl
  refine ⟨fun h => ?_, unexpect sampleError, rfl, htrue, ?_, fun construct => ?_,
    fun f construct => ?_⟩
  · have hfalse := h .sizeT .int (unexpect sampleError) sampleError (by decide) rfl
    exact absurd (htrue.symm.trans hfalse) (by decide)
  · exact deref_of_hasValue htrue
  · exact valueOr_of_hasValue htrue construct ()
  · exact andThen_of_hasValue htrue f construct

end Expected

end Bc.ExpectedValues
