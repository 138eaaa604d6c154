import Mathlib.Data.List.Pairwise
import Mathlib.Order.Lattice

/-!
A map with ordered keys as the list of its entries. It is walked in the order
of the keys, and an entry that is looked for and missing is made first.
-/
namespace Bc.OrderedMaps

variable {κ β : Type*} [LinearOrder κ]

/-- Change the value of `key`; a new key starts with `fresh`. -/
def insertWith (fresh : β) (key : κ) (f : β → β) : List (κ × β) → List (κ × β)
  | [] => [(key, f fresh)]
  | (k, v) :: rest =>
    if key < k then (key, f fresh) :: (k, v) :: rest
    else if key = k then (k, f v) :: rest
    else (k, v) :: insertWith fresh key f rest

/-- The value of `key`, or `fresh` if it has none. -/
def find (fresh : β) (key : κ) : List (κ × β) → β
  | [] => fresh
  | (k, v) :: rest => if key = k then v else find fresh key rest

theorem mem_keys_insertWith (fresh : β) (key : κ) (f : β → β) (entries : List (κ × β)) (k : κ) :
    k ∈ (insertWith fresh key f entries).map Prod.fst ↔ k = key ∨ k ∈ entries.map Prod.fst := by
  induction entries with
  | nil => simp [insertWith]
  | cons entry rest ih =>
    obtain ⟨k', v⟩ := entry
    unfold insertWith
    split_ifs with hlt heq
    · simp
    · subst heq
      simp
    · rw [List.map_cons, List.mem_cons, ih, List.map_cons, List.mem_cons]
      exact or_left_comm

theorem find_eq_fresh {fresh : β} {key : κ} {entries : List (κ × β)}
    (h : key ∉ entries.map Prod.fst) : find fresh key entries = fresh := by
  induction entries with
  | nil => rfl
  | cons entry rest ih =>
    simp only [List.map_cons, List.mem_cons, not_or] at h
    simp only [find, h.1, if_false]
    exact ih h.2

def Sorted (entries : List (κ × β)) : Prop := (entries.map Prod.fst).Pairwise (· < ·)

theorem sorted_insertWith {entries : List (κ × β)} (h : Sorted entries) (fresh : β) (key : κ)
    (f : β → β) : Sorted (insertWith fresh key f entries) := by
  induction entries with
  | nil => exact List.pairwise_singleton _ _
  | cons entry rest ih =>
    obtain ⟨k, v⟩ := entry
    obtain ⟨hfirst, hrest⟩ := List.pairwise_cons.mp h
    unfold insertWith
    split_ifs with hlt heq
    · refine List.pairwise_cons.mpr ⟨?_, h⟩
      intro k' hk'
      rcases List.mem_cons.mp hk' with rfl | hlater
      · exact hlt
      · exact hlt.trans (hfirst k' hlater)
    · exact h
    · refine List.pairwise_cons.mpr ⟨?_, ih hrest⟩
      intro k' hk'
      rcases (mem_keys_insertWith fresh key f rest k').mp hk' with rfl | hlater
      · exact lt_of_le_of_ne (not_lt.mp hlt) (Ne.symm heq)
      · exact hfirst k' hlater

theorem find_insertWith {entries : List (κ × β)} (h : Sorted entries) (fresh : β) (key : κ)
    (f : β → β) (k : κ) :
    find fresh k (insertWith fresh key f entries) =
      if k = key then f (find fresh key entries) else find fresh k entries := by
  induction entries with
  | nil => rfl
  | cons entry rest ih =>
    obtain ⟨k', v⟩ := entry
    obtain ⟨hfirst, hrest⟩ := List.pairwise_cons.mp h
    unfold insertWith
    by_cases hlt : key < k'
    · -- A key before the first one has no entry yet.
      have hmissing : key ∉ ((k', v) :: rest).map Prod.fst := by
        intro hmem
        rcases List.mem_cons.mp hmem with rfl | hlater
        · exact lt_irrefl _ hlt
        · exact lt_asymm hlt (hfirst key hlater)
      rw [if_pos hlt, find_eq_fresh hmissing, find]
    · rw [if_neg hlt]
      by_cases heq : key = k'
      · subst heq
        simp only [if_true, find]
        split <;> rfl
      · simp only [heq, if_false, find, ih hrest]
        by_cases hk : k = k'
        · have hne : k ≠ key := fun h => heq (h.symm.trans hk)
          simp only [hk, if_true, if_neg (hk ▸ hne)]
        · simp only [hk, if_false]

/-- A map from `κ` to `β`; `entries` are those from an iterator on. -/
structure OrderedMap (κ β : Type*) [LinearOrder κ] where
  entries : List (κ × β)
  sorted : Sorted entries
  deriving DecidableEq

namespace OrderedMap

def empty : OrderedMap κ β := ⟨[], List.Pairwise.nil⟩

def keys (m : OrderedMap κ β) : List κ := m.entries.map Prod.fst

def valueAt [Inhabited β] (m : OrderedMap κ β) (key : κ) : β := find default key m.entries

/-- `f(map[key])` in place. -/
def modify [Inhabited β] (m : OrderedMap κ β) (key : κ) (f : β → β) : OrderedMap κ β :=
  ⟨insertWith default key f m.entries, sorted_insertWith m.sorted default key f⟩

def tail (m : OrderedMap κ β) : OrderedMap κ β :=
  ⟨m.entries.tail, by
    rw [Sorted, List.map_tail]
    exact m.sorted.tail⟩

theorem mem_keys_modify [Inhabited β] (m : OrderedMap κ β) (key : κ) (f : β → β) (k : κ) :
    k ∈ (m.modify key f).keys ↔ k = key ∨ k ∈ m.keys :=
  mem_keys_insertWith default key f m.entries k

theorem valueAt_modify [Inhabited β] (m : OrderedMap κ β) (key : κ) (f : β → β) (k : κ) :
    (m.modify key f).valueAt k = if k = key then f (m.valueAt key) else m.valueAt k :=
  find_insertWith m.sorted default key f k

/-- The first entry of a walk, and what is left of it. -/
structure First [Inhabited β] (m : OrderedMap κ β) (key : κ) (value : β) : Prop where
  valueAt_key : m.valueAt key = value
  valueAt_tail : ∀ k, m.tail.valueAt k = if k = key then default else m.valueAt k
  mem_keys : ∀ k, k ∈ m.keys ↔ k = key ∨ k ∈ m.tail.keys
  not_mem_tail : key ∉ m.tail.keys

theorem first_of_cons [Inhabited β] {m : OrderedMap κ β} {key : κ} {value : β}
    {rest : List (κ × β)} (h : m.entries = (key, value) :: rest) : First m key value := by
  have hsorted := m.sorted
  rw [Sorted, h, List.map_cons, List.pairwise_cons] at hsorted
  have htail : m.tail.entries = rest := by
    simp only [tail, h, List.tail_cons]
  have hmissing : key ∉ rest.map Prod.fst := fun hmem => lt_irrefl _ (hsorted.1 key hmem)
  refine ⟨by simp [valueAt, h, find], ?_, by simp [keys, h, htail], by rwa [keys, htail]⟩
  intro k
  rw [valueAt, valueAt, htail, h]
  by_cases hk : k = key
  · subst hk
    rw [if_pos rfl, find_eq_fresh hmissing]
  · simp [find, hk]

theorem valueAt_of_nil [Inhabited β] {m : OrderedMap κ β} (h : m.entries = []) (k : κ) :
    m.valueAt k = default := by
  rw [valueAt, h]
  rfl

end OrderedMap

end Bc.OrderedMaps
