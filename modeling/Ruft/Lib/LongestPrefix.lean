import Mathlib.Data.List.Infix

set_option autoImplicit false

/-!
# Longest initial parts

The longest initial part of a list that fits some bound. When what fits still fits after its
front is cut, starting later or having more to take from never ends earlier.
-/

namespace LongestPrefix

variable {α : Type} {fits : List α → Prop} {es es' batch batch' : List α}

/-- The longest initial part of the list that fits. -/
structure Longest (fits : List α → Prop) (es batch : List α) : Prop where
  initial : batch <+: es
  fit : fits batch
  maximal : ∀ longer, longer <+: es → fits longer → longer.length ≤ batch.length

theorem Longest.unique (h : Longest fits es batch) (h' : Longest fits es batch') : batch = batch' := by
  have size := le_antisymm (h'.maximal batch h.initial h.fit) (h.maximal batch' h'.initial h'.fit)
  exact (List.prefix_of_prefix_length_le h.initial h'.initial size.le).eq_of_length size

/-- A longer list has a longer one. -/
theorem Longest.length_mono (h : Longest fits es batch) (h' : Longest fits es' batch')
    (grows : es <+: es') : batch.length ≤ batch'.length :=
  h'.maximal batch (h.initial.trans grows) h.fit

/-- What fits without its first elements. -/
theorem fits_drop (tails : ∀ a rest, rest ≠ [] → fits (a :: rest) → fits rest) {k : Nat}
    (h : fits es) (inside : k < es.length) : fits (es.drop k) := by
  induction k generalizing es with
  | zero => exact h
  | succ k ih =>
    cases es with
    | nil => simp at inside
    | cons a rest =>
      have inside : k < rest.length := by simpa using inside
      have ne : rest ≠ [] := List.ne_nil_of_length_pos (Nat.zero_lt_of_lt inside)
      exact ih (tails a rest ne h) inside

/-- Starting later never ends earlier. -/
theorem Longest.end_mono (tails : ∀ a rest, rest ≠ [] → fits (a :: rest) → fits rest) {k : Nat}
    (h : Longest fits es batch) (h' : Longest fits (es.drop k) batch') :
    batch.length ≤ k + batch'.length := by
  by_cases inside : k < batch.length
  · have part : batch.drop k <+: es.drop k := by
      obtain ⟨tail, rfl⟩ := h.initial
      rw [List.drop_append_of_le_length inside.le]
      exact List.prefix_append _ _
    have le := h'.maximal (batch.drop k) part (fits_drop tails h.fit inside)
    rw [List.length_drop] at le
    omega
  · omega

/-- The first element, and the longest part of the rest that fits behind it. -/
theorem Longest.cons {a : α} {fits' : List α → Prop} (h : Longest fits' es batch)
    (same : ∀ rest, fits (a :: rest) ↔ fits' rest) : Longest fits (a :: es) (a :: batch) where
  initial := (List.prefix_cons_inj a).mpr h.initial
  fit := (same batch).mpr h.fit
  maximal longer pre fit := by
    cases longer with
    | nil => exact Nat.zero_le _
    | cons b rest =>
      obtain ⟨rfl, initial⟩ := List.cons_prefix_cons.mp pre
      exact Nat.succ_le_succ (h.maximal rest initial ((same rest).mp fit))

/-- Only the empty part fits. -/
theorem Longest.nil (fit : fits []) (full : ∀ a rest, a :: rest <+: es → ¬ fits (a :: rest)) :
    Longest fits es [] where
  initial := List.nil_prefix
  fit := fit
  maximal longer pre fit := by
    cases longer with
    | nil => exact le_rfl
    | cons a rest => exact absurd fit (full a rest pre)

end LongestPrefix
