import Mathlib.Data.List.Sort

set_option autoImplicit false

/-!
# Ranks in an ascending list

The element `q` places from the end of an ascending list is the greatest bound that `q` of
its elements reach.
-/

namespace Ranking

variable {α : Type} [LinearOrder α]

/-- In an ascending list the element `q` from the end has `q` elements that are not below it. -/
theorem le_countP_of_ascending {l : List α} {q : Nat} {i : α} (sorted : l.Pairwise (· ≤ ·))
    (le : q ≤ l.length) (found : l[l.length - q]? = some i) : q ≤ l.countP (i ≤ ·) := by
  obtain ⟨inside, is⟩ := List.getElem?_eq_some_iff.mp found
  have tail := List.drop_eq_getElem_cons inside
  have above : ∀ x ∈ l.drop (l.length - q), i ≤ x := by
    have ordered := sorted.drop (i := l.length - q)
    rw [tail, is] at ordered ⊢
    exact List.forall_mem_cons.mpr ⟨le_rfl, (List.pairwise_cons.mp ordered).1⟩
  calc q = (l.drop (l.length - q)).length := by rw [List.length_drop]; omega
    _ = (l.drop (l.length - q)).countP (i ≤ ·) :=
      (List.countP_eq_length.mpr fun x hx => decide_eq_true (above x hx)).symm
    _ ≤ l.countP (i ≤ ·) := (List.drop_sublist _ _).countP_le

/-- Above the element `q` from the end stand fewer than `q` elements. -/
theorem countP_lt_of_ascending {l : List α} {q : Nat} {i x : α} (sorted : l.Pairwise (· ≤ ·))
    (found : l[l.length - q]? = some i) (above : i < x) : l.countP (x ≤ ·) < q := by
  obtain ⟨inside, is⟩ := List.getElem?_eq_some_iff.mp found
  have below : ∀ y ∈ l.take (l.length - q + 1), y ≤ i := by
    intro y hy
    obtain ⟨k, hk, rfl⟩ := List.mem_iff_getElem.mp hy
    rw [List.length_take] at hk
    rw [List.getElem_take, ← is]
    rcases Nat.eq_or_lt_of_le (show k ≤ l.length - q by omega) with rfl | lt
    · exact le_rfl
    · exact List.pairwise_iff_getElem.mp sorted k (l.length - q) (by omega) inside lt
  have none : (l.take (l.length - q + 1)).countP (x ≤ ·) = 0 :=
    List.countP_eq_zero.mpr fun y hy => by simpa using (below y hy).trans_lt above
  calc l.countP (x ≤ ·)
      = (l.take (l.length - q + 1)).countP (x ≤ ·) +
          (l.drop (l.length - q + 1)).countP (x ≤ ·) := by
        rw [← List.countP_append, List.take_append_drop]
    _ = (l.drop (l.length - q + 1)).countP (x ≤ ·) := by rw [none, Nat.zero_add]
    _ ≤ (l.drop (l.length - q + 1)).length := List.countP_le_length
    _ < q := by rw [List.length_drop]; omega

/-- `q` elements reach `x` exactly when the element `q` from the end does. -/
theorem le_countP_iff {l : List α} {q : Nat} {i x : α} (sorted : l.Pairwise (· ≤ ·))
    (le : q ≤ l.length) (found : l[l.length - q]? = some i) :
    q ≤ l.countP (x ≤ ·) ↔ x ≤ i := by
  constructor
  · intro many
    by_contra above
    exact Nat.not_lt.mpr many (countP_lt_of_ascending sorted found (not_le.mp above))
  · intro reached
    refine (le_countP_of_ascending sorted le found).trans (List.countP_mono_left fun y _ hy => ?_)
    simpa using reached.trans (by simpa using hy)

end Ranking
