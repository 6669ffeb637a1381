import Mathlib.Data.List.Basic
import Mathlib.Data.List.Infix
import Mathlib.Tactic.Common

set_option autoImplicit false

/-!
# Logs that are copied from leaders

A log is a list whose elements carry a term. In every term there is at most one leader, whose
log only grows. An element is `Attributed` when the log up to it is a copy of what a leader of
its term had; attributed logs that share a term at a position share everything before it.
-/

namespace LeaderLogs

variable {α : Type} (term : α → Nat) (leads : Nat → List α → Prop)

/-- The term at a position; position 0 precedes the log. -/
def TermAt (es : List α) (i t : Nat) : Prop :=
  i = 0 ∧ t = 0 ∨ ∃ e, 0 < i ∧ es[i - 1]? = some e ∧ term e = t

/-- Everything up to an element was copied from a leader of its term. -/
def Attributed (es : List α) : Prop :=
  ∀ i e, es[i]? = some e → ∃ L, leads (term e) L ∧ L.take (i + 1) = es.take (i + 1)

/-- The logs of a term's leader extend each other. -/
def Comparable : Prop :=
  ∀ t L L', leads t L → leads t L' → L <+: L' ∨ L' <+: L

/-- The log after a batch behind a position was merged into it: the log as it was when it held
the whole batch, or a log that was cut at the first difference. -/
inductive Spliced (old : List α) (prev : Nat) (batch : List α) : List α → Prop
  | held (all : ∀ k e, batch[k]? = some e → TermAt term old (prev + k + 1) (term e)) :
      Spliced old prev batch old
  | cut (kept : List α) (e : α) (rest : List α) (split : batch = kept ++ e :: rest)
      (all : ∀ k e, kept[k]? = some e → TermAt term old (prev + k + 1) (term e))
      (differs : ¬ TermAt term old (prev + kept.length + 1) (term e))
      (within : prev + kept.length ≤ old.length) :
      Spliced old prev batch (old.take (prev + kept.length) ++ e :: rest)

/-- The terms of a log never go down. -/
def Ascending (es : List α) : Prop :=
  ∀ i j : Nat, ∀ a b, i ≤ j → es[i]? = some a → es[j]? = some b → term a ≤ term b

variable {term leads} {es es' old new batch L K : List α} {i t prev : Nat}

theorem getElem?_of_initial (pre : es <+: L) (inside : i < es.length) : es[i]? = L[i]? := by
  obtain ⟨tail, rfl⟩ := pre
  rw [List.getElem?_append_left inside]

theorem TermAt.le_length (h : TermAt term es i t) : i ≤ es.length := by
  rcases h with ⟨rfl, -⟩ | ⟨e, pos, found, -⟩
  · exact Nat.zero_le _
  · have := (List.getElem?_eq_some_iff.mp found).1
    omega

theorem TermAt.extend (h : TermAt term es i t) (pre : es <+: L) : TermAt term L i t := by
  have inside := h.le_length
  rcases h with zero | ⟨e, pos, found, is⟩
  · exact .inl zero
  · exact .inr ⟨e, pos, by rwa [← getElem?_of_initial pre (by omega)], is⟩

theorem TermAt.of_getElem? {e : α} (h : es[i]? = some e) : TermAt term es (i + 1) (term e) :=
  .inr ⟨e, Nat.succ_pos _, by simpa using h, rfl⟩

theorem TermAt.take {n : Nat} (h : TermAt term es i t) (le : i ≤ n) :
    TermAt term (es.take n) i t := by
  rcases h with zero | ⟨e, pos, found, is⟩
  · exact .inl zero
  · exact .inr ⟨e, pos, by rwa [List.getElem?_take_of_lt (by omega)], is⟩

theorem Attributed.initial (h : Attributed term leads L) (pre : es <+: L) :
    Attributed term leads es := by
  intro i e found
  have inside := (List.getElem?_eq_some_iff.mp found).1
  obtain ⟨M, leader, same⟩ := h i e (getElem?_of_initial pre inside ▸ found)
  refine ⟨M, leader, same.trans ?_⟩
  obtain ⟨tail, rfl⟩ := pre
  rw [List.take_append_of_le_length inside]

/-- Two attributed logs with one term at a position agree up to it. -/
theorem Attributed.take_eq (cmp : Comparable leads) (h : Attributed term leads es)
    (h' : Attributed term leads es') (at_ : TermAt term es i t) (at_' : TermAt term es' i t) :
    es.take i = es'.take i := by
  rcases at_ with ⟨rfl, -⟩ | ⟨e, pos, found, rfl⟩
  · simp
  rcases at_' with ⟨rfl, -⟩ | ⟨e', -, found', same⟩
  · exact absurd pos (Nat.lt_irrefl _)
  obtain ⟨L, leader, copied⟩ := h _ e found
  obtain ⟨L', leader', copied'⟩ := h' _ e' found'
  rw [same] at leader'
  have inside := (List.getElem?_eq_some_iff.mp found).1
  have inside' := (List.getElem?_eq_some_iff.mp found').1
  rw [Nat.sub_add_cancel pos] at copied copied'
  have long : i ≤ L.length := by
    have := congrArg List.length copied
    simp only [List.length_take] at this
    omega
  have long' : i ≤ L'.length := by
    have := congrArg List.length copied'
    simp only [List.length_take] at this
    omega
  rw [← copied, ← copied']
  rcases cmp _ L L' leader leader' with pre | pre
  · obtain ⟨tail, rfl⟩ := pre
    rw [List.take_append_of_le_length long]
  · obtain ⟨tail, rfl⟩ := pre
    rw [List.take_append_of_le_length long']

/-- A leader adds an element of its term. -/
theorem Attributed.append {e : α} (h : Attributed term leads es)
    (leader : leads (term e) (es ++ [e])) : Attributed term leads (es ++ [e]) := by
  intro i x found
  rcases Nat.lt_or_ge i es.length with old | new
  · rw [List.getElem?_append_left old] at found
    obtain ⟨L, leader, copied⟩ := h i x found
    exact ⟨L, leader, copied.trans (List.take_append_of_le_length old).symm⟩
  · rw [List.getElem?_append_right new, List.getElem?_singleton] at found
    split at found
    · obtain rfl := Option.some.inj found
      exact ⟨es ++ [e], leader, rfl⟩
    · simp at found

/-- A log agrees with the log that a batch was cut from as far as the batch is held. -/
theorem Attributed.take_held (cmp : Comparable leads) (h : Attributed term leads old)
    (hL : Attributed term leads L) (before : TermAt term old prev t) (beforeL : TermAt term L prev t)
    (pre : batch <+: L.drop prev) {n : Nat} (le : n ≤ batch.length)
    (all : ∀ k e, k < n → batch[k]? = some e → TermAt term old (prev + k + 1) (term e)) :
    old.take (prev + n) = L.take (prev + n) := by
  cases n with
  | zero => exact h.take_eq cmp hL before beforeL
  | succ k =>
    obtain ⟨e, found⟩ : ∃ e, batch[k]? = some e := ⟨_, List.getElem?_eq_getElem le⟩
    have foundL : L[prev + k]? = some e := by
      rw [← List.getElem?_drop, ← getElem?_of_initial pre le, found]
    exact h.take_eq cmp hL (all k e (Nat.lt_succ_self k) found) (.of_getElem? foundL)

/-- A log that was cut and spliced is a copy of the log its batch was cut from. -/
theorem Spliced.prefix_of_ne (cmp : Comparable leads) (h : Attributed term leads old)
    (hL : Attributed term leads L) (before : TermAt term old prev t) (beforeL : TermAt term L prev t)
    (pre : batch <+: L.drop prev) (splice : Spliced term old prev batch new) (ne : new ≠ old) :
    new <+: L := by
  cases splice with
  | held => exact absurd rfl ne
  | cut kept e rest split all differs within =>
    subst split
    have same := h.take_held cmp hL before beforeL pre (n := kept.length) (by simp)
      fun k x lt found => all k x (by rwa [List.getElem?_append_left lt] at found)
    rw [same]
    obtain ⟨tail, is⟩ := pre
    refine ⟨tail, ?_⟩
    have split := List.take_append_drop (prev + kept.length) L
    rw [← List.drop_drop, ← is, List.append_assoc, List.drop_left] at split
    rw [List.append_assoc]
    exact split

/-- A log that a batch did not change held the whole batch. -/
theorem Spliced.held_of_eq (splice : Spliced term old prev batch new) (same : new = old) :
    ∀ k e, batch[k]? = some e → TermAt term old (prev + k + 1) (term e) := by
  cases splice with
  | held all => exact all
  | cut kept e rest split all differs within =>
    have size : (old.take (prev + kept.length)).length = prev + kept.length := by
      rw [List.length_take, Nat.min_eq_left within]
    have found : (old.take (prev + kept.length) ++ e :: rest)[prev + kept.length]? = some e := by
      rw [List.getElem?_append_right size.le, size, Nat.sub_self]
      rfl
    rw [same] at found
    exact absurd (.of_getElem? found) differs

theorem Attributed.splice (cmp : Comparable leads) (h : Attributed term leads old)
    (hL : Attributed term leads L) (before : TermAt term old prev t) (beforeL : TermAt term L prev t)
    (pre : batch <+: L.drop prev) (splice : Spliced term old prev batch new) :
    Attributed term leads new := by
  by_cases same : new = old
  · rwa [same]
  · exact hL.initial (splice.prefix_of_ne cmp h hL before beforeL pre same)

/-- Splicing keeps what the log and the batch agree on. -/
theorem Spliced.keeps (pre : batch <+: L.drop prev) (splice : Spliced term old prev batch new)
    (hK : K <+: old) (agree : K <+: L ∨ L <+: K) : K <+: new := by
  cases splice with
  | held => exact hK
  | cut kept e rest split all differs within =>
    subst split
    have foundL : L[prev + kept.length]? = some e := by
      rw [← List.getElem?_drop, ← getElem?_of_initial pre (by simp)]
      simp
    rcases Nat.lt_or_ge (prev + kept.length) K.length with inside | outside
    · have foundK : K[prev + kept.length]? = some e := by
        rcases agree with pre | pre
        · rw [getElem?_of_initial pre inside]; exact foundL
        · rw [← getElem?_of_initial pre (List.getElem?_eq_some_iff.mp foundL).1]; exact foundL
      rw [getElem?_of_initial hK inside] at foundK
      exact absurd (.of_getElem? foundK) differs
    · refine (List.prefix_take_iff.mpr ⟨hK, outside⟩).trans (List.prefix_append _ _)

theorem Ascending.le (h : Ascending term es) {j u : Nat} (le : i ≤ j) (at_ : TermAt term es i t)
    (pos : 0 < i) (last : TermAt term es j u) : t ≤ u := by
  rcases at_ with ⟨rfl, -⟩ | ⟨a, -, foundA, rfl⟩
  · omega
  rcases last with ⟨rfl, -⟩ | ⟨b, -, foundB, rfl⟩
  · omega
  · exact h _ _ a b (by omega) foundA foundB

/-- A log that ends in a term is the beginning of a log of the term's leader. -/
theorem Attributed.copy (h : Attributed term leads es) (ne : es ≠ [])
    (last : TermAt term es es.length t) : ∃ L, leads t L ∧ es <+: L := by
  rcases last with ⟨empty, -⟩ | ⟨e, pos, found, rfl⟩
  · exact absurd (List.eq_nil_of_length_eq_zero empty) ne
  obtain ⟨L, leader, same⟩ := h _ e found
  rw [Nat.sub_add_cancel pos, List.take_length] at same
  exact ⟨L, leader, same ▸ List.take_prefix _ _⟩

/-- What one log holds is held by every log that is not behind it, when the leaders of the terms
in between hold it. -/
theorem Attributed.carries {M V : List α} {u v bound : Nat} (cmp : Comparable leads)
    (hV : Attributed term leads V) (hM : Attributed term leads M) (sorted : Ascending term V)
    (has : K <+: V) (ne : K ≠ []) (lastK : TermAt term K K.length t)
    (lastV : TermAt term V V.length v) (lastM : TermAt term M M.length u) (within : u < bound)
    (ahead : v < u ∨ u = v ∧ V.length ≤ M.length)
    (later : ∀ w L, t < w → w < bound → leads w L → K <+: L) : K <+: M := by
  have posK : 0 < K.length := List.length_pos_iff.mpr ne
  have neV : V ≠ [] := fun empty => ne (List.prefix_nil.mp (empty ▸ has))
  obtain ⟨LV, leadsV, preV⟩ := hV.copy neV lastV
  rcases ahead with newer | ⟨rfl, longer⟩
  · have neM : M ≠ [] := by
      rintro rfl
      rcases lastM with ⟨-, rfl⟩ | ⟨e, pos, -⟩
      · omega
      · simp at pos
    obtain ⟨LM, leadsM, preM⟩ := hM.copy neM lastM
    have least : t ≤ v := sorted.le has.length_le (lastK.extend has) posK lastV
    have held := later u LM (by omega) within leadsM
    rcases Nat.le_total K.length M.length with short | long
    · exact List.prefix_of_prefix_length_le held preM short
    -- the last entry of `M` would stand in `V` before an entry of a lower term
    · have inside := (List.prefix_of_prefix_length_le preM held long).trans has
      have posM : 0 < M.length := List.length_pos_iff.mpr neM
      have : u ≤ v := sorted.le inside.length_le (lastM.extend inside) posM lastV
      omega
  · have neM : M ≠ [] := by
      rintro rfl
      exact neV (List.eq_nil_of_length_eq_zero (Nat.le_zero.mp longer))
    obtain ⟨LM, leadsM, preM⟩ := hM.copy neM lastM
    refine has.trans ?_
    rcases cmp u LV LM leadsV leadsM with pre | pre
    · exact List.prefix_of_prefix_length_le (preV.trans pre) preM longer
    · exact List.prefix_of_prefix_length_le preV (preM.trans pre) longer

end LeaderLogs
