import Mathlib.Order.RelClasses
import Mathlib.Data.List.Pairwise
import Mathlib.Data.List.Sort

set_option autoImplicit false

/-!
# Ordered maps

A finite map kept as the list of its bindings in strictly increasing key order,
so that iteration is in key order and two maps with the same bindings are equal.
-/

/-- A finite map whose bindings are listed in strictly increasing key order. -/
structure BTreeMap (K V : Type) [LT K] where
  toList : List (K × V)
  sorted : toList.Pairwise (fun a b => a.1 < b.1)

namespace BTreeMap

variable {K V : Type} [LT K]

/-- Inserts a binding at its place, replacing one with the same key. -/
def insertList [DecidableLT K] (k : K) (v : V) : List (K × V) → List (K × V)
  | [] => [(k, v)]
  | b :: bs =>
    if k < b.1 then (k, v) :: b :: bs
    else if b.1 < k then b :: insertList k v bs
    else (k, v) :: bs

instance [DecidableEq K] [DecidableEq V] : DecidableEq (BTreeMap K V) := fun a b =>
  decidable_of_iff (a.toList = b.toList) ⟨fun h => by cases a; cases b; simpa using h,
    fun h => by rw [h]⟩

instance [Repr K] [Repr V] : Repr (BTreeMap K V) where
  reprPrec m n := reprPrec m.toList n

theorem mem_insertList [DecidableLT K] {k : K} {v : V} {bs : List (K × V)} {b : K × V}
    (h : b ∈ insertList k v bs) : b = (k, v) ∨ b ∈ bs := by
  induction bs with
  | nil => simpa [insertList] using h
  | cons c cs ih =>
    simp only [insertList] at h
    split at h
    · simpa using h
    · split at h
      · rcases List.mem_cons.mp h with rfl | h
        · simp
        · rcases ih h with h | h <;> simp [h]
      · rcases List.mem_cons.mp h with h | h <;> simp [h]

section Order

variable [DecidableLT K] [IsStrictTotalOrder K (· < ·)]

theorem insertList_sorted (k : K) (v : V) {bs : List (K × V)}
    (h : bs.Pairwise (fun a b => a.1 < b.1)) :
    (insertList k v bs).Pairwise (fun a b => a.1 < b.1) := by
  induction bs with
  | nil => simp [insertList]
  | cons c cs ih =>
    obtain ⟨hc, hcs⟩ := List.pairwise_cons.mp h
    simp only [insertList]
    split
    · next hk =>
      refine List.pairwise_cons.mpr ⟨?_, h⟩
      intro d hd
      rcases List.mem_cons.mp hd with rfl | hd
      · exact hk
      · exact trans_of (· < ·) hk (hc d hd)
    · next hk =>
      split
      · next hck =>
        refine List.pairwise_cons.mpr ⟨?_, ih hcs⟩
        intro d hd
        rcases mem_insertList hd with rfl | hd
        · exact hck
        · exact hc d hd
      · next hck =>
        have hkc : k = c.1 := by
          rcases trichotomous_of (· < ·) k c.1 with h | h | h
          · exact absurd h hk
          · exact h
          · exact absurd h hck
        refine List.pairwise_cons.mpr ⟨?_, hcs⟩
        intro d hd
        simpa [hkc] using hc d hd

end Order

def empty : BTreeMap K V := ⟨[], List.Pairwise.nil⟩

def insert [DecidableLT K] [IsStrictTotalOrder K (· < ·)] (m : BTreeMap K V) (k : K) (v : V) :
    BTreeMap K V := ⟨insertList k v m.toList, insertList_sorted k v m.sorted⟩

def get [DecidableEq K] (m : BTreeMap K V) (k : K) : Option V := m.toList.lookup k

def remove [DecidableEq K] (m : BTreeMap K V) (k : K) : BTreeMap K V :=
  ⟨m.toList.filter (fun b => b.1 ≠ k), m.sorted.filter _⟩

def keys (m : BTreeMap K V) : List K := m.toList.map Prod.fst

def values (m : BTreeMap K V) : List V := m.toList.map Prod.snd

/-- The bindings whose keys satisfy a predicate. -/
def filter (p : K → Bool) (m : BTreeMap K V) : BTreeMap K V :=
  ⟨m.toList.filter (fun b => p b.1), m.sorted.filter _⟩

/-- Applies a function to every value: `for v in m.values_mut()`. -/
def mapValues (f : V → V) (m : BTreeMap K V) : BTreeMap K V :=
  ⟨m.toList.map (fun b => (b.1, f b.2)), by
    rw [List.pairwise_map]; exact m.sorted⟩

/-! ## Lookup -/

theorem keys_sorted (m : BTreeMap K V) : m.keys.Pairwise (· < ·) :=
  List.pairwise_map.mpr m.sorted

@[simp] theorem keys_mapValues (m : BTreeMap K V) (f : V → V) : (m.mapValues f).keys = m.keys := by
  simp [keys, mapValues]

@[simp] theorem get_empty [DecidableEq K] (k : K) : (empty : BTreeMap K V).get k = none := rfl

theorem mem_insertList_iff [DecidableLT K] [IsStrictTotalOrder K (· < ·)] {k : K} {v : V} {bs : List (K × V)}
    (h : bs.Pairwise (fun a b => a.1 < b.1)) {b : K × V} :
    b ∈ insertList k v bs ↔ b = (k, v) ∨ (b ∈ bs ∧ b.1 ≠ k) := by
  induction bs with
  | nil => simp [insertList]
  | cons c cs ih =>
    obtain ⟨hc, hcs⟩ := List.pairwise_cons.mp h
    simp only [insertList]
    split
    · next hk =>
      have hout : ∀ d ∈ c :: cs, d.1 ≠ k := by
        intro d hd he
        rcases List.mem_cons.mp hd with rfl | hd
        · exact irrefl_of (· < ·) k (he ▸ hk)
        · exact irrefl_of (· < ·) k (trans_of (· < ·) hk (he ▸ hc d hd))
      rw [List.mem_cons]
      exact or_congr_right ⟨fun hb => ⟨hb, hout b hb⟩, And.left⟩
    · next hk =>
      split
      · next hck =>
        have hne : c.1 ≠ k := fun he => irrefl_of (· < ·) k (he ▸ hck)
        rw [List.mem_cons, ih hcs, List.mem_cons]
        constructor
        · rintro (rfl | rfl | ⟨hb, hn⟩)
          · exact .inr ⟨.inl rfl, hne⟩
          · exact .inl rfl
          · exact .inr ⟨.inr hb, hn⟩
        · rintro (rfl | ⟨rfl | hb, hn⟩)
          · exact .inr (.inl rfl)
          · exact .inl rfl
          · exact .inr (.inr ⟨hb, hn⟩)
      · next hck =>
        have hkc : c.1 = k := by
          rcases trichotomous_of (· < ·) k c.1 with h | h | h
          · exact absurd h hk
          · exact h.symm
          · exact absurd h hck
        rw [List.mem_cons, List.mem_cons]
        refine or_congr_right ⟨fun hb => ⟨.inr hb, fun he => ?_⟩, ?_⟩
        · exact irrefl_of (· < ·) k (by simpa [he, hkc] using hc b hb)
        · rintro ⟨rfl | hb, hn⟩
          · exact absurd hkc hn
          · exact hb

section Lookup

variable [DecidableEq K] [IsStrictTotalOrder K (· < ·)]

theorem lookup_eq_some_iff {bs : List (K × V)} (h : bs.Pairwise (fun a b => a.1 < b.1)) {k : K}
    {v : V} : bs.lookup k = some v ↔ (k, v) ∈ bs := by
  induction bs with
  | nil => simp
  | cons b bs ih =>
    obtain ⟨hb, hbs⟩ := List.pairwise_cons.mp h
    obtain ⟨c, w⟩ := b
    rw [List.lookup_cons]
    by_cases hk : k = c
    · subst hk
      have hout : (k, v) ∉ bs := fun hm => irrefl_of (· < ·) k (hb _ hm)
      simp [hout, eq_comm]
    · simp [beq_eq_false_iff_ne.mpr hk, hk, ih hbs]

theorem mem_toList {m : BTreeMap K V} {k : K} {v : V} : (k, v) ∈ m.toList ↔ m.get k = some v :=
  (lookup_eq_some_iff m.sorted).symm

@[ext] theorem ext {m n : BTreeMap K V} (h : ∀ k, m.get k = n.get k) : m = n := by
  have hirr : Std.Irrefl (fun a b : K × V => a.1 < b.1) := ⟨fun a => irrefl_of (· < ·) a.1⟩
  have : m.toList = n.toList := m.sorted.eq_of_mem_iff n.sorted (by
    rintro ⟨k, v⟩
    rw [mem_toList, mem_toList, h])
  cases m; cases n; simpa using this

@[simp] theorem get_insert [DecidableLT K] (m : BTreeMap K V) (k j : K) (v : V) :
    (m.insert k v).get j = if j = k then some v else m.get j := by
  apply Option.ext
  intro w
  rw [← mem_toList, insert, mem_insertList_iff m.sorted]
  split
  · next h => simp [h, eq_comm]
  · next h => simp [h, mem_toList]

theorem get_foldl_insert [DecidableLT K] (v : V) (ks : List K) (m : BTreeMap K V) (k : K) :
    (ks.foldl (fun m j => m.insert j v) m).get k = if k ∈ ks then some v else m.get k := by
  induction ks generalizing m with
  | nil => simp
  | cons j ks ih =>
    rw [List.foldl_cons, ih, get_insert]
    by_cases hk : k ∈ ks <;> by_cases hj : k = j <;> simp [hk, hj]

@[simp] theorem get_remove (m : BTreeMap K V) (k j : K) :
    (m.remove k).get j = if j = k then none else m.get j := by
  apply Option.ext
  intro w
  rw [← mem_toList, remove, List.mem_filter]
  split
  · next h => simp [h]
  · next h => simp [h, mem_toList]

@[simp] theorem get_filter (m : BTreeMap K V) (p : K → Bool) (k : K) :
    (m.filter p).get k = if p k then m.get k else none := by
  apply Option.ext
  intro w
  rw [← mem_toList, filter, List.mem_filter]
  split
  · next h => simp [h, mem_toList]
  · next h => simp [h]

@[simp] theorem get_mapValues (m : BTreeMap K V) (f : V → V) (k : K) :
    (m.mapValues f).get k = (m.get k).map f := by
  apply Option.ext
  intro w
  rw [← mem_toList, mapValues, List.mem_map, Option.map_eq_some_iff]
  constructor
  · rintro ⟨⟨j, v⟩, hm, he⟩
    simp only [Prod.mk.injEq] at he
    exact ⟨v, by rw [← he.1]; exact mem_toList.mp hm, he.2⟩
  · rintro ⟨v, hg, rfl⟩
    exact ⟨(k, v), mem_toList.mpr hg, rfl⟩

/-- Putting a removed binding back restores the map. -/
theorem insert_remove [DecidableLT K] {m : BTreeMap K V} {k : K} {v : V} (h : m.get k = some v) :
    (m.remove k).insert k v = m := by
  ext j : 1
  by_cases hj : j = k <;> simp [hj, h]

theorem mem_keys {m : BTreeMap K V} {k : K} : k ∈ m.keys ↔ ∃ v, m.get k = some v := by
  simp [keys, mem_toList]

theorem mem_values {m : BTreeMap K V} {v : V} : v ∈ m.values ↔ ∃ k, m.get k = some v := by
  simp [values, mem_toList]

/-- Overwriting a bound key changes no key. -/
theorem keys_insert [DecidableLT K] {m : BTreeMap K V} {k : K} {v w : V} (h : m.get k = some w) :
    (m.insert k v).keys = m.keys := by
  have hirr : Std.Irrefl (fun a b : K => a < b) := ⟨fun a => irrefl_of (· < ·) a⟩
  refine (keys_sorted _).eq_of_mem_iff (keys_sorted _) ?_
  intro j
  rw [mem_keys, mem_keys]
  by_cases hj : j = k <;> simp [hj, h]

/-- Overwriting a bound key by a value with the same image changes no image. -/
theorem map_values_insert [DecidableLT K] {W : Type} (f : V → W) {m : BTreeMap K V} {k : K}
    {v w : V} (h : m.get k = some w) (hf : f v = f w) :
    (m.insert k v).values.map f = m.values.map f := by
  have key : ∀ bs : List (K × V), bs.Pairwise (fun a b => a.1 < b.1) → (k, w) ∈ bs →
      (insertList k v bs).map (fun b => f b.2) = bs.map fun b => f b.2 := by
    intro bs hs hm
    induction bs with
    | nil => simp at hm
    | cons c cs ih =>
      obtain ⟨hc, hcs⟩ := List.pairwise_cons.mp hs
      simp only [insertList]
      rcases List.mem_cons.mp hm with rfl | hm
      · rw [if_neg (irrefl_of (· < ·) k), if_neg (irrefl_of (· < ·) k)]
        simp [hf]
      · have hlt := hc _ hm
        have hgt : ¬ k < c.1 := fun hk => irrefl_of (· < ·) k (trans_of (· < ·) hk hlt)
        rw [if_neg hgt, if_pos hlt]
        simp [ih hcs hm]
  have := key m.toList m.sorted (mem_toList.mpr h)
  simpa [values, insert, List.map_map, Function.comp_def] using this

omit [DecidableEq K] in
theorem toList_nodup (m : BTreeMap K V) : m.toList.Nodup := by
  refine m.sorted.imp fun {a b} lt same => ?_
  rw [same] at lt
  exact irrefl_of (· < ·) b.1 lt

/-- The binding that was inserted and the others. -/
theorem insert_perm [DecidableLT K] (m : BTreeMap K V) (k : K) (v : V) :
    (m.insert k v).toList.Perm ((k, v) :: (m.remove k).toList) := by
  have fresh : (k, v) ∉ (m.remove k).toList := by simp [mem_toList]
  refine (List.perm_ext_iff_of_nodup (toList_nodup _)
    (List.nodup_cons.mpr ⟨fresh, toList_nodup _⟩)).mpr ?_
  rintro ⟨j, w⟩
  rw [mem_toList, get_insert, List.mem_cons, mem_toList, get_remove, Prod.mk.injEq]
  by_cases same : j = k
  · simp [same, eq_comm]
  · simp [same]

theorem remove_of_none {m : BTreeMap K V} {k : K} (h : m.get k = none) : m.remove k = m := by
  ext j : 1
  by_cases hj : j = k <;> simp [hj, h]

end Lookup

end BTreeMap
