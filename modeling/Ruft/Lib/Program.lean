import Mathlib.Logic.Relation

set_option autoImplicit false

/-!
# Programs over a mutable state

A `Program` runs over a state that it keeps when it fails, as a method that
borrows its receiver mutably does: every write made before an early error stays.
A failure is either an error value or a panic.

## Main definitions

- `Program` — state transformer with a result
- `Program.Leads` — a program does not panic and only makes steps of a relation
-/

/-- Why a program did not return a value: it raised an error, or it panicked. -/
inductive Fault (ε : Type) where
  | raise (error : ε)
  | panic
  deriving DecidableEq, Repr

/-- `map_err`: a panic is not an error value and passes through. -/
def Fault.map {ε δ : Type} (f : ε → δ) : Fault ε → Fault δ
  | .raise e => .raise (f e)
  | .panic => .panic

/-- A pure computation that may raise an error or panic. -/
abbrev Outcome (ε α : Type) := Except (Fault ε) α

namespace Outcome

variable {ε α : Type}

abbrev raise (e : ε) : Outcome ε α := .error (.raise e)

abbrev panic : Outcome ε α := .error .panic

/-- `Option::expect`. -/
def expect : Option α → Outcome ε α
  | some a => .ok a
  | none => panic

/-- Unsigned subtraction: underflow panics. -/
def sub (a b : Nat) : Outcome ε Nat := if b ≤ a then .ok (a - b) else panic

/-- The inclusive slice `xs[first..=last]`; a bound outside the list panics. -/
def slice (xs : List α) (first last : Nat) : Outcome ε (List α) :=
  if first ≤ last + 1 ∧ last < xs.length then .ok ((xs.drop first).take (last + 1 - first)) else panic

/-- Indexing; an index outside the list panics. -/
def index (xs : List α) (i : Nat) : Outcome ε α := expect xs[i]?

/-- The result satisfies `A` or the error `E`. -/
def Satisfies (A : α → Prop) (E : ε → Prop) : Outcome ε α → Prop
  | .ok a => A a
  | .error (.raise e) => E e
  | .error .panic => True

theorem sub_eq_ok {a b : Nat} (h : b ≤ a) : (sub a b : Outcome ε Nat) = .ok (a - b) := by
  simp [sub, h]

end Outcome

/-- A computation that keeps its state when it fails. -/
def Program (σ ε α : Type) := σ → Outcome ε α × σ

namespace Program

variable {σ ε α β : Type}

instance : Monad (Program σ ε) where
  pure a := fun s => (.ok a, s)
  bind m f := fun s => match m s with
    | (.ok a, s') => f a s'
    | (.error e, s') => (.error e, s')

def raise (e : ε) : Program σ ε α := fun s => (Outcome.raise e, s)

def panic : Program σ ε α := fun s => (Outcome.panic, s)

def get : Program σ ε σ := fun s => (.ok s, s)

def modify (f : σ → σ) : Program σ ε Unit := fun s => (.ok (), f s)

/-- Runs a pure computation and maps its error: `map_err(f)?`. -/
def lift {δ : Type} (f : δ → ε) : Outcome δ α → Program σ ε α
  | .ok a => pure a
  | .error e => fun s => (.error (e.map f), s)

def expect : Option α → Program σ ε α
  | some a => pure a
  | none => panic

/-- Runs a program for each element in order and stops at the first failure. -/
def forEach (f : α → Program σ ε Unit) : List α → Program σ ε Unit
  | [] => pure ()
  | a :: as => do f a; forEach f as

@[simp] theorem pure_run (a : α) (s : σ) : (pure a : Program σ ε α) s = (.ok a, s) := rfl

@[simp] theorem raise_run (e : ε) (s : σ) :
    (raise e : Program σ ε α) s = (.error (.raise e), s) := rfl

@[simp] theorem panic_run (s : σ) : (panic : Program σ ε α) s = (.error .panic, s) := rfl

@[simp] theorem get_run (s : σ) : (get : Program σ ε σ) s = (.ok s, s) := rfl

@[simp] theorem modify_run (f : σ → σ) (s : σ) :
    (modify f : Program σ ε Unit) s = (.ok (), f s) := rfl

@[simp] theorem lift_ok {δ : Type} (f : δ → ε) (a : α) :
    (lift f (.ok a) : Program σ ε α) = pure a := rfl

@[simp] theorem lift_error {δ : Type} (f : δ → ε) (e : Fault δ) (s : σ) :
    (lift f (.error e) : Program σ ε α) s = (.error (e.map f), s) := rfl

@[simp] theorem expect_some (a : α) : (expect (some a) : Program σ ε α) = pure a := rfl

@[simp] theorem expect_none : (expect none : Program σ ε α) = panic := rfl

@[simp] theorem bind_pure_run (a : α) (f : α → Program σ ε β) (s : σ) :
    ((pure a : Program σ ε α) >>= f) s = f a s := rfl

@[simp] theorem bind_get_run (f : σ → Program σ ε β) (s : σ) :
    ((get : Program σ ε σ) >>= f) s = f s s := rfl

@[simp] theorem bind_modify_run (g : σ → σ) (f : Unit → Program σ ε β) (s : σ) :
    ((modify g : Program σ ε Unit) >>= f) s = f () (g s) := rfl

theorem bind_run (m : Program σ ε α) (f : α → Program σ ε β) (s : σ) :
    (m >>= f) s = match m s with
      | (.ok a, s') => f a s'
      | (.error e, s') => (.error e, s') := rfl

theorem bind_run_ok {m : Program σ ε α} {a : α} {s s' : σ} (h : m s = (.ok a, s'))
    (f : α → Program σ ε β) : (m >>= f) s = f a s' := by
  simp only [Bind.bind, h]

theorem bind_run_error {m : Program σ ε α} {e : Fault ε} {s s' : σ} (h : m s = (.error e, s'))
    (f : α → Program σ ε β) : (m >>= f) s = (.error e, s') := by
  simp only [Bind.bind, h]

theorem bind_assoc_run {γ : Type} (m : Program σ ε α) (f : α → Program σ ε β)
    (g : β → Program σ ε γ) (s : σ) : ((m >>= f) >>= g) s = (m >>= fun a => f a >>= g) s := by
  cases h : m s with
  | mk r t =>
    cases r with
    | ok a => simp only [Bind.bind, h]
    | error e => simp only [Bind.bind, h]

/-- A sequence that returned went through its first part. -/
theorem bind_eq_ok {m : Program σ ε α} {f : α → Program σ ε β} {s s' : σ} {b : β}
    (h : (m >>= f) s = (.ok b, s')) : ∃ a t, m s = (.ok a, t) ∧ f a t = (.ok b, s') := by
  cases hm : m s with
  | mk r t =>
    cases r with
    | ok a => exact ⟨a, t, rfl, by rwa [bind_run_ok hm] at h⟩
    | error e =>
      rw [bind_run_error hm] at h
      simp at h

/-- A pure computation that returned left the state as it was. -/
theorem lift_eq_ok {δ : Type} {f : δ → ε} {m : Outcome δ α} {s s' : σ} {a : α}
    (h : (lift f m : Program σ ε α) s = (.ok a, s')) : m = .ok a ∧ s = s' := by
  cases m with
  | ok b =>
    obtain ⟨returned, rfl⟩ := Prod.mk.inj h
    exact ⟨congrArg _ (Except.ok.inj returned), rfl⟩
  | error e => simp [lift] at h

/-! ## What a program can return and raise -/

/-- Every result of the program satisfies `A` and every error that it raises `E`. -/
def Ends (A : α → Prop) (E : ε → Prop) (m : Program σ ε α) : Prop :=
  ∀ s, (m s).1.Satisfies A E

namespace Ends

variable {A : α → Prop} {B : β → Prop} {E : ε → Prop}

theorem pure {a : α} (h : A a) : Ends A E (pure a : Program σ ε α) := fun _ => h

theorem raise {e : ε} (h : E e) : Ends A E (raise e : Program σ ε α) := fun _ => h

theorem panic : Ends A E (panic : Program σ ε α) := fun _ => trivial

theorem bind {m : Program σ ε α} {f : α → Program σ ε β} (hm : Ends A E m)
    (hf : ∀ a, A a → Ends B E (f a)) : Ends B E (m >>= f) := by
  intro s
  have h := hm s
  cases hrun : m s with
  | mk r s' =>
    rw [hrun] at h
    cases r with
    | ok a =>
      rw [bind_run_ok hrun]
      exact hf a h s'
    | error e =>
      rw [bind_run_error hrun]
      cases e with
      | raise e => exact h
      | panic => trivial

/-- Sequencing after a run from one state. -/
theorem after {m : Program σ ε α} {f : α → Program σ ε β} {s : σ}
    (hm : (m s).1.Satisfies (fun _ => True) E) (hf : ∀ a, Ends B E (f a)) :
    ((m >>= f) s).1.Satisfies B E := by
  cases hrun : m s with
  | mk r s' =>
    rw [hrun] at hm
    cases r with
    | ok a =>
      rw [bind_run_ok hrun]
      exact hf a s'
    | error e =>
      rw [bind_run_error hrun]
      cases e with
      | raise e => exact hm
      | panic => trivial

/-- Sequencing where the first result does not matter. -/
theorem seq {m : Program σ ε α} {f : α → Program σ ε β} (hm : Ends (fun _ => True) E m)
    (hf : ∀ a, Ends B E (f a)) : Ends B E (m >>= f) := hm.bind fun a _ => hf a

theorem lift {δ : Type} {g : δ → ε} {m : Outcome δ α} (h : ∀ e, E (g e)) :
    Ends (fun _ => True) E (Program.lift g m : Program σ ε α) := by
  intro s
  cases m with
  | ok a => trivial
  | error e =>
    cases e with
    | raise e => exact h e
    | panic => trivial

theorem expect {o : Option α} : Ends (fun _ => True) E (Program.expect o : Program σ ε α) := by
  cases o with
  | none => exact panic
  | some a => exact pure trivial

theorem forEach {f : α → Program σ ε Unit} (h : ∀ a, Ends (fun _ => True) E (f a)) (as : List α) :
    Ends (fun _ => True) E (forEach f as) := by
  induction as with
  | nil => exact pure trivial
  | cons a as ih => exact (h a).seq fun _ => ih

theorem cond {p : Prop} [Decidable p] {m n : Program σ ε α} (hm : p → Ends A E m)
    (hn : ¬ p → Ends A E n) : Ends A E (if p then m else n) := by
  split
  · next h => exact hm h
  · next h => exact hn h

theorem ite {p : Prop} [Decidable p] {m n : Program σ ε α} (hm : Ends A E m) (hn : Ends A E n) :
    Ends A E (if p then m else n) := cond (fun _ => hm) fun _ => hn

end Ends

/-! ## What a program leaves alone -/

/-- Run from any state, the program leaves `f` of it alone, its results satisfy `A` and the
errors that it raises `E`. -/
def Leaves {τ : Type} (f : σ → τ) (A : α → Prop) (E : ε → Prop) (m : Program σ ε α) : Prop :=
  ∀ s, f (m s).2 = f s ∧ (m s).1.Satisfies A E

namespace Leaves

variable {τ : Type} {f : σ → τ} {A : α → Prop} {B : β → Prop} {E : ε → Prop}

theorem pure {a : α} (h : A a) : Leaves f A E (pure a : Program σ ε α) := fun _ => ⟨rfl, h⟩

theorem raise {e : ε} (h : E e) : Leaves f A E (raise e : Program σ ε α) := fun _ => ⟨rfl, h⟩

theorem panic : Leaves f A E (panic : Program σ ε α) := fun _ => ⟨rfl, trivial⟩

theorem seq {m : Program σ ε α} {g : α → Program σ ε β} (hm : Leaves f (fun _ => True) E m)
    (hg : ∀ a, Leaves f B E (g a)) : Leaves f B E (m >>= g) := by
  intro s
  obtain ⟨same, ends⟩ := hm s
  cases hrun : m s with
  | mk r s' =>
    rw [hrun] at same ends
    cases r with
    | ok a =>
      rw [bind_run_ok hrun]
      exact ⟨(hg a s').1.trans same, (hg a s').2⟩
    | error e =>
      rw [bind_run_error hrun]
      cases e with
      | raise e => exact ⟨same, ends⟩
      | panic => exact ⟨same, trivial⟩

theorem lift {δ : Type} {g : δ → ε} {m : Outcome δ α}
    (h : m.Satisfies (fun _ => True) fun e => E (g e)) :
    Leaves f (fun _ => True) E (Program.lift g m : Program σ ε α) := by
  intro s
  cases m with
  | ok a => exact ⟨rfl, trivial⟩
  | error e =>
    cases e with
    | raise e => exact ⟨rfl, h⟩
    | panic => exact ⟨rfl, trivial⟩

theorem expect {o : Option α} :
    Leaves f (fun _ => True) E (Program.expect o : Program σ ε α) := by
  cases o with
  | none => exact panic
  | some a => exact pure trivial

theorem forEach {g : α → Program σ ε Unit} (h : ∀ a, Leaves f (fun _ => True) E (g a))
    (as : List α) : Leaves f (fun _ => True) E (forEach g as) := by
  induction as with
  | nil => exact pure trivial
  | cons a as ih => exact (h a).seq fun _ => ih

theorem ite {p : Prop} [Decidable p] {m n : Program σ ε α} (hm : Leaves f A E m)
    (hn : Leaves f A E n) : Leaves f A E (if p then m else n) := by
  split
  · exact hm
  · exact hn

theorem ends {E' : ε → Prop} {m : Program σ ε α} (h : Leaves f (fun _ => True) E m)
    (hE : ∀ e, E e → E' e) : Ends (fun _ => True) E' m := by
  intro s
  have := (h s).2
  cases hr : (m s).1 with
  | ok a => trivial
  | error e =>
    rw [hr] at this
    cases e with
    | raise e => exact hE e this
    | panic => trivial

end Leaves

/-! ## Programs that follow a relation -/

/-- Run from `s`, the program does not panic and every change it makes is a chain of
steps of `R`, also when it raises an error. -/
def Leads (R : σ → σ → Prop) (m : Program σ ε α) (s : σ) : Prop :=
  (m s).1 ≠ .error .panic ∧ Relation.ReflTransGen R s (m s).2

namespace Leads

variable {R : σ → σ → Prop} {s : σ}

theorem pure (a : α) : Leads R (pure a : Program σ ε α) s := ⟨by simp, .refl⟩

theorem raise (e : ε) : Leads R (raise e : Program σ ε α) s := ⟨by simp, .refl⟩

theorem reaches {m : Program σ ε α} {r : Outcome ε α} {s' : σ} (h : Leads R m s)
    (run : m s = (r, s')) : Relation.ReflTransGen R s s' := by
  have rest := h.2
  rwa [run] at rest

theorem step {m : Program σ ε α} {r : α} {s' : σ} (run : m s = (.ok r, s')) (h : R s s') :
    Leads R m s := by
  rw [Leads, run]
  exact ⟨by simp, .single h⟩

/-- A run that is that of another program. -/
theorem of_same {m n : Program σ ε α} (run : m s = n s) (h : Leads R n s) : Leads R m s := by
  rwa [Leads, run]

/-- A write that stays although the program then fails. -/
theorem fail {m : Program σ ε α} {e : ε} {s' : σ} (run : m s = (.error (.raise e), s'))
    (h : R s s') : Leads R m s := by
  rw [Leads, run]
  exact ⟨by simp, .single h⟩

/-- Sequencing, under an invariant that the steps of `R` keep. -/
theorem bind {I : σ → Prop} (keeps : ∀ s s', I s → R s s' → I s') (hs : I s)
    {m : Program σ ε α} {f : α → Program σ ε β} (hm : Leads R m s)
    (hf : ∀ a s', m s = (.ok a, s') → I s' → Leads R (f a) s') :
    Leads R (m >>= f) s := by
  obtain ⟨hp, hr⟩ := hm
  have hI : ∀ t, Relation.ReflTransGen R s t → I t := by
    intro t ht
    induction ht with
    | refl => exact hs
    | tail _ hstep ih => exact keeps _ _ ih hstep
  simp only [Leads, Bind.bind]
  cases hms : m s with
  | mk r s' =>
    rw [hms] at hp hr
    cases r with
    | error e => exact ⟨by simpa using hp, hr⟩
    | ok a =>
      obtain ⟨hp', hr'⟩ := hf a s' hms (hI s' hr)
      exact ⟨hp', hr.trans hr'⟩

theorem forEach {I : σ → Prop} (keeps : ∀ s s', I s → R s s' → I s') (hs : I s)
    {f : α → Program σ ε Unit} (hf : ∀ a s, I s → Leads R (f a) s) (as : List α) :
    Leads R (forEach f as) s := by
  induction as generalizing s with
  | nil => exact pure ()
  | cons a as ih => exact bind keeps hs (hf a s hs) fun _ s' _ hs' => ih hs'

theorem lift {δ : Type} {g : δ → ε} {m : Outcome δ α} {f : α → Program σ ε β}
    (hp : m ≠ .error .panic) (hf : ∀ a, m = .ok a → Leads R (f a) s) :
    Leads R (Program.lift g m >>= f) s := by
  cases m with
  | ok a => exact hf a rfl
  | error e =>
    cases e with
    | raise err => exact ⟨by simp [Bind.bind, Fault.map], .refl⟩
    | panic => exact absurd rfl hp

end Leads

/-! ## Programs with a postcondition -/

/-- Run from `s`, the results satisfy `Q` with the state they leave, and the errors that are
raised `E`. -/
def Yields (Q : α → σ → Prop) (E : ε → σ → Prop) (m : Program σ ε α) (s : σ) : Prop :=
  match m s with
  | (.ok a, s') => Q a s'
  | (.error (.raise e), s') => E e s'
  | (.error .panic, _) => True

namespace Yields

variable {Q Q' : α → σ → Prop} {R : β → σ → Prop} {E : ε → σ → Prop} {s : σ}
  {m : Program σ ε α} {f : α → Program σ ε β}

theorem pure {a : α} (h : Q a s) : Yields Q E (pure a : Program σ ε α) s := h

theorem raise {e : ε} (h : E e s) : Yields Q E (raise e : Program σ ε α) s := h

theorem of_run {a : α} {s' : σ} (run : m s = (.ok a, s')) (h : Q a s') : Yields Q E m s := by
  rw [Yields, run]
  exact h

theorem of_error {e : ε} {s' : σ} (run : m s = (.error (.raise e), s')) (h : E e s') :
    Yields Q E m s := by
  rw [Yields, run]
  exact h

/-- A run that is that of another program. -/
theorem of_same {m' : Program σ ε α} {s' : σ} (run : m s = m' s') (h : Yields Q E m' s') :
    Yields Q E m s := by
  rwa [Yields, run]

theorem ok {a : α} {s' : σ} (h : Yields Q E m s) (run : m s = (.ok a, s')) : Q a s' := by
  rwa [Yields, run] at h

theorem error {e : ε} {s' : σ} (h : Yields Q E m s) (run : m s = (.error (.raise e), s')) :
    E e s' := by
  rwa [Yields, run] at h

theorem bind (hm : Yields Q E m s) (hf : ∀ a s', Q a s' → Yields R E (f a) s') :
    Yields R E (m >>= f) s := by
  cases run : m s with
  | mk r s' =>
    cases r with
    | ok a =>
      rw [Yields, bind_run_ok run]
      exact hf a s' (hm.ok run)
    | error e =>
      rw [Yields, bind_run_error run]
      cases e with
      | raise e => exact hm.error run
      | panic => trivial

theorem imp {E' : ε → σ → Prop} (h : Yields Q E m s) (hQ : ∀ a s', Q a s' → Q' a s')
    (hE : ∀ e s', E e s' → E' e s') : Yields Q' E' m s := by
  unfold Yields at *
  split at h
  · exact hQ _ _ h
  · exact hE _ _ h
  · trivial

theorem mono (h : Yields Q E m s) (hQ : ∀ a s', Q a s' → Q' a s') : Yields Q' E m s :=
  h.imp hQ fun _ _ he => he

/-- What a program leaves alone it leaves alone with every result. -/
theorem of_leaves {τ : Type} {g : σ → τ} {A : α → Prop} {F : ε → Prop} (h : Leaves g A F m)
    (hQ : ∀ a s', g s' = g s → Q a s') (hE : ∀ e s', g s' = g s → E e s') : Yields Q E m s := by
  obtain ⟨same, -⟩ := h s
  unfold Yields
  cases run : m s with
  | mk r s' =>
    rw [run] at same
    cases r with
    | ok a => exact hQ a s' same
    | error e =>
      cases e with
      | raise e => exact hE e s' same
      | panic => trivial

end Yields

/-- A run that did not panic and ended in a state reached from one that satisfies `A` by
steps of `R`, or that failed in a state of `B`. Where a run of the first kind fails, the state
it was reached from also satisfies `Q`. -/
def Sound (A Q : σ → Prop) (B : ε → σ → Prop) (R : σ → σ → Prop) (run : Outcome ε α × σ) : Prop :=
  run.1 ≠ .error .panic ∧ ((∃ s, A s ∧ ((∃ a, run.1 = .ok a) ∨ Q s) ∧
    Relation.ReflTransGen R s run.2) ∨ ∃ e, run.1 = .error (.raise e) ∧ B e run.2)

namespace Sound

variable {A Q : σ → Prop} {B : ε → σ → Prop} {R : σ → σ → Prop} {s : σ}

theorem ok {a : α} (h : A s) : Sound A Q B R ((.ok a, s) : Outcome ε α × σ) :=
  ⟨by simp, .inl ⟨s, h, .inl ⟨a, rfl⟩, .refl⟩⟩

theorem error {e : ε} (h : A s) (q : Q s) :
    Sound A Q B R ((.error (.raise e), s) : Outcome ε α × σ) :=
  ⟨by simp, .inl ⟨s, h, .inr q, .refl⟩⟩

theorem stuck {e : ε} (h : B e s) : Sound A Q B R ((.error (.raise e), s) : Outcome ε α × σ) :=
  ⟨by simp, .inr ⟨e, rfl, h⟩⟩

theorem leads {m : Program σ ε α} (h : A s) (q : Q s) (hm : Leads R m s) : Sound A Q B R (m s) :=
  ⟨hm.1, .inl ⟨s, h, .inr q, hm.2⟩⟩

/-- A computation that fails before it writes anything. -/
theorem lift {δ : Type} {g : δ → ε} {m : Outcome δ α} {f : α → Program σ ε β} (hs : A s) (q : Q s)
    (hp : m ≠ .error .panic) (hf : ∀ a, m = .ok a → Sound A Q B R (f a s)) :
    Sound A Q B R ((Program.lift g m >>= f) s) := by
  cases m with
  | ok a => exact hf a rfl
  | error e =>
    cases e with
    | raise err => exact .error hs q
    | panic => exact absurd rfl hp

theorem mono {A' : σ → Prop} {B' : ε → σ → Prop} {run : Outcome ε α × σ} (h : Sound A Q B R run)
    (ha : ∀ s, A s → A' s) (hb : ∀ e s, B e s → B' e s) : Sound A' Q B' R run :=
  ⟨h.1, h.2.imp (fun ⟨s, hs, q, rest⟩ => ⟨s, ha s hs, q, rest⟩) fun ⟨e, he, hs⟩ =>
    ⟨e, he, hb e _ hs⟩⟩

end Sound

end Program
