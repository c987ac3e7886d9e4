/-
CertStore/Refine.lean

Refinement between two programs that work on different states.

Computations are fallible and stateful, and keep their state under an error
(`ExceptT ε (StateM σ)`).  For a relation `R` between a state `s` of one and a
state `t` of the other,

    Simulates R x y

says that from related states `x` and `y` give the same answer, a value or an
error, and end in related states.  The rules follow the shape of a `do` block
(`Simulates.bind`, `.lift`, `.update`, `.read`), so two programs that are written
alike are compared line by line, and only their primitive steps are compared
through `R`.

`Matches R step step' a` is the same for an input `a` of two machines, and
lifts from inputs to runs (`Matches.exec`, `Matches.outs`).
-/
import CertStore.Machine

namespace Refine

variable {σ τ ε α β : Type}

/-! ### Computations -/

/-- From related states: the same answer, and related states again. -/
def Simulates (R : σ → τ → Prop) (x : ExceptT ε (StateM σ) α) (y : ExceptT ε (StateM τ) α) :
    Prop :=
  ∀ s t, R s t → (x.run.run s).1 = (y.run.run t).1 ∧ R (x.run.run s).2 (y.run.run t).2

/-- In a sequence, an error of the first part is the answer. -/
theorem run_bind (x : ExceptT ε (StateM σ) α) (f : α → ExceptT ε (StateM σ) β) (s : σ) :
    (x >>= f).run.run s =
      match x.run.run s with
      | (.ok a, s') => (f a).run.run s'
      | (.error e, s') => (.error e, s') := by
  rw [ExceptT.run_bind, StateT.run_bind]
  rcases x.run.run s with ⟨_ | _, _⟩
  · rfl
  · rfl

theorem run_lift_ok {x : Except ε α} {a : α} (h : x = .ok a) (f : α → ExceptT ε (StateM σ) β)
    (s : σ) : ((liftM x : ExceptT ε (StateM σ) α) >>= f).run.run s = (f a).run.run s := by
  rw [h]
  rfl

theorem run_lift_error {x : Except ε α} {e : ε} (h : x = .error e)
    (f : α → ExceptT ε (StateM σ) β) (s : σ) :
    ((liftM x : ExceptT ε (StateM σ) α) >>= f).run.run s = (.error e, s) := by
  rw [h]
  rfl

variable {R : σ → τ → Prop}

/-- A computation that does not look at the state. -/
theorem Simulates.lift (x : Except ε α) :
    Simulates R (liftM x : ExceptT ε (StateM σ) α) (liftM x) := by
  intro s t h
  exact ⟨rfl, h⟩

/-- A change of the state. -/
theorem Simulates.update {f : σ → σ} {g : τ → τ} (h : ∀ s t, R s t → R (f s) (g t)) :
    Simulates R (modify f : ExceptT ε (StateM σ) Unit) (modify g) := by
  intro s t hst
  exact ⟨rfl, h s t hst⟩

/-- A look at the state. -/
theorem Simulates.read {f : σ → α} {g : τ → α} (h : ∀ s t, R s t → f s = g t) :
    Simulates R (do return f (← getThe σ) : ExceptT ε (StateM σ) α) (do return g (← getThe τ)) := by
  intro s t hst
  exact ⟨congrArg Except.ok (h s t hst), hst⟩

/-- **One after the other.**  The second parts are compared for the same value
of the first ones. -/
theorem Simulates.bind {x : ExceptT ε (StateM σ) α} {y : ExceptT ε (StateM τ) α}
    {f : α → ExceptT ε (StateM σ) β} {g : α → ExceptT ε (StateM τ) β}
    (hxy : Simulates R x y) (hfg : ∀ a, Simulates R (f a) (g a)) :
    Simulates R (x >>= f) (y >>= g) := by
  intro s t hst
  obtain ⟨hanswer, hstate⟩ := hxy s t hst
  rw [run_bind, run_bind]
  rcases hx : x.run.run s with ⟨e | a, s'⟩
  · rcases hy : y.run.run t with ⟨e' | b, t'⟩
    · rw [hx, hy] at hanswer hstate
      obtain rfl := Except.error.inj hanswer
      exact ⟨rfl, hstate⟩
    · rw [hx, hy] at hanswer
      cases hanswer
  · rcases hy : y.run.run t with ⟨e' | b, t'⟩
    · rw [hx, hy] at hanswer
      cases hanswer
    · rw [hx, hy] at hanswer hstate
      obtain rfl := Except.ok.inj hanswer
      exact hfg a s' t' hstate

/-! ### Machines -/

variable {step : σ → α → β × σ} {step' : τ → α → β × τ}

/-- On the input `a` and from related states, the two machines give the same
answer and go to related states. -/
def Matches (R : σ → τ → Prop) (step : σ → α → β × σ) (step' : τ → α → β × τ) (a : α) : Prop :=
  ∀ s t, R s t → (step s a).1 = (step' t a).1 ∧ R (step s a).2 (step' t a).2

/-- Runs on matching inputs end in related states. -/
theorem Matches.exec {as : List α} (h : ∀ a ∈ as, Matches R step step' a) {s : σ} {t : τ}
    (hst : R s t) : R (Machine.exec step s as) (Machine.exec step' t as) := by
  induction as generalizing s t with
  | nil => exact hst
  | cons a as ih =>
    rw [List.forall_mem_cons] at h
    exact ih h.2 (h.1 s t hst).2

/-- Runs on matching inputs give the same answers. -/
theorem Matches.outs {as : List α} (h : ∀ a ∈ as, Matches R step step' a) {s : σ} {t : τ}
    (hst : R s t) : Machine.outs step s as = Machine.outs step' t as := by
  induction as generalizing s t with
  | nil => rfl
  | cons a as ih =>
    rw [List.forall_mem_cons] at h
    obtain ⟨hanswer, hstate⟩ := h.1 s t hst
    rw [Machine.outs_cons, Machine.outs_cons, hanswer, ih h.2 hstate]

end Refine
