/-
CertStore/Machine.lean

Deterministic machines that answer every input: a step function
`σ → α → β × σ` takes a state and an input to an answer and a next state.

* `exec` is the state after a list of inputs, `outs` the list of answers.
* `Along step P s as` says that `P` holds of the state and the input at every
  step of the run of `as` from `s`.  It is the form in which a condition on the
  steps of a run is stated.
* `Represents rep step step'` says that the machine `step'` is an abstract
  description of `step` under the representation function `rep`; it lifts from
  steps to runs (`Represents.exec`, `Represents.outs`).

The section after that holds the rules that turn facts about one step into facts
about runs.  `forall_prefix_iff_along` is the one for exact conditions: if a
step from a good state leads to a good state exactly when it meets `C`, then
all the states of a run are good exactly when all its steps meet `C`.  The last
section is about a component of a machine, which sees a part of each step.
-/
import Mathlib.Data.List.Induction

namespace Machine

variable {σ τ α β : Type*}

/-! ### Runs -/

/-- The state after the inputs `as`. -/
def exec (step : σ → α → β × σ) : σ → List α → σ
  | s, [] => s
  | s, a :: as => exec step (step s a).2 as

/-- The answers to the inputs `as`, one for each. -/
def outs (step : σ → α → β × σ) : σ → List α → List β
  | _, [] => []
  | s, a :: as => (step s a).1 :: outs step (step s a).2 as

variable {step : σ → α → β × σ}

@[simp] theorem exec_nil (s : σ) : exec step s [] = s := rfl

@[simp] theorem exec_cons (s : σ) (a : α) (as : List α) :
    exec step s (a :: as) = exec step (step s a).2 as := rfl

@[simp] theorem outs_nil (s : σ) : outs step s [] = [] := rfl

@[simp] theorem outs_cons (s : σ) (a : α) (as : List α) :
    outs step s (a :: as) = (step s a).1 :: outs step (step s a).2 as := rfl

theorem length_outs (s : σ) (as : List α) : (outs step s as).length = as.length := by
  induction as generalizing s with
  | nil => rfl
  | cons a as ih => rw [outs_cons, List.length_cons, List.length_cons, ih]

theorem exec_append (s : σ) (as bs : List α) :
    exec step s (as ++ bs) = exec step (exec step s as) bs := by
  induction as generalizing s with
  | nil => rfl
  | cons a as ih => exact ih _

theorem exec_concat (s : σ) (as : List α) (a : α) :
    exec step s (as ++ [a]) = (step (exec step s as) a).2 := by
  rw [exec_append]
  rfl

/-! ### Conditions on every step of a run -/

/-- `P` holds of the state and the input at every step of the run. -/
def Along (step : σ → α → β × σ) (P : σ → α → Prop) : σ → List α → Prop
  | _, [] => True
  | s, a :: as => P s a ∧ Along step P (step s a).2 as

@[simp] theorem along_nil {P : σ → α → Prop} (s : σ) : Along step P s [] := trivial

@[simp] theorem along_cons {P : σ → α → Prop} (s : σ) (a : α) (as : List α) :
    Along step P s (a :: as) ↔ P s a ∧ Along step P (step s a).2 as := Iff.rfl

/-- A condition along a run, read at the splittings of its input list. -/
theorem along_iff {P : σ → α → Prop} {s : σ} {as : List α} :
    Along step P s as ↔ ∀ xs a ys, as = xs ++ a :: ys → P (exec step s xs) a := by
  induction as generalizing s with
  | nil => simp
  | cons b as ih =>
    rw [along_cons, ih]
    refine ⟨?_, ?_⟩
    · rintro ⟨hb, has⟩ xs a ys e
      rcases xs with - | ⟨x, xs⟩
      · obtain ⟨rfl, rfl⟩ := List.cons.inj e
        exact hb
      · obtain ⟨rfl, rfl⟩ := List.cons.inj e
        exact has xs a ys rfl
    · intro h
      refine ⟨h [] b as rfl, ?_⟩
      intro xs a ys e
      exact h (b :: xs) a ys (by rw [e]; rfl)

/-- A condition on the inputs alone. -/
theorem along_input_iff {P : α → Prop} {s : σ} {as : List α} :
    Along step (fun _ a => P a) s as ↔ ∀ a ∈ as, P a := by
  induction as generalizing s with
  | nil => simp
  | cons a as ih => rw [along_cons, ih, List.forall_mem_cons]

/-! ### Refinement by a representation function -/

/-- `step'` describes `step`: on the represented states both give the same
answer, and the next states correspond. -/
def Represents (rep : τ → σ) (step : σ → α → β × σ) (step' : τ → α → β × τ) : Prop :=
  ∀ t a, step (rep t) a = ((step' t a).1, rep (step' t a).2)

theorem Represents.exec {rep : τ → σ} {step' : τ → α → β × τ}
    (h : Represents rep step step') (t : τ) (as : List α) :
    Machine.exec step (rep t) as = rep (Machine.exec step' t as) := by
  induction as generalizing t with
  | nil => rfl
  | cons a as ih => rw [exec_cons, exec_cons, h t a, ih]

theorem Represents.outs {rep : τ → σ} {step' : τ → α → β × τ}
    (h : Represents rep step step') (t : τ) (as : List α) :
    Machine.outs step (rep t) as = Machine.outs step' t as := by
  induction as generalizing t with
  | nil => rfl
  | cons a as ih => rw [outs_cons, outs_cons, h t a, ih]

/-! ### From steps to runs -/

/-- What every step that meets `P` keeps, a run along `P` keeps. -/
theorem Along.invariant {I : σ → Prop} {P : σ → α → Prop}
    (hstep : ∀ s a, I s → P s a → I (step s a).2) {s : σ} (hs : I s) {as : List α}
    (h : Along step P s as) : I (exec step s as) := by
  induction as generalizing s with
  | nil => exact hs
  | cons a as ih =>
    obtain ⟨ha, has⟩ := h
    exact ih (hstep s a hs ha) has

/-- An invariant of the steps is an invariant of the runs. -/
theorem invariant_exec {I : σ → Prop} (hstep : ∀ s a, I s → I (step s a).2) {s : σ}
    (hs : I s) (as : List α) : I (exec step s as) :=
  Along.invariant (P := fun _ _ => True) (fun s a hI _ => hstep s a hI) hs
    (along_input_iff.mpr fun _ _ => trivial)

/-- Two conditions that agree on the states satisfying an invariant hold along
the same runs. -/
theorem along_congr {I : σ → Prop} {P Q : σ → α → Prop}
    (hstep : ∀ s a, I s → I (step s a).2) (hPQ : ∀ s a, I s → (P s a ↔ Q s a)) {s : σ}
    (hs : I s) (as : List α) : Along step P s as ↔ Along step Q s as := by
  induction as generalizing s with
  | nil => exact Iff.rfl
  | cons a as ih => rw [along_cons, along_cons, hPQ s a hs, ih (hstep s a hs)]

/-- **Exact conditions.**  If a step from a good state (`G`) of the invariant
`I` leads to a good state exactly when it meets `C`, then all states of a run
are good exactly when all its steps meet `C`. -/
theorem forall_prefix_iff_along {I G : σ → Prop} {C : σ → α → Prop}
    (hstep : ∀ s a, I s → I (step s a).2)
    (hC : ∀ s a, I s → G s → (G (step s a).2 ↔ C s a)) {s : σ} (hs : I s)
    (hgood : G s) (as : List α) :
    (∀ xs, xs <+: as → G (exec step s xs)) ↔ Along step C s as := by
  induction as generalizing s with
  | nil => simp [hgood]
  | cons a as ih =>
    rw [along_cons, ← hC s a hs hgood]
    refine ⟨?_, ?_⟩
    · intro h
      have ha : G (step s a).2 := h [a] ⟨as, rfl⟩
      refine ⟨ha, (ih (hstep s a hs) ha).mp ?_⟩
      intro xs hxs
      exact h (a :: xs) ((List.prefix_cons_inj a).mpr hxs)
    · rintro ⟨ha, has⟩ xs hxs
      rcases xs with - | ⟨x, xs⟩
      · exact hgood
      · obtain ⟨rfl, hxs'⟩ := List.cons_prefix_cons.mp hxs
        exact (ih (hstep s x hs) ha).mpr has xs hxs'

/-- **Exact conditions for what a run may not lose.**  A reflexive and
transitive relation holds from every earlier to every later state of a run
exactly when every single step respects it. -/
theorem forall_later_iff_along {R : σ → σ → Prop} (hrefl : ∀ s, R s s)
    (htrans : ∀ s t u, R s t → R t u → R s u) {s : σ} {as : List α} :
    (∀ xs ys, xs ++ ys <+: as → R (exec step s xs) (exec step s (xs ++ ys))) ↔
      Along step (fun s a => R s (step s a).2) s as := by
  rw [along_iff]
  refine ⟨?_, ?_⟩
  · rintro h xs a ys rfl
    rw [← exec_concat]
    exact h xs [a] ⟨ys, by simp⟩
  · intro h xs ys
    induction ys using List.reverseRecOn with
    | nil => intro _; simpa using hrefl _
    | append_singleton ys a ih =>
      rintro ⟨zs, e⟩
      have hlast := h (xs ++ ys) a zs (by rw [← e]; simp)
      refine htrans _ _ _ (ih ⟨a :: zs, by rw [← e]; simp⟩) ?_
      rw [← List.append_assoc, exec_concat]
      exact hlast

/-! ### Components -/

variable {γ δ : Type*}

/-- What a component gets of a run of the whole: `view s a` at the step from `s`
by `a`. -/
def seen (step : σ → α → β × σ) (view : σ → α → List γ) : σ → List α → List γ
  | _, [] => []
  | s, a :: as => view s a ++ seen step view (step s a).2 as

theorem seen_append (view : σ → α → List γ) (s : σ) (as bs : List α) :
    seen step view s (as ++ bs) =
      seen step view s as ++ seen step view (exec step s as) bs := by
  induction as generalizing s with
  | nil => rfl
  | cons a as ih =>
    show view s a ++ seen step view (step s a).2 (as ++ bs) = _
    rw [ih, ← List.append_assoc]
    rfl

/-- **Components.**  If the component `proj` does over `view s a` what the whole
does to it at every single step, then in a run of the whole it does what it does
alone, over what it sees of the run. -/
theorem exec_component (proj : σ → τ) {step' : τ → γ → δ × τ} {view : σ → α → List γ}
    (h : ∀ s a, proj (step s a).2 = exec step' (proj s) (view s a)) (s : σ) (as : List α) :
    proj (exec step s as) = exec step' (proj s) (seen step view s as) := by
  induction as generalizing s with
  | nil => rfl
  | cons a as ih =>
    show proj (exec step (step s a).2 as) = exec step' (proj s) (view s a ++ _)
    rw [ih, h, exec_append]

end Machine
