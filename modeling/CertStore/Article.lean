/-
CertStore/Article.lean

The listing of `add_cert` in `article.md`, next to the pallet.

The listing makes the checks in another order: the origin comes before the
sizes.  A check only reads, so the order can be seen in the error alone:
`listing_agrees` says that both versions build the same storage from every
sequence of calls, and tells for which sequences they also return the same
results.
-/
import CertStore.Admission

namespace CertStore

open Scale Guards

variable {A : Type} {host : Host}

namespace Article

/-- The dispatchable `add_cert` of the listing. -/
def addCert (host : Host) (origin : Origin A) (data : CertificateData) (sigs : List Sig) :
    Dispatch A Unit := do
  let sender ← ensureSigned origin
  ensure (data.length < 1024) "Certification is too large"
  ensure (sigs.length < 8) "Too many signers"
  checkCert host data sigs
  let hash := host.blake2_256 data
  let cert : Certificate := { data := data, sigs := sigs, hash := hash }
  insertCert hash cert
  depositEvent (.certAdded sender hash)

/-- Dispatch one call. -/
def step (host : Host) (st : State A) (c : Call A) : DispatchResult × State A :=
  (addCert host c.origin c.data c.sigs).apply st

/-- With a signer the order of the checks does not matter. -/
theorem step_of_signed (st : State A) {c : Call A} (h : ∃ who, c.origin = .signed who) :
    step host st c = CertStore.step host st c := by
  obtain ⟨origin, data, sigs⟩ := c
  obtain ⟨who, rfl⟩ := h
  show (addCert host (.signed who) data sigs).apply st =
    (CertStore.addCert host (.signed who) data sigs).apply st
  simp only [addCert, CertStore.addCert, ensureSigned, Dispatch.apply_bind, Dispatch.apply_liftM]

/-- Without one nothing else is looked at. -/
theorem step_of_not_signed (st : State A) {c : Call A} (h : ¬∃ who, c.origin = .signed who) :
    step host st c = (.error .badOrigin, st) := by
  obtain ⟨origin, data, sigs⟩ := c
  cases origin with
  | signed who => exact absurd ⟨who, rfl⟩ h
  | root => rfl
  | none => rfl

end Article

/-- The pallet finds that there is no signer only if the sizes are legal. -/
theorem step_badOrigin_iff (st : State A) {c : Call A} (h : ¬∃ who, c.origin = .signed who) :
    (step host st c).1 = .error .badOrigin ↔ c.data.length < 1024 ∧ c.sigs.length < 8 := by
  rw [step_result, guards, checks, List.cons_append, List.cons_append, List.cons_append]
  by_cases hdata : c.data.length < 1024
  · rw [firstViolation_cons_pos (decide_eq_true hdata)]
    by_cases hsigs : c.sigs.length < 8
    · rw [firstViolation_cons_pos (decide_eq_true hsigs),
        firstViolation_cons_neg (by simpa using h)]
      exact iff_of_true rfl ⟨hdata, hsigs⟩
    · rw [firstViolation_cons_neg (by simpa using hsigs)]
      exact iff_of_false (by rintro ⟨⟩) fun hlegal => hsigs hlegal.2
  · rw [firstViolation_cons_neg (by simpa using hdata)]
    exact iff_of_false (by rintro ⟨⟩) fun hlegal => hdata hlegal.1

/-- The call shows no difference: it is signed, or of legal size. -/
def Call.SignedOrLegal (c : Call A) : Prop :=
  (∃ who, c.origin = .signed who) ∨ c.data.length < 1024 ∧ c.sigs.length < 8

/-- One call. -/
theorem listing_step (host : Host) (st : State A) (c : Call A) :
    (Article.step host st c).2 = (step host st c).2 ∧
      ((Article.step host st c).1 = (step host st c).1 ↔ c.SignedOrLegal) := by
  by_cases hsigned : ∃ who, c.origin = .signed who
  · rw [Article.step_of_signed st hsigned]
    exact ⟨rfl, iff_of_true rfl (Or.inl hsigned)⟩
  · have hfail : ¬c.ChecksPass host := fun hpass => hsigned hpass.1
    rw [Article.step_of_not_signed st hsigned]
    refine ⟨?_, ?_⟩
    · obtain ⟨sub, rfl, -⟩ | ⟨-, e, hstep⟩ := step_cases host st c
      · exact absurd sub.call_checksPass hfail
      · rw [hstep]
    · rw [eq_comm, step_badOrigin_iff st hsigned, Call.SignedOrLegal, or_iff_right hsigned]

/-- **The listing and the pallet.**  From any storage and for any sequence of
calls, the listing of the article builds the same storage as the pallet; and it
returns the same results exactly if every call of the sequence is signed or of
legal size. -/
theorem listing_agrees (host : Host) (st : State A) (cs : List (Call A)) :
    Machine.exec (Article.step host) st cs = run host st cs ∧
      (Machine.outs (Article.step host) st cs = results host st cs ↔
        ∀ c ∈ cs, c.SignedOrLegal) := by
  induction cs generalizing st with
  | nil => simp [run, results]
  | cons c cs ih =>
    obtain ⟨hstate, hresult⟩ := listing_step host st c
    obtain ⟨hrun, houts⟩ := ih (step host st c).2
    rw [run] at hrun
    rw [results] at houts
    rw [Machine.exec_cons, Machine.outs_cons, hstate, run, results, Machine.exec_cons,
      Machine.outs_cons, List.cons.injEq, List.forall_mem_cons]
    exact ⟨hrun, and_congr hresult houts⟩

end CertStore
