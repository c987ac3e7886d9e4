/-
CertStore/Admission.lean

When `add_cert` accepts a call, and with which error it refuses one.

The checks of `screen` and the look at the counter that `record` takes are
five guards in a row (`guards`).  The result of a call is the first violation
among them (`step_result`), although the last guard is looked at only after two
writes.  `guards_congr` collects all that the guards depend on: of the origin
only that it is signed, of the signatures only the set and whether there are
fewer than eight, of the storage only the counter.
-/
import CertStore.Calls
import CertStore.Guards
import Mathlib.Data.List.Perm.Basic

namespace CertStore

open Scale Guards

variable {A : Type} {host : Host}

/-! ### The guards -/

/-- The checks that come before any write. -/
def checks (host : Host) (c : Call A) : List (Guard DispatchError) :=
  [⟨c.data.length < 1024, .other "Certification is too large"⟩,
    ⟨c.sigs.length < 8, .other "Too many signers"⟩,
    ⟨∃ who, c.origin = .signed who, .badOrigin⟩,
    ⟨∀ sig ∈ c.sigs, host.sr25519Verify sig.signature c.data sig.accountId = true,
      .other "Signature is invalid"⟩]

/-- The counter has a next value. -/
def room (st : State A) : Guard DispatchError :=
  ⟨st.certificateCount.val < U128.max, .other "index overflowed"⟩

/-- Everything that can fail, in order. -/
def guards (host : Host) (st : State A) (c : Call A) : List (Guard DispatchError) :=
  checks host c ++ [room st]

/-- `screen` makes the checks in their order. -/
theorem screen_result (c : Call A) :
    (screen host c).map (fun _ => ()) = firstViolation (checks host c) := by
  obtain ⟨origin, data, sigs⟩ := c
  unfold screen checks
  by_cases hdata : data.length < 1024
  · rw [dif_pos hdata, firstViolation_cons_pos (by simpa using hdata)]
    by_cases hsigs : sigs.length < 8
    · rw [dif_pos hsigs, firstViolation_cons_pos (by simpa using hsigs)]
      cases origin with
      | signed who =>
        rw [firstViolation_cons_pos (by simp)]
        by_cases hver : ∀ sig ∈ sigs, host.sr25519Verify sig.signature data sig.accountId = true
        · rw [firstViolation_cons_pos (by simpa using hver)]
          dsimp only
          rw [dif_pos hver]
          rfl
        · rw [firstViolation_cons_neg (by simpa using hver)]
          dsimp only
          rw [dif_neg hver]
          rfl
      | root =>
        rw [firstViolation_cons_neg (by simp)]
        rfl
      | none =>
        rw [firstViolation_cons_neg (by simp)]
        rfl
    · rw [dif_neg hsigs, firstViolation_cons_neg (by simpa using hsigs)]
      rfl
  · rw [dif_neg hdata, firstViolation_cons_neg (by simpa using hdata)]
    rfl

/-- **The result of a call is the first violation of its guards.** -/
theorem step_result (st : State A) (c : Call A) :
    (step host st c).1 = firstViolation (guards host st c) := by
  rw [guards, firstViolation_append, ← screen_result, step_eq]
  rcases screen host c with e | sub
  · rfl
  · show (record st sub).1 = firstViolation [room st]
    by_cases h : st.certificateCount.val < U128.max
    · have hroom : (room st).holds = true := decide_eq_true h
      rw [record_of_room h, firstViolation_cons_pos hroom]
      rfl
    · have hroom : ¬(room st).holds = true := by simpa [room] using h
      rw [record_of_full h, firstViolation_cons_neg hroom]
      rfl

/-- A call is accepted exactly when all its guards hold. -/
theorem accepted_iff {st : State A} {c : Call A} :
    (step host st c).1 = .ok () ↔
      c.data.length < 1024 ∧ c.sigs.length < 8 ∧ (∃ who, c.origin = .signed who) ∧
        (∀ sig ∈ c.sigs, host.sr25519Verify sig.signature c.data sig.accountId = true) ∧
        st.certificateCount.val < U128.max := by
  rw [step_result, firstViolation_eq_ok_iff]
  simp only [guards, checks, room, List.forall_mem_append, List.forall_mem_cons,
    decide_eq_true_eq, List.not_mem_nil, false_imp_iff, implies_true, and_true, and_assoc]

/-! ### What the guards depend on -/

theorem guards_congr {st st' : State A} {c c' : Call A} (hdata : c'.data = c.data)
    (horigin : (∃ who, c'.origin = .signed who) ↔ ∃ who, c.origin = .signed who)
    (hsize : c'.sigs.length < 8 ↔ c.sigs.length < 8)
    (hsigs : ∀ sig, sig ∈ c'.sigs ↔ sig ∈ c.sigs)
    (hcount : st'.certificateCount = st.certificateCount) :
    guards host st' c' = guards host st c := by
  simp only [guards, checks, room, hdata, horigin, hsize, hsigs, hcount]

/-- Two calls that agree on what the guards depend on get the same result. -/
theorem step_result_congr {st st' : State A} {c c' : Call A}
    (h : guards host st' c' = guards host st c) :
    (step host st' c').1 = (step host st c).1 := by
  rw [step_result, step_result, h]

/-- No guard raises the conversion error. -/
theorem step_ne_not_a_signature (st : State A) (c : Call A) :
    (step host st c).1 ≠ .error (.other "This is not a signature") := by
  intro h
  rw [step_result] at h
  have hmem := error_mem h
  simp [guards, checks, room] at hmem

/-! ### The admission rule -/

/-- **The admission rule.**  A call is accepted exactly under the five
conditions, and otherwise refused with the error of the first one that fails.
Every `H512` makes a signature, so the conversion error never occurs.  Neither
the order nor a repetition of signatures matters, as long as a repetition does
not cross the limit on their number; nor do the stored certificates, the array
and the events; nor which account signed the transaction. -/
theorem admission_rule (host : Host) (st : State A) (c : Call A) :
    (step host st c).1 = firstViolation
      [⟨c.data.length < 1024, .other "Certification is too large"⟩,
        ⟨c.sigs.length < 8, .other "Too many signers"⟩,
        ⟨∃ who, c.origin = .signed who, .badOrigin⟩,
        ⟨∀ sig ∈ c.sigs, host.sr25519Verify sig.signature c.data sig.accountId = true,
          .other "Signature is invalid"⟩,
        ⟨st.certificateCount.val < 2 ^ 128 - 1, .other "index overflowed"⟩] ∧
    ((step host st c).1 = .ok () ↔
      c.data.length < 1024 ∧ c.sigs.length < 8 ∧ (∃ who, c.origin = .signed who) ∧
        (∀ sig ∈ c.sigs, host.sr25519Verify sig.signature c.data sig.accountId = true) ∧
        st.certificateCount.val < 2 ^ 128 - 1) ∧
    (∀ x : H512, Sr25519Signature.tryFrom x.bytes = .ok x) ∧
    (step host st c).1 ≠ .error (.other "This is not a signature") ∧
    (∀ sigs, sigs.Perm c.sigs →
      (step host st { c with sigs := sigs }).1 = (step host st c).1) ∧
    (∀ sigs, (∀ sig, sig ∈ sigs ↔ sig ∈ c.sigs) → (sigs.length < 8 ↔ c.sigs.length < 8) →
      (step host st { c with sigs := sigs }).1 = (step host st c).1) ∧
    (∀ st' : State A, st'.certificateCount = st.certificateCount →
      (step host st' c).1 = (step host st c).1) ∧
    (∀ who who' : A, (step host st { c with origin := .signed who }).1 =
      (step host st { c with origin := .signed who' }).1) := by
  have hset : ∀ sigs, (∀ sig, sig ∈ sigs ↔ sig ∈ c.sigs) →
      (sigs.length < 8 ↔ c.sigs.length < 8) →
      (step host st { c with sigs := sigs }).1 = (step host st c).1 := by
    intro sigs hmem hsize
    exact step_result_congr (guards_congr rfl Iff.rfl hsize hmem rfl)
  refine ⟨step_result st c, accepted_iff, Sr25519Signature.tryFrom_bytes,
    step_ne_not_a_signature st c, ?_, hset, ?_, ?_⟩
  · intro sigs hperm
    exact hset sigs (fun _ => hperm.mem_iff) (by rw [hperm.length_eq])
  · intro st' hcount
    exact step_result_congr (guards_congr rfl Iff.rfl Iff.rfl (fun _ => Iff.rfl) hcount)
  · intro who who'
    refine step_result_congr (guards_congr rfl ?_ Iff.rfl (fun _ => Iff.rfl) rfl)
    exact ⟨fun _ => ⟨who', rfl⟩, fun _ => ⟨who, rfl⟩⟩

/-- Eight copies of one good signature are too many, where one is not. -/
theorem repetition_refused :
    let sig : Sig := ⟨sampleSign alice [], alice⟩
    (step sampleHost .empty ⟨.signed alice, [], [sig]⟩).1 = .ok () ∧
    (step sampleHost .empty ⟨.signed alice, [], List.replicate 8 sig⟩).1 =
      .error (.other "Too many signers") ∧
    ¬∀ sigs sigs' : List Sig, (∀ s, s ∈ sigs ↔ s ∈ sigs') →
      (step sampleHost .empty ⟨.signed alice, [], sigs⟩).1 =
        (step sampleHost .empty ⟨.signed alice, [], sigs'⟩).1 := by
  have hone : (step sampleHost .empty
      ⟨.signed alice, [], [⟨sampleSign alice [], alice⟩]⟩).1 = .ok () := by decide
  have height : (step sampleHost .empty
      ⟨.signed alice, [], List.replicate 8 ⟨sampleSign alice [], alice⟩⟩).1 =
      .error (.other "Too many signers") := by decide
  refine ⟨hone, height, ?_⟩
  intro h
  have heq := h [⟨sampleSign alice [], alice⟩] (List.replicate 8 ⟨sampleSign alice [], alice⟩)
    (by intro s; simp)
  rw [hone, height] at heq
  cases heq

end CertStore
