/-
CertStore/Calls.lean

Calls of `add_cert`, and what one call can do.

`Submission host A` is a call that passed every check, with the checks as
fields: a value of it cannot break a limit or carry a bad signature.  `screen`
turns a call into a submission or into the error of the first check that it
fails, and touches no storage.  `record` is what happens after the checks.

The step lemma `step_eq` says that a call is `screen` followed by `record`; no
later module unfolds `addCert`.  `ChecksPass` is the same set of checks as a
predicate on calls (`screen_eq_ok`, `exists_screen_iff`), for statements that
speak of the calls themselves.
-/
import CertStore.Pallet
import CertStore.Machine

namespace CertStore

open Scale

variable {A : Type} {host : Host}

/-! ### Calls and runs -/

/-- The arguments of one `add_cert` call. -/
structure Call (A : Type) where
  origin : Origin A
  data : CertificateData
  sigs : List Sig
deriving DecidableEq

/-- Dispatch one call: its result and the storage after it. -/
def step (host : Host) (st : State A) (c : Call A) : DispatchResult × State A :=
  (addCert host c.origin c.data c.sigs).apply st

/-- The storage after a sequence of calls. -/
def run (host : Host) (st : State A) (cs : List (Call A)) : State A :=
  Machine.exec (step host) st cs

/-- The results of a sequence of calls. -/
def results (host : Host) (st : State A) (cs : List (Call A)) : List DispatchResult :=
  Machine.outs (step host) st cs

/-- The states that calls can produce from empty storage. -/
def Reachable (host : Host) (st : State A) : Prop := ∃ cs, st = run host .empty cs

theorem reachable_empty : Reachable host (State.empty : State A) := ⟨[], rfl⟩

theorem Reachable.step {st : State A} (h : Reachable host st) (c : Call A) :
    Reachable host (step host st c).2 := by
  obtain ⟨cs, rfl⟩ := h
  exact ⟨cs ++ [c], (Machine.exec_concat _ cs c).symm⟩

/-- The call passes every check that `add_cert` makes before it writes. -/
def Call.ChecksPass (host : Host) (c : Call A) : Prop :=
  (∃ who, c.origin = .signed who) ∧ c.data.length < 1024 ∧ c.sigs.length < 8 ∧
    ∀ sig ∈ c.sigs, host.sr25519Verify sig.signature c.data sig.accountId = true

instance : (origin : Origin A) → Decidable (∃ who, origin = .signed who)
  | .signed who => isTrue ⟨who, rfl⟩
  | .root => isFalse (by rintro ⟨who, e⟩; cases e)
  | .none => isFalse (by rintro ⟨who, e⟩; cases e)

instance : DecidablePred (Call.ChecksPass (A := A) host) := fun _ =>
  inferInstanceAs (Decidable (_ ∧ _ ∧ _ ∧ _))

/-- The calls of a sequence that pass every check, in order. -/
def passing (host : Host) (cs : List (Call A)) : List (Call A) :=
  cs.filter (·.ChecksPass host)

/-! ### The signature check -/

theorem checkCert_cons (data : CertificateData) (sig : Sig) (sigs : List Sig) :
    checkCert host data (sig :: sigs) =
      if host.sr25519Verify sig.signature data sig.accountId then checkCert host data sigs
      else .error (.other "Signature is invalid") := by
  unfold checkCert
  rw [List.forIn_cons, Sr25519Signature.tryFrom_bytes]
  cases h : host.sr25519Verify sig.signature data sig.accountId with
  | false =>
    simp [Except.mapError, bind, Except.bind, MultiSignature.verify, h]
    rfl
  | true =>
    simp [Except.mapError, bind, Except.bind, MultiSignature.verify, h]
    rfl

/-- The loop accepts exactly the lists in which every signature verifies. -/
theorem checkCert_eq (data : CertificateData) (sigs : List Sig) :
    checkCert host data sigs =
      if ∀ sig ∈ sigs, host.sr25519Verify sig.signature data sig.accountId = true then .ok ()
      else .error (.other "Signature is invalid") := by
  induction sigs with
  | nil => rfl
  | cons sig sigs ih =>
    rw [checkCert_cons, ih]
    by_cases h : host.sr25519Verify sig.signature data sig.accountId = true
    · simp [h]
    · simp [h]

/-! ### Submissions -/

/-- A call that passed the checks. -/
@[ext]
structure Submission (host : Host) (A : Type) where
  signer : A
  data : CertificateData
  sigs : List Sig
  data_lt : data.length < 1024
  sigs_lt : sigs.length < 8
  verified : ∀ sig ∈ sigs, host.sr25519Verify sig.signature data sig.accountId = true

namespace Submission

/-- The key the certificate is stored under. -/
def hash (sub : Submission host A) : H256 := host.blake2_256 sub.data

/-- The certificate that is stored. -/
def cert (sub : Submission host A) : Certificate :=
  { data := sub.data, hash := sub.hash, sigs := sub.sigs }

/-- The event that announces it. -/
def event (sub : Submission host A) : Event A := .certAdded sub.signer sub.hash

/-- The call it came from. -/
def call (sub : Submission host A) : Call A := ⟨.signed sub.signer, sub.data, sub.sigs⟩

theorem call_checksPass (sub : Submission host A) : sub.call.ChecksPass host :=
  ⟨⟨sub.signer, rfl⟩, sub.data_lt, sub.sigs_lt, sub.verified⟩

end Submission

/-- The checks of `add_cert`, in its order. -/
def screen (host : Host) (c : Call A) : Except DispatchError (Submission host A) :=
  if hdata : c.data.length < 1024 then
    if hsigs : c.sigs.length < 8 then
      match c.origin with
      | .signed who =>
        if hver : ∀ sig ∈ c.sigs,
            host.sr25519Verify sig.signature c.data sig.accountId = true then
          .ok ⟨who, c.data, c.sigs, hdata, hsigs, hver⟩
        else .error (.other "Signature is invalid")
      | _ => .error .badOrigin
    else .error (.other "Too many signers")
  else .error (.other "Certification is too large")

/-- A submission admits only the call it came from. -/
theorem screen_eq_ok {c : Call A} {sub : Submission host A} :
    screen host c = .ok sub ↔ c = sub.call := by
  refine ⟨?_, ?_⟩
  · intro h
    obtain ⟨origin, data, sigs⟩ := c
    unfold screen at h
    cases origin with
    | signed who =>
      split_ifs at h
      obtain rfl := Except.ok.inj h
      rfl
    | root => split_ifs at h
    | none => split_ifs at h
  · rintro rfl
    unfold screen Submission.call
    rw [dif_pos sub.data_lt, dif_pos sub.sigs_lt]
    exact dif_pos sub.verified

theorem screen_call (sub : Submission host A) : screen host sub.call = .ok sub :=
  screen_eq_ok.mpr rfl

theorem exists_screen_iff {c : Call A} :
    (∃ sub, screen host c = .ok sub) ↔ c.ChecksPass host := by
  refine ⟨?_, ?_⟩
  · rintro ⟨sub, h⟩
    rw [screen_eq_ok.mp h]
    exact sub.call_checksPass
  · rintro ⟨⟨who, hwho⟩, hdata, hsigs, hver⟩
    refine ⟨⟨who, c.data, c.sigs, hdata, hsigs, hver⟩, screen_eq_ok.mpr ?_⟩
    rw [Submission.call, ← hwho]

/-- A call either is the call of a submission, or fails a check. -/
theorem screen_cases (host : Host) (c : Call A) :
    (∃ sub : Submission host A, c = sub.call ∧ screen host c = .ok sub) ∨
      ¬c.ChecksPass host ∧ ∃ e, screen host c = .error e := by
  rcases h : screen host c with e | sub
  · refine Or.inr ⟨?_, e, rfl⟩
    rw [← exists_screen_iff, h]
    rintro ⟨sub, hsub⟩
    cases hsub
  · exact Or.inl ⟨sub, screen_eq_ok.mp h, rfl⟩

/-! ### Recording a submission -/

/-- What is written before the counter is looked at. -/
def State.write (st : State A) (sub : Submission host A) : State A :=
  { st with
    certificates := st.certificates.insert sub.hash sub.cert
    certificateArray := st.certificateArray.insert st.certificateCount sub.hash }

/-- What follows the checks: the writes, and then either the count and the
event or the error of a full counter. -/
def record (st : State A) (sub : Submission host A) : DispatchResult × State A :=
  if h : st.certificateCount.val < U128.max then
    (.ok (), { st.write sub with
      certificateCount := .ofNat (n := st.certificateCount.val + 1) h
      events := st.events ++ [sub.event] })
  else (.error (.other "index overflowed"), st.write sub)

/-- With room in the counter, everything is recorded. -/
theorem record_of_room {st : State A} (h : st.certificateCount.val < U128.max)
    (sub : Submission host A) :
    record st sub = (.ok (), { st.write sub with
      certificateCount := .ofNat (n := st.certificateCount.val + 1) h
      events := st.events ++ [sub.event] }) := dif_pos h

/-- With a full counter, the two inserts are all that happens. -/
theorem record_of_full {st : State A} (h : ¬st.certificateCount.val < U128.max)
    (sub : Submission host A) :
    record st sub = (.error (.other "index overflowed"), st.write sub) := dif_neg h

@[simp] theorem record_certificates (st : State A) (sub : Submission host A) :
    (record st sub).2.certificates = st.certificates.insert sub.hash sub.cert := by
  unfold record
  split_ifs <;> rfl

/-- The certificate of the submission is the one that is read back. -/
theorem record_cert_self (st : State A) (sub : Submission host A) :
    (record st sub).2.cert sub.hash = sub.cert := by
  rw [State.cert, record_certificates]
  exact StorageMap.get_insert_self _ _ _

/-- The slots of other hashes are not touched. -/
theorem record_cert_of_ne (st : State A) {sub : Submission host A} {h : H256}
    (hne : h ≠ sub.hash) : (record st sub).2.cert h = st.cert h := by
  rw [State.cert, record_certificates]
  exact StorageMap.get_insert_of_ne _ hne _

theorem insertCert_apply (st : State A) (sub : Submission host A) :
    (insertCert sub.hash sub.cert).apply st =
      if h : st.certificateCount.val < U128.max then
        (.ok (), { st.write sub with
          certificateCount := .ofNat (n := st.certificateCount.val + 1) h })
      else (.error (.other "index overflowed"), st.write sub) := by
  simp only [insertCert, Dispatch.apply_bind, CertificateCount.apply_get, Certificates.insert,
    CertificateArray.insert, CertificateCount.put, Dispatch.apply_modify, Dispatch.apply_liftM,
    U128.checkedAdd_one]
  split_ifs with h
  · rfl
  · rfl

/-- A call that passes the checks is recorded. -/
theorem step_call (st : State A) (sub : Submission host A) :
    step host st sub.call = record st sub := by
  show (addCert host (.signed sub.signer) sub.data sub.sigs).apply st = record st sub
  simp only [addCert, ensure_pos sub.data_lt, ensure_pos sub.sigs_lt, ensureSigned,
    checkCert_eq, if_pos sub.verified, Dispatch.apply_bind, Dispatch.apply_liftM]
  have hins : (insertCert (host.blake2_256 sub.data) ⟨sub.data, host.blake2_256 sub.data,
      sub.sigs⟩).apply st = _ := insertCert_apply st sub
  rw [hins, record]
  split_ifs with h
  · rfl
  · rfl

/-- A call that fails a check returns that check's error and changes nothing. -/
theorem step_of_screen_error (st : State A) {c : Call A} {e : DispatchError}
    (h : screen host c = .error e) : step host st c = (.error e, st) := by
  obtain ⟨origin, data, sigs⟩ := c
  show (addCert host origin data sigs).apply st = (.error e, st)
  simp only [addCert, Dispatch.apply_bind, Dispatch.apply_liftM]
  by_cases hdata : data.length < 1024
  · rw [ensure_pos hdata]
    by_cases hsigs : sigs.length < 8
    · rw [ensure_pos hsigs]
      cases origin with
      | signed who =>
        by_cases hver : ∀ sig ∈ sigs, host.sr25519Verify sig.signature data sig.accountId = true
        · -- all checks pass, so `screen` returned a submission
          have hok : screen host ⟨.signed who, data, sigs⟩ =
              .ok ⟨who, data, sigs, hdata, hsigs, hver⟩ := screen_eq_ok.mpr rfl
          rw [hok] at h
          cases h
        · rw [checkCert_eq, if_neg hver]
          simpa [screen, hdata, hsigs, hver, ensureSigned] using h
      | root => simpa [screen, hdata, hsigs, ensureSigned] using h
      | none => simpa [screen, hdata, hsigs, ensureSigned] using h
    · rw [ensure_neg hsigs]
      simpa [screen, hdata, hsigs] using h
  · rw [ensure_neg hdata]
    simpa [screen, hdata] using h

/-- **One call.**  The checks come first and touch nothing; then the submission
is recorded. -/
theorem step_eq (st : State A) (c : Call A) :
    step host st c =
      match screen host c with
      | .ok sub => record st sub
      | .error e => (.error e, st) := by
  rcases h : screen host c with e | sub
  · exact step_of_screen_error st h
  · rw [screen_eq_ok.mp h]
    exact step_call st sub

/-- The two kinds of calls: submissions that are recorded, and calls that fail
a check and leave the storage alone. -/
theorem step_cases (host : Host) (st : State A) (c : Call A) :
    (∃ sub : Submission host A, c = sub.call ∧ step host st c = record st sub) ∨
      ¬c.ChecksPass host ∧ ∃ e, step host st c = (.error e, st) := by
  obtain ⟨sub, rfl, -⟩ | ⟨hfail, e, herr⟩ := screen_cases host c
  · exact Or.inl ⟨sub, rfl, step_call st sub⟩
  · exact Or.inr ⟨hfail, e, step_of_screen_error st herr⟩

/-- A call that returns `Ok` is a submission that found room. -/
theorem exists_submission_of_ok {st : State A} {c : Call A}
    (hok : (step host st c).1 = .ok ()) :
    ∃ sub : Submission host A, c = sub.call ∧ st.certificateCount.val < U128.max := by
  obtain ⟨sub, rfl, hstep⟩ | ⟨-, e, herr⟩ := step_cases host st c
  · refine ⟨sub, rfl, ?_⟩
    by_contra hfull
    rw [hstep, record_of_full hfull] at hok
    cases hok
  · rw [herr] at hok
    cases hok

/-! ### Calls to evaluate the model with -/

/-- A certificate of the empty document with the signature of `alice`. -/
def signedCall : Call AccountId32 := ⟨.signed alice, [], [⟨sampleSign alice [], alice⟩]⟩

/-- The same document without signatures, submitted by somebody else. -/
def unsignedCall : Call AccountId32 := ⟨.signed bob, [], []⟩

/-- The checks of `signedCall`. -/
def signedSubmission : Submission sampleHost AccountId32 :=
  ⟨alice, [], [⟨sampleSign alice [], alice⟩], by decide, by decide, by decide⟩

end CertStore
