/-
CertStore/Table.lean

What the certificate table holds after a run, and what it keeps.

* `cert_exact`: `cert(h)` is the certificate of the last call of the run that
  passed the checks with a hash of `h`, and the default value if there is none.
  Every stored certificate is authentic (`Authentic`).
* `sigs_kept_iff`: the table is keyed by the hash of the data alone and every
  submission overwrites its slot, so a signature is dropped whenever the same
  data comes in again without it.  A run keeps all signatures exactly when
  every submission brings along those already stored for its data.
* `only_signed_iff`: the check loop has nothing to refuse in an empty list of
  signatures, so an unsigned certificate is stored whenever a signed
  transaction submits one.  The table holds signed certificates only, at every
  point of a run, exactly when the run contains no such call.
-/
import CertStore.Ledger

namespace CertStore

open Scale

variable {A : Type} {host : Host}

/-! ### Stored certificates -/

/-- What the checks guarantee about the certificate stored under `h`. -/
structure Authentic (host : Host) (h : H256) (cert : Certificate) : Prop where
  hash_eq : cert.hash = h
  blake2_eq : host.blake2_256 cert.data = h
  data_lt : cert.data.length < 1024
  sigs_lt : cert.sigs.length < 8
  verified : ∀ sig ∈ cert.sigs, host.sr25519Verify sig.signature cert.data sig.accountId = true

theorem Submission.cert_authentic (sub : Submission host A) :
    Authentic host sub.hash sub.cert :=
  ⟨rfl, rfl, sub.data_lt, sub.sigs_lt, sub.verified⟩

/-- A written slot holds the certificate of a submission with that hash. -/
theorem exists_submission_of_entry {L : List (Submission host A)} {h : H256}
    {cert : Certificate} (hentry : (Ledger.state L).certificates.entry h = some cert) :
    ∃ sub ∈ L, sub.hash = h ∧ sub.cert = cert := by
  obtain ⟨sub, hlast, hcert⟩ := Option.map_eq_some_iff.mp hentry
  obtain ⟨hmem, hhash⟩ := Journal.mem_of_last hlast
  exact ⟨sub, hmem, hhash, hcert⟩

theorem authentic_of_entry {L : List (Submission host A)} {h : H256} {cert : Certificate}
    (hentry : (Ledger.state L).certificates.entry h = some cert) : Authentic host h cert := by
  obtain ⟨sub, -, rfl, rfl⟩ := exists_submission_of_entry hentry
  exact sub.cert_authentic

/-- The table read through the calls: the last passing one with that hash. -/
theorem cert_state (cs : List (Call A)) (h : H256) :
    (Ledger.state (submissions host cs)).cert h =
      match ((passing host cs).filter fun c => host.blake2_256 c.data = h).getLast? with
      | some c => { data := c.data, hash := h, sigs := c.sigs }
      | none => default := by
  rw [← map_call_submissions, List.filter_map, List.getLast?_map]
  show ((Journal.last Submission.hash (submissions host cs) h).map Submission.cert).getD default
    = _
  show _ = match (Journal.last Submission.hash (submissions host cs) h).map Submission.call with
    | some c => _
    | none => _
  rcases e : Journal.last Submission.hash (submissions host cs) h with - | sub
  · rfl
  · obtain ⟨-, hhash⟩ := Journal.mem_of_last e
    simp [Submission.cert, Submission.call, hhash]

/-- **The certificate table, exactly.**  After any run from empty storage,
`cert(h)` is the certificate of the last check-passing call with hash `h`, or
the default value if there is none; every written slot is authentic; and for
every hash but the all-zero one, the hash field of `cert(h)` tells whether `h`
has been written. -/
theorem cert_exact (host : Host) (cs : List (Call A)) :
    (∀ h, (run host .empty cs).cert h =
      match ((passing host cs).filter fun c => host.blake2_256 c.data = h).getLast? with
      | some c => { data := c.data, hash := h, sigs := c.sigs }
      | none => default) ∧
    (∀ h cert, (run host .empty cs).certificates.entry h = some cert → Authentic host h cert) ∧
    (∀ h, h ≠ default → (((run host .empty cs).cert h).hash = h ↔
      (run host .empty cs).certificates.containsKey h = true)) := by
  rw [run_empty]
  refine ⟨cert_state cs, fun h cert => authentic_of_entry, ?_⟩
  intro h hne
  rcases e : (Ledger.state (submissions host cs)).certificates.entry h with - | cert
  · -- never written: the getter answers with the zero hash
    have hdef : (Ledger.state (submissions host cs)).cert h = default := by
      simp [State.cert, StorageMap.get, e]
    rw [hdef, StorageMap.containsKey, e]
    simpa using hne.symm
  · have hget : (Ledger.state (submissions host cs)).cert h = cert := StorageMap.get_of_entry e
    rw [hget, StorageMap.containsKey, e]
    simpa using (authentic_of_entry e).hash_eq

/-! ### Which signatures are kept -/

/-- Every signature that the table of `st` holds is still in that of `st'`. -/
def SigsKept (st st' : State A) : Prop :=
  ∀ h, ∀ sig ∈ (st.cert h).sigs, sig ∈ (st'.cert h).sigs

/-- The call fails a check, or it brings along all the signatures that are
stored for its data. -/
def Resigns (host : Host) (st : State A) (c : Call A) : Prop :=
  c.ChecksPass host → ∀ sig ∈ (st.cert (host.blake2_256 c.data)).sigs, sig ∈ c.sigs

theorem sigsKept_refl (st : State A) : SigsKept st st := fun _ _ hsig => hsig

theorem sigsKept_trans (s t u : State A) (hst : SigsKept s t) (htu : SigsKept t u) :
    SigsKept s u :=
  fun h sig hsig => htu h sig (hst h sig hsig)

/-- One call keeps all signatures exactly when it brings them along. -/
theorem sigsKept_step_iff (st : State A) (c : Call A) :
    SigsKept st (step host st c).2 ↔ Resigns host st c := by
  obtain ⟨sub, rfl, hstep⟩ | ⟨hfail, e, hstep⟩ := step_cases host st c
  · rw [hstep]
    have hself : ((record st sub).2.cert sub.hash).sigs = sub.sigs := by
      rw [record_cert_self]
      rfl
    refine ⟨?_, ?_⟩
    · intro hkept _ sig hsig
      have hmem := hkept sub.hash sig hsig
      rwa [hself] at hmem
    · intro hre h sig hsig
      by_cases hh : h = sub.hash
      · subst hh
        rw [hself]
        exact hre sub.call_checksPass sig hsig
      · rwa [record_cert_of_ne st hh]
  · rw [hstep]
    exact ⟨fun _ hpass => absurd hpass hfail, fun _ => sigsKept_refl st⟩

/-- **When no recorded signature is lost.**  From any state, a run keeps every
signature from every point on exactly when each of its submissions brings along
the signatures stored for its data at that moment. -/
theorem sigs_kept_iff (host : Host) (st : State A) (cs : List (Call A)) :
    (∀ xs ys, xs ++ ys <+: cs → SigsKept (run host st xs) (run host st (xs ++ ys))) ↔
      Machine.Along (step host) (Resigns host) st cs := by
  unfold run
  rw [Machine.forall_later_iff_along sigsKept_refl sigsKept_trans]
  exact Machine.along_congr (I := fun _ => True) (fun _ _ h => h)
    (fun st c _ => sigsKept_step_iff st c) trivial cs

/-- The signature of `alice` is recorded, and gone after the second call. -/
theorem sigs_not_kept :
    let st := run sampleHost .empty [signedCall]
    let st' := run sampleHost st [unsignedCall]
    (st.cert (sampleDigest [])).sigs = [⟨sampleSign alice [], alice⟩] ∧
      (st'.cert (sampleDigest [])).sigs = [] ∧ ¬SigsKept st st' := by
  have hst : ((run sampleHost .empty [signedCall]).cert (sampleDigest [])).sigs =
      [⟨sampleSign alice [], alice⟩] := by decide
  have hst' : ((run sampleHost (run sampleHost .empty [signedCall]) [unsignedCall]).cert
      (sampleDigest [])).sigs = [] := by decide
  refine ⟨hst, hst', fun hkept => ?_⟩
  have hmem := hkept (sampleDigest []) ⟨sampleSign alice [], alice⟩ (by rw [hst]; simp)
  rw [hst'] at hmem
  cases hmem

/-! ### Signed certificates only -/

/-- Every stored certificate has a signature that verifies. -/
def OnlySigned (host : Host) (st : State A) : Prop :=
  ∀ h cert, st.certificates.entry h = some cert → cert.sigs ≠ [] ∧
    ∃ sig ∈ cert.sigs, host.sr25519Verify sig.signature cert.data sig.accountId = true

/-- A signed transaction that submits a certificate of legal size without any
signature. -/
def Call.Unsigned (c : Call A) : Prop :=
  (∃ who, c.origin = .signed who) ∧ c.data.length < 1024 ∧ c.sigs = []

theorem Call.Unsigned.checksPass {c : Call A} (h : c.Unsigned) : c.ChecksPass host := by
  obtain ⟨hsigned, hdata, hsigs⟩ := h
  refine ⟨hsigned, hdata, ?_, ?_⟩
  · simp [hsigs]
  · simp [hsigs]

/-- With signed certificates only, one call keeps it so exactly when it is not
an unsigned one. -/
theorem onlySigned_step_iff {st : State A} (hst : OnlySigned host st) (c : Call A) :
    OnlySigned host (step host st c).2 ↔ ¬c.Unsigned := by
  obtain ⟨sub, rfl, hstep⟩ | ⟨hfail, e, hstep⟩ := step_cases host st c
  · rw [hstep]
    refine ⟨?_, ?_⟩
    · rintro hsigned ⟨-, -, hsigs⟩
      have hentry : (record st sub).2.certificates.entry sub.hash = some sub.cert := by simp
      exact (hsigned _ _ hentry).1 hsigs
    · intro hun h cert hentry
      rw [record_certificates] at hentry
      by_cases hh : h = sub.hash
      · subst hh
        rw [StorageMap.entry_insert_self] at hentry
        obtain rfl := Option.some.inj hentry
        have hne : sub.sigs ≠ [] := fun hsigs => hun ⟨⟨sub.signer, rfl⟩, sub.data_lt, hsigs⟩
        obtain ⟨sig, hsig⟩ := List.exists_mem_of_ne_nil _ hne
        exact ⟨hne, sig, hsig, sub.verified sig hsig⟩
      · rw [StorageMap.entry_insert_of_ne _ hh] at hentry
        exact hst h cert hentry
  · rw [hstep]
    exact ⟨fun _ hun => hfail hun.checksPass, fun _ => hst⟩

/-- **When only signed certificates are stored.**  Along a run from empty
storage every stored certificate has a verifying signature, at every point,
exactly when no call of the run is an unsigned one. -/
theorem only_signed_iff (host : Host) (cs : List (Call A)) :
    (∀ xs, xs <+: cs → OnlySigned host (run host .empty xs)) ↔ ∀ c ∈ cs, ¬c.Unsigned := by
  have hempty : OnlySigned host (State.empty : State A) := by
    intro h cert hentry
    cases hentry
  have hrun := Machine.forall_prefix_iff_along (I := fun _ => True) (G := OnlySigned host)
    (C := fun _ c => ¬c.Unsigned) (fun _ _ h => h)
    (fun _ c _ hst => onlySigned_step_iff hst c) trivial hempty cs
  exact hrun.trans Machine.along_input_iff

/-- The unsigned call stores a certificate without signatures. -/
theorem not_only_signed :
    (run sampleHost .empty [unsignedCall]).certificates.entry (sampleDigest []) =
        some ⟨[], sampleDigest [], []⟩ ∧
      ¬OnlySigned sampleHost (run sampleHost .empty [unsignedCall]) := by
  have hentry : (run sampleHost .empty [unsignedCall]).certificates.entry (sampleDigest []) =
      some ⟨[], sampleDigest [], []⟩ := by decide
  exact ⟨hentry, fun h => (h _ _ hentry).1 rfl⟩

end CertStore
