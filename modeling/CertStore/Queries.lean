/-
CertStore/Queries.lean

What the clients read from the raw storage, and how much of it there is.

`api.query` asks the node for the bytes under a key, takes the default value of
the metadata where there are none, and decodes with the type table of `Api.tsx`.
`queries_run` carries the clients' view through the whole stack: the calls as the
pallet executes them over bytes, the runtime's derived encoding, and the client's
own decoding.

`storage_bounded` needs no assumption about the layout.  A call that passes the
checks writes at most two keys that may be new, besides the counter's, and no
value is longer than `maxValueLength`, the longest certificate that the checks
let through.
-/
import CertStore.RawStorage
import Mathlib.Data.Set.Card

namespace CertStore

open Scale Refine

variable {A : Type} {host : Host} {key : Layout}

/-! ### Queries -/

/-- The bytes that a query works on: what is stored, or else the default value
that the metadata has for the item. -/
def Raw.query (key : Layout) (raw : RawState A) (item : Item) (fallback : List UInt8) :
    List UInt8 :=
  (raw.store.entry (key item)).getD fallback

/-- `api.query.certStore.certificates(h)`. -/
def queryCertificates (fuel : ℕ) (key : Layout) (raw : RawState A) (h : H256) : Option Value :=
  ((decodeAs fuel (.named "Certificate")).run
    (Raw.query key raw (.certificates h) (default : Certificate).encode)).map Prod.fst

/-- `api.query.certStore.certificateArray(i)`. -/
def queryCertificateArray (fuel : ℕ) (key : Layout) (raw : RawState A) (i : U128) :
    Option Value :=
  ((decodeAs fuel (.fixed 32)).run
    (Raw.query key raw (.certificateArray i) (default : H256).bytes)).map Prod.fst

/-- `api.query.certStore.certificateCount()`. -/
def queryCertificateCount (key : Layout) (raw : RawState A) : Option ℕ :=
  ((le 16).run (Raw.query key raw .certificateCount (0 : U128).encode)).map Prod.fst

theorem run_of_reads {α : Type} {d : Decoder α} {bs : List UInt8} {a : α} (h : Reads d bs a) :
    (d.run bs).map Prod.fst = some a := by
  have hrun := h []
  rw [List.append_nil] at hrun
  rw [hrun]
  rfl

section Keeps

variable {H : Set H256} {st : State A} {raw : RawState A}

/-- Stored or not, a query gets the encoding of what the getter returns. -/
theorem Keeps.query_certificates (h : Keeps key H st raw) {hash : H256} (hh : hash ∈ H) :
    Raw.query key raw (.certificates hash) (default : Certificate).encode =
      (st.cert hash).encode := by
  rw [Raw.query, h.certificates hash hh, State.cert, StorageMap.get]
  cases st.certificates.entry hash with
  | none => rfl
  | some cert => rfl

theorem Keeps.query_array (h : Keeps key H st raw) (i : U128) :
    Raw.query key raw (.certificateArray i) (default : H256).bytes =
      (st.certificateArray.get i).bytes := by
  rw [Raw.query, h.array i, StorageMap.get]
  cases st.certificateArray.entry i with
  | none => rfl
  | some hash => rfl

theorem Keeps.query_count (h : Keeps key H st raw) :
    Raw.query key raw .certificateCount (0 : U128).encode = st.certificateCount.encode := by
  rcases h.count with hentry | ⟨hentry, hzero⟩
  · rw [Raw.query, hentry]
    rfl
  · rw [Raw.query, hentry, hzero]
    rfl

/-- The client reads what the getter returns. -/
theorem Keeps.queryCertificates_eq (h : Keeps key H st raw) {hash : H256} (hh : hash ∈ H)
    (hdata : (st.cert hash).data.length < 2 ^ 32) (hsigs : (st.cert hash).sigs.length < 2 ^ 32)
    {fuel : ℕ} (hfuel : 4 ≤ fuel) :
    queryCertificates fuel key raw hash = some (st.cert hash).value := by
  rw [queryCertificates, h.query_certificates hh, decodeAs, resolve_certificate hfuel]
  exact run_of_reads (reads_certificateSchema hdata hsigs)

end Keeps

/-- The getter answers with certificates that are short enough to be encoded. -/
theorem length_cert (host : Host) (cs : List (Call A)) (h : H256) :
    ((run host .empty cs).cert h).data.length < 2 ^ 32 ∧
      ((run host .empty cs).cert h).sigs.length < 2 ^ 32 := by
  rw [State.cert]
  rcases e : (run host .empty cs).certificates.entry h with - | cert
  · rw [StorageMap.get, e]
    exact ⟨by decide, by decide⟩
  · rw [StorageMap.get_of_entry e]
    exact length_of_entry e

/-- **What the clients see.**  Let the layout keep apart the certificates of the
hashes in `H`, among them those of the calls' data, the array and the count.  After
any run over bytes the client's queries return the certificate at every hash in `H`
as the getter would, the default one for a hash that was never written, and the
array and the count. -/
theorem queries_run (key : Layout) (H : Set H256) (hkey : Set.InjOn key (items H)) (host : Host)
    (cs : List (Call A)) (hcs : ∀ c ∈ cs, host.blake2_256 c.data ∈ H) {fuel : ℕ}
    (hfuel : 4 ≤ fuel) :
    let st := run host .empty cs
    let raw := Raw.run key host .empty cs
    (∀ h ∈ H, queryCertificates fuel key raw h = some (st.cert h).value) ∧
      (∀ i, queryCertificateArray fuel key raw i =
        some (.bytes (st.certificateArray.get i).bytes)) ∧
      queryCertificateCount key raw = some st.certificateCount.val := by
  intro st raw
  have hkeeps : Keeps key H st raw := run_keeps hkey hcs
  refine ⟨?_, ?_, ?_⟩
  · intro h hh
    obtain ⟨hdata, hsigs⟩ := length_cert host cs h
    exact hkeeps.queryCertificates_eq hh hdata hsigs hfuel
  · intro i
    have hresolve : resolve types fuel (.fixed 32) = some (.fixed 32) := by
      obtain ⟨k, rfl⟩ := Nat.exists_eq_add_of_le' hfuel
      rfl
    rw [queryCertificateArray, hkeeps.query_array, decodeAs, hresolve]
    exact run_of_reads (Schema.reads_fixed _)
  · rw [queryCertificateCount, hkeeps.query_count]
    exact run_of_reads (reads_le (k := 16) st.certificateCount.isLt)

/-- The query for a stored certificate, and one for a hash that is not there. -/
theorem queries_run_signed :
    let raw := Raw.run sampleLayout sampleHost .empty [signedCall]
    queryCertificates 4 sampleLayout raw (sampleDigest []) =
        some (⟨[], sampleDigest [], [⟨sampleSign alice [], alice⟩]⟩ : Certificate).value ∧
      queryCertificates 4 sampleLayout raw (sampleDigest [0]) =
        some (default : Certificate).value ∧
      queryCertificateCount sampleLayout raw = some 1 := by
  obtain ⟨hcert, -, hcount⟩ := queries_run sampleLayout Set.univ
    (sampleLayout_injective.injOn) sampleHost [signedCall] (fun _ _ => trivial) (le_refl 4)
  have hstored : (run sampleHost .empty [signedCall]).cert (sampleDigest []) =
      ⟨[], sampleDigest [], [⟨sampleSign alice [], alice⟩]⟩ := by decide
  have habsent : (run sampleHost .empty [signedCall]).cert (sampleDigest [0]) = default := by
    decide
  refine ⟨?_, ?_, hcount⟩
  · rw [hcert _ trivial, hstored]
  · rw [hcert _ trivial, habsent]

/-! ### How much is stored -/

/-- The length of the longest certificate that passes the checks. -/
def maxValueLength : ℕ := 1730

theorem length_encodeCompact {n : ℕ} (h : n < 2 ^ 14) : (encodeCompact n).length ≤ 2 := by
  unfold encodeCompact
  split_ifs
  · exact Nat.le_succ 1
  · exact le_rfl

theorem length_flatMap_const {γ : Type} {e : γ → List UInt8} {k : ℕ} (xs : List γ)
    (h : ∀ x, (e x).length = k) : (xs.flatMap e).length = k * xs.length := by
  induction xs with
  | nil => rfl
  | cons x xs ih =>
    rw [List.flatMap_cons, List.length_append, ih, h, List.length_cons, Nat.mul_succ, Nat.add_comm]

theorem Submission.length_encode_cert (sub : Submission host A) :
    sub.cert.encode.length ≤ maxValueLength := by
  have hdata := sub.data_lt
  have hsigs := sub.sigs_lt
  have hsig : ∀ sig : Sig, sig.encode.length = 96 := by
    intro sig
    rw [Sig.encode, List.length_append, sig.signature.length_eq, sig.accountId.length_eq]
  have hcompact := length_encodeCompact (n := sub.data.length) (by omega)
  have hcompact' : (encodeCompact sub.sigs.length).length ≤ 1 := by
    rw [encodeCompact, if_pos (by omega)]
    exact le_rfl
  have hbody : (sub.data.flatMap fun b => [b]).length = 1 * sub.data.length :=
    length_flatMap_const _ fun _ => rfl
  have hlist : (sub.sigs.flatMap Sig.encode).length = 96 * sub.sigs.length :=
    length_flatMap_const _ hsig
  show (CertificateData.encode sub.data ++ sub.hash.bytes ++
    encodeVec Sig.encode sub.sigs).length ≤ 1730
  rw [CertificateData.encode, encodeVec, encodeVec]
  simp only [List.length_append, hbody, hlist, sub.hash.length_eq]
  omega

/-- The certificate and its place in the array, written. -/
def Raw.written (key : Layout) (raw : RawState A) (sub : Submission host A) : RawState A :=
  let stored := raw.put (key (.certificates sub.hash)) sub.cert.encode
  stored.put (key (.certificateArray (Raw.count key stored))) sub.hash.bytes

theorem Raw.insertCert_store (key : Layout) (raw : RawState A) (sub : Submission host A) :
    ((Raw.insertCert key sub.hash sub.cert).run.run raw).2 = Raw.written key raw sub ∨
      ∃ n : U128, ((Raw.insertCert key sub.hash sub.cert).run.run raw).2 =
        (Raw.written key raw sub).put (key .certificateCount) n.encode := by
  let count := Raw.count key (raw.put (key (.certificates sub.hash)) sub.cert.encode)
  rcases h : okOr (count.checkedAdd 1) "index overflowed" with e | n
  · left
    show ((liftM (okOr (count.checkedAdd 1) "index overflowed") >>= fun n =>
      Raw.putCount key n).run.run (Raw.written key raw sub)).2 = _
    rw [run_lift_error h]
  · right
    refine ⟨n, ?_⟩
    show ((liftM (okOr (count.checkedAdd 1) "index overflowed") >>= fun n =>
      Raw.putCount key n).run.run (Raw.written key raw sub)).2 = _
    rw [run_lift_ok h]
    rfl

/-- A call that passes the checks writes its certificate, its place in the array
and perhaps the counter. -/
theorem Raw.step_call (key : Layout) (raw : RawState A) (sub : Submission host A) :
    (Raw.step key host raw sub.call).2.store = (Raw.written key raw sub).store ∨
      ∃ n : U128, (Raw.step key host raw sub.call).2.store =
        ((Raw.written key raw sub).put (key .certificateCount) n.encode).store := by
  have hdeposit : (Raw.step key host raw sub.call).2.store =
      ((Raw.insertCert key sub.hash sub.cert).run.run raw).2.store := by
    have hsigner : ensureSigned (.signed sub.signer) = .ok sub.signer := rfl
    show ((Raw.addCert key host (.signed sub.signer) sub.data sub.sigs).run.run raw).2.store = _
    rw [Raw.addCert, run_lift_ok (ensure_pos sub.data_lt), run_lift_ok (ensure_pos sub.sigs_lt),
      run_lift_ok hsigner, run_lift_ok ((checkCert_eq _ _).trans (if_pos sub.verified)), run_bind]
    show _ = ((Raw.insertCert key (host.blake2_256 sub.data) ⟨sub.data,
      host.blake2_256 sub.data, sub.sigs⟩).run.run raw).2.store
    rcases (Raw.insertCert key (host.blake2_256 sub.data) ⟨sub.data,
      host.blake2_256 sub.data, sub.sigs⟩).run.run raw with ⟨_ | _, raw'⟩
    · rfl
    · rfl
  rw [hdeposit]
  obtain h | ⟨n, h⟩ := Raw.insertCert_store key raw sub
  · exact Or.inl (congrArg RawState.store h)
  · exact Or.inr ⟨n, congrArg RawState.store h⟩

/-- A call that fails a check does not write. -/
theorem Raw.step_of_not_pass {c : Call A} (h : ¬c.ChecksPass host) (raw : RawState A) :
    (Raw.step key host raw c).2 = raw := by
  obtain ⟨origin, data, sigs⟩ := c
  show ((Raw.addCert key host origin data sigs).run.run raw).2 = raw
  rw [Raw.addCert]
  by_cases hdata : data.length < 1024
  · rw [run_lift_ok (ensure_pos hdata)]
    by_cases hsigs : sigs.length < 8
    · rw [run_lift_ok (ensure_pos hsigs)]
      cases origin with
      | signed who =>
        have hver : ¬∀ sig ∈ sigs,
            host.sr25519Verify sig.signature data sig.accountId = true :=
          fun hver => h ⟨⟨who, rfl⟩, hdata, hsigs, hver⟩
        have hsigner : ensureSigned (.signed who) = .ok who := rfl
        rw [run_lift_ok hsigner, run_lift_error ((checkCert_eq _ _).trans (if_neg hver))]
      | root =>
        have hbad : ensureSigned (.root : Origin A) = .error .badOrigin := rfl
        rw [run_lift_error hbad]
      | none =>
        have hbad : ensureSigned (.none : Origin A) = .error .badOrigin := rfl
        rw [run_lift_error hbad]
    · rw [run_lift_error (ensure_neg hsigs)]
  · rw [run_lift_error (ensure_neg hdata)]

/-- At most `n` keys besides the counter's, and no long value. -/
structure Bounded (key : Layout) (n : ℕ) (raw : RawState A) : Prop where
  length_le : ∀ k v, raw.store.entry k = some v → v.length ≤ maxValueLength
  keys : ∃ ks : List (List UInt8), ks.length ≤ n ∧
    ∀ k v, raw.store.entry k = some v → k = key .certificateCount ∨ k ∈ ks

theorem bounded_empty (key : Layout) : Bounded key 0 (RawState.empty : RawState A) := by
  refine ⟨?_, [], le_rfl, ?_⟩
  · intro k v h
    cases h
  · intro k v h
    cases h

/-- Where an entry can come from after a write. -/
theorem entry_put_cases {raw : RawState A} {k k' v v' : List UInt8}
    (h : (raw.put k v).store.entry k' = some v') :
    k' = k ∧ v' = v ∨ raw.store.entry k' = some v' := by
  by_cases hk : k' = k
  · subst hk
    rw [entry_put_self] at h
    exact Or.inl ⟨rfl, (Option.some.inj h).symm⟩
  · have hframe : (raw.put k v).store.entry k' = raw.store.entry k' :=
      StorageMap.entry_insert_of_ne _ hk _
    rw [hframe] at h
    exact Or.inr h

theorem Bounded.put {n : ℕ} {raw : RawState A} (h : Bounded key n raw) (k : List UInt8)
    {v : List UInt8} (hv : v.length ≤ maxValueLength) : Bounded key (n + 1) (raw.put k v) := by
  obtain ⟨ks, hlen, hks⟩ := h.keys
  refine ⟨?_, k :: ks, Nat.succ_le_succ hlen, ?_⟩
  · intro k' v' hentry
    obtain ⟨-, rfl⟩ | hold := entry_put_cases hentry
    · exact hv
    · exact h.length_le k' v' hold
  · intro k' v' hentry
    obtain ⟨rfl, -⟩ | hold := entry_put_cases hentry
    · exact Or.inr List.mem_cons_self
    · exact (hks k' v' hold).imp_right (List.mem_cons_of_mem _)

/-- Writing the counter adds no key. -/
theorem Bounded.put_count {n : ℕ} {raw : RawState A} (h : Bounded key n raw) (m : U128) :
    Bounded key n (raw.put (key .certificateCount) m.encode) := by
  obtain ⟨ks, hlen, hks⟩ := h.keys
  refine ⟨?_, ks, hlen, ?_⟩
  · intro k' v' hentry
    obtain ⟨-, rfl⟩ | hold := entry_put_cases hentry
    · show 16 ≤ maxValueLength
      decide
    · exact h.length_le k' v' hold
  · intro k' v' hentry
    obtain ⟨rfl, -⟩ | hold := entry_put_cases hentry
    · exact Or.inl rfl
    · exact hks k' v' hold

/-- The bound speaks of the map only. -/
theorem Bounded.of_store_eq {n : ℕ} {raw raw' : RawState A} (h : Bounded key n raw)
    (e : raw'.store = raw.store) : Bounded key n raw' := by
  refine ⟨?_, ?_⟩
  · rw [e]
    exact h.length_le
  · rw [e]
    exact h.keys

theorem Bounded.written {n : ℕ} {raw : RawState A} (h : Bounded key n raw)
    (sub : Submission host A) : Bounded key (n + 2) (Raw.written key raw sub) := by
  have hhash : sub.hash.bytes.length ≤ maxValueLength := by
    rw [sub.hash.length_eq]
    decide
  exact (h.put _ sub.length_encode_cert).put _ hhash

/-- One call. -/
theorem Bounded.step {n : ℕ} {raw : RawState A} (h : Bounded key n raw) (host : Host)
    (c : Call A) :
    Bounded key (n + 2 * (passing host [c]).length) (Raw.step key host raw c).2 := by
  by_cases hpass : c.ChecksPass host
  · obtain ⟨sub, hsub⟩ := exists_screen_iff.mpr hpass
    have hlen : (passing host [c]).length = 1 := by simp [passing, hpass]
    rw [hlen, screen_eq_ok.mp hsub]
    obtain hstore | ⟨m, hstore⟩ := Raw.step_call key raw sub
    · exact (h.written sub).of_store_eq hstore
    · exact ((h.written sub).put_count m).of_store_eq hstore
  · have hlen : (passing host [c]).length = 0 := by simp [passing, hpass]
    rw [hlen, Raw.step_of_not_pass hpass]
    exact h

theorem Bounded.run {n : ℕ} {raw : RawState A} (h : Bounded key n raw) (cs : List (Call A)) :
    Bounded key (n + 2 * (passing host cs).length) (Raw.run key host raw cs) := by
  induction cs generalizing n raw with
  | nil => exact h
  | cons c cs ih =>
    have hsplit : passing host (c :: cs) = passing host [c] ++ passing host cs :=
      List.filter_append [c] cs
    have hstep := ih (h.step host c)
    rw [hsplit, List.length_append, Nat.mul_add, ← Nat.add_assoc]
    exact hstep

/-- **The storage grows with the accepted data only.**  Wherever the layout puts
the items, after a run from empty storage no stored value is longer than 1730
bytes, and the number of stored keys is at most two for each call that passes the
checks, and one. -/
theorem storage_bounded (key : Layout) (host : Host) (cs : List (Call A)) :
    let raw := Raw.run key host .empty cs
    (∀ k v, raw.store.entry k = some v → v.length ≤ 1730) ∧
      {k | raw.store.containsKey k = true}.Finite ∧
      {k | raw.store.containsKey k = true}.ncard ≤ 2 * (passing host cs).length + 1 := by
  intro raw
  have hbounded : Bounded key (0 + 2 * (passing host cs).length) raw :=
    (bounded_empty key).run cs
  rw [Nat.zero_add] at hbounded
  obtain ⟨ks, hlen, hks⟩ := hbounded.keys
  have hsubset : {k | raw.store.containsKey k = true} ⊆
      ((key .certificateCount :: ks).toFinset : Set (List UInt8)) := by
    intro k hk
    obtain ⟨v, hv⟩ := StorageMap.containsKey_iff.mp hk
    simpa using hks k v hv
  refine ⟨hbounded.length_le, (Finset.finite_toSet _).subset hsubset, ?_⟩
  calc {k | raw.store.containsKey k = true}.ncard
      ≤ ((key .certificateCount :: ks).toFinset : Set (List UInt8)).ncard :=
        Set.ncard_le_ncard hsubset (Finset.finite_toSet _)
    _ = (key .certificateCount :: ks).toFinset.card := Set.ncard_coe_finset _
    _ ≤ (key .certificateCount :: ks).length := List.toFinset_card_le _
    _ ≤ 2 * (passing host cs).length + 1 := Nat.succ_le_succ hlen

end CertStore
