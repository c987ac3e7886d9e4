/-
CertStore/Codec.lean

The bytes of a certificate, as the runtime and as the web client see them.

The runtime's codec is derived from the Rust structs: the fields in declared
order.  The client's is the type table of `Api.tsx`, interpreted by
`CertStore.Schema`.  The two were written independently; `formats_agree` says
that each reads what the other writes.

Both readers are compared with one encoding by `Reads`: the runtime's
(`Certificate.reads`) and the client's (`reads_certificateSchema`).
-/
import CertStore.Pallet
import CertStore.Schema

namespace CertStore

open Scale

/-! ### The runtime -/

/-- The encoding of `CertificateData`, a `Vec<u8>`. -/
def CertificateData.encode (data : CertificateData) : List UInt8 :=
  encodeVec (fun b => [b]) data

/-- `#[derive(Encode)]` of `Sig`. -/
def Sig.encode (sig : Sig) : List UInt8 := sig.signature.bytes ++ sig.accountId.bytes

/-- `#[derive(Decode)]` of `Sig`. -/
def Sig.decode : Decoder Sig := do
  let signature ← fixed 64
  let accountId ← fixed 32
  return { signature, accountId }

/-- `#[derive(Encode)]` of `Certificate`. -/
def Certificate.encode (cert : Certificate) : List UInt8 :=
  CertificateData.encode cert.data ++ cert.hash.bytes ++ encodeVec Sig.encode cert.sigs

/-- `#[derive(Decode)]` of `Certificate`. -/
def Certificate.decode : Decoder Certificate := do
  let data ← vec compact byte
  let hash ← fixed 32
  let sigs ← vec compact Sig.decode
  return { data, hash, sigs }

/-- The arguments of `add_cert`, in their order. -/
def decodeAddCert : Decoder (CertificateData × List Sig) := do
  let data ← vec compact byte
  let sigs ← vec compact Sig.decode
  return (data, sigs)

theorem reads_data {data : CertificateData} (h : data.length < 2 ^ 32) :
    Reads (vec compact byte) (CertificateData.encode data) data :=
  reads_vec_self (reads_compact h) fun b _ => reads_byte b

theorem Sig.reads (sig : Sig) : Reads Sig.decode sig.encode sig :=
  Reads.bind (reads_fixed _) (Reads.bind_pure _ (reads_fixed _))

theorem reads_sigs {sigs : List Sig} (h : sigs.length < 2 ^ 32) :
    Reads (vec compact Sig.decode) (encodeVec Sig.encode sigs) sigs :=
  reads_vec_self (reads_compact h) fun sig _ => sig.reads

/-- The runtime reads what it writes. -/
theorem Certificate.reads {cert : Certificate} (hdata : cert.data.length < 2 ^ 32)
    (hsigs : cert.sigs.length < 2 ^ 32) : Reads Certificate.decode cert.encode cert := by
  rw [Certificate.encode, List.append_assoc]
  exact Reads.bind (reads_data hdata)
    (Reads.bind (reads_fixed _) (Reads.bind_pure _ (reads_sigs hsigs)))

theorem reads_addCert {data : CertificateData} {sigs : List Sig} (hdata : data.length < 2 ^ 32)
    (hsigs : sigs.length < 2 ^ 32) :
    Reads decodeAddCert (CertificateData.encode data ++ encodeVec Sig.encode sigs)
      (data, sigs) :=
  Reads.bind (reads_data hdata) (Reads.bind_pure _ (reads_sigs hsigs))

/-! ### The client -/

/-- `types` in `Api.tsx`. -/
def types : TypeTable := [
  ("Sig", .struct [
    -- `H512`
    ("signature", .fixed 64),
    -- `AccountId`
    ("account_id", .fixed 32)]),
  ("Certificate", .struct [
    ("data", .named "CertificateData"),
    -- `H256`
    ("hash", .fixed 32),
    ("sigs", .vec (.named "Sig"))]),
  ("CertificateData", .alias (.vec .u8))]

/-- Decode a value of a declared type. -/
def decodeAs (fuel : ℕ) (t : TypeRef) : Decoder Value :=
  match resolve types fuel t with
  | some s => s.decode
  | none => failure

/-- Encode a value of a declared type. -/
def encodeAs (fuel : ℕ) (t : TypeRef) (v : Value) : Option (List UInt8) := do
  let s ← resolve types fuel t
  s.encode v

/-- The arguments of `api.tx.certStore.addCert`, whose types the client knows
by the names in the signature of `add_cert`. -/
def encodeAddCert (fuel : ℕ) (data sigs : Value) : Option (List UInt8) := do
  let d ← encodeAs fuel (.named "CertificateData") data
  let s ← encodeAs fuel (.vec (.named "Sig")) sigs
  return d ++ s

/-- What the names stand for. -/
def sigSchema : Schema :=
  .struct (.cons "signature" (.fixed 64) (.cons "account_id" (.fixed 32) .nil))

def certificateSchema : Schema :=
  .struct (.cons "data" .bytes (.cons "hash" (.fixed 32) (.cons "sigs" (.vec sigSchema) .nil)))

theorem resolve_data {fuel : ℕ} (h : 2 ≤ fuel) :
    resolve types fuel (.named "CertificateData") = some .bytes := by
  obtain ⟨k, rfl⟩ := Nat.exists_eq_add_of_le' h
  rfl

theorem resolve_sigs {fuel : ℕ} (h : 3 ≤ fuel) :
    resolve types fuel (.vec (.named "Sig")) = some (.vec sigSchema) := by
  obtain ⟨k, rfl⟩ := Nat.exists_eq_add_of_le' h
  rfl

theorem resolve_certificate {fuel : ℕ} (h : 4 ≤ fuel) :
    resolve types fuel (.named "Certificate") = some certificateSchema := by
  obtain ⟨k, rfl⟩ := Nat.exists_eq_add_of_le' h
  rfl

/-! ### The client reads what the runtime writes -/

/-- A signature as the client sees it. -/
def Sig.value (sig : Sig) : Value :=
  .obj [("signature", .bytes sig.signature.bytes), ("account_id", .bytes sig.accountId.bytes)]

/-- A certificate as the client sees it. -/
def Certificate.value (cert : Certificate) : Value :=
  .obj [
    ("data", .bytes cert.data),
    ("hash", .bytes cert.hash.bytes),
    ("sigs", .seq (cert.sigs.map Sig.value))]

theorem reads_sigSchema (sig : Sig) : Reads sigSchema.decode sig.encode sig.value :=
  Schema.reads_struct
    (Fields.reads_cons (Schema.reads_fixed _) (Fields.reads_last (Schema.reads_fixed _)))

theorem reads_certificateSchema {cert : Certificate} (hdata : cert.data.length < 2 ^ 32)
    (hsigs : cert.sigs.length < 2 ^ 32) :
    Reads certificateSchema.decode cert.encode cert.value := by
  have hvec : Reads (Schema.vec sigSchema).decode (encodeVec Sig.encode cert.sigs)
      (.seq (cert.sigs.map Sig.value)) :=
    Schema.reads_vec hsigs fun sig _ => reads_sigSchema sig
  rw [Certificate.encode, List.append_assoc]
  exact Schema.reads_struct (Fields.reads_cons (Schema.reads_bytes hdata)
    (Fields.reads_cons (Schema.reads_fixed _) (Fields.reads_last hvec)))

/-! ### The runtime reads what the client writes -/

/-- The value is an object that has the two fields of the signature, wherever
among its fields they stand. -/
def IsSig (v : Value) (sig : Sig) : Prop :=
  ∃ kvs, v = .obj kvs ∧ kvs.lookup "signature" = some (.bytes sig.signature.bytes) ∧
    kvs.lookup "account_id" = some (.bytes sig.accountId.bytes)

theorem encode_fixed {n : ℕ} (x : FixedBytes n) :
    (Schema.fixed n).encode (.bytes x.bytes) = some x.bytes := if_pos x.length_eq

theorem encode_sig {v : Value} {sig : Sig} (h : IsSig v sig) :
    sigSchema.encode v = some sig.encode := by
  obtain ⟨kvs, rfl, hsignature, haccount⟩ := h
  -- laid out in the declared order, wherever the two fields were found
  exact Fields.encode_cons hsignature (encode_fixed sig.signature)
    (Fields.encode_last haccount (encode_fixed sig.accountId))

/-- The client lays out the arguments as the runtime would. -/
theorem encodeAddCert_eq {fuel : ℕ} (hfuel : 3 ≤ fuel) (data : CertificateData) {vs : List Value}
    {sigs : List Sig} (h : List.Forall₂ IsSig vs sigs) :
    encodeAddCert fuel (.bytes data) (.seq vs) =
      some (CertificateData.encode data ++ encodeVec Sig.encode sigs) := by
  have hdata : encodeAs fuel (.named "CertificateData") (.bytes data) =
      some (CertificateData.encode data) := by
    rw [encodeAs, resolve_data (by omega)]
    rfl
  have hsigs : encodeAs fuel (.vec (.named "Sig")) (.seq vs) =
      some (encodeVec Sig.encode sigs) := by
    rw [encodeAs, resolve_sigs hfuel]
    exact Schema.encode_vec (h.imp fun _ _ => encode_sig)
  rw [encodeAddCert, hdata, hsigs]
  rfl

/-- **One format.**  For lengths below `2 ^ 30`: what the runtime writes for a
certificate the client reads as its fields, and leaves the bytes that follow;
the arguments that the client writes, from objects with their keys in any
order, the runtime reads back with nothing left over; and of two different
certificates neither encoding is a prefix of the other.  The names of the type
table resolve with any fuel from 4 on. -/
theorem formats_agree {fuel : ℕ} (hfuel : 4 ≤ fuel) :
    (∀ cert : Certificate, cert.data.length < 2 ^ 30 → cert.sigs.length < 2 ^ 30 → ∀ r,
      (decodeAs fuel (.named "Certificate")).run (cert.encode ++ r) = some (cert.value, r)) ∧
    (∀ (data : CertificateData) (sigs : List Sig) (vs : List Value), data.length < 2 ^ 30 →
      sigs.length < 2 ^ 30 → List.Forall₂ IsSig vs sigs →
      ∃ bs, encodeAddCert fuel (.bytes data) (.seq vs) = some bs ∧
        decodeAddCert.run bs = some ((data, sigs), [])) ∧
    (∀ a b : Certificate, a.data.length < 2 ^ 30 → a.sigs.length < 2 ^ 30 →
      b.data.length < 2 ^ 30 → b.sigs.length < 2 ^ 30 → a.encode <+: b.encode → a = b) := by
  refine ⟨?_, ?_, ?_⟩
  · intro cert hdata hsigs r
    rw [decodeAs, resolve_certificate hfuel]
    exact reads_certificateSchema (by omega) (by omega) r
  · intro data sigs vs hdata hsigs h
    refine ⟨_, encodeAddCert_eq (by omega) data h, ?_⟩
    have hread : Reads decodeAddCert _ (data, sigs) := reads_addCert (by omega) (by omega)
    have hall := hread []
    rwa [List.append_nil] at hall
  · intro a b hda hsa hdb hsb hprefix
    have ha : Reads Certificate.decode a.encode a := Certificate.reads (by omega) (by omega)
    have hb : Reads Certificate.decode b.encode b := Certificate.reads (by omega) (by omega)
    exact (ha.prefix_free hb hprefix).2

/-- A certificate of the one-byte document `0`, and a call for it in which the
account is written before the signature. -/
theorem formats_agree_zero :
    let sig : Sig := ⟨sampleSign alice [0], alice⟩
    let cert : Certificate := ⟨[0], sampleDigest [0], [sig]⟩
    let obj : Value := .obj [("account_id", .bytes alice.bytes),
      ("signature", .bytes (sampleSign alice [0]).bytes)]
    (decodeAs 4 (.named "Certificate")).run (cert.encode ++ [7]) = some (cert.value, [7]) ∧
      ∃ bs, encodeAddCert 4 (.bytes [0]) (.seq [obj]) = some bs ∧
        decodeAddCert.run bs = some (([0], [sig]), []) := by
  intro sig cert obj
  obtain ⟨hread, hwrite, -⟩ := formats_agree (le_refl 4)
  have hobj : IsSig obj sig := ⟨_, rfl, rfl, rfl⟩
  exact ⟨hread cert (by decide) (by decide) [7],
    hwrite [0] [sig] [obj] (by decide) (by decide) (.cons hobj .nil)⟩

end CertStore
