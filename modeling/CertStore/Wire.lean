/-
CertStore/Wire.lean

A file on its way through all the encodings.

`signsend` writes the file as a hex text and the signatures as objects; the
client turns them into the bytes of the arguments; the runtime decodes these,
and the pallet writes encoded values under the keys of the raw storage; and what
`CheckCert` downloads is decoded from there by the client's type table.
`wire_upload_download` follows a file from one end to the other, with
transactions of any bytes before and after it.

Everything up to here speaks of calls or of one encoding.  What connects them is
that a node that takes bytes is one that takes the calls decoded from them
(`applyAll_eq`).
-/
import CertStore.Queries
import CertStore.Upload

namespace CertStore

open Scale

variable {A : Type} {host : Host} {key : Layout}

/-! ### The node -/

/-- A transaction for `add_cert`: its origin and the bytes of the arguments. -/
structure Extrinsic (A : Type) where
  origin : Origin A
  args : List UInt8

/-- The call that the runtime decodes; bytes that are left over are ignored. -/
def Extrinsic.call (ext : Extrinsic A) : Option (Call A) :=
  match decodeAddCert.run ext.args with
  | some ((data, sigs), _) => some ⟨ext.origin, data, sigs⟩
  | none => none

/-- The calls among a list of transactions. -/
def decoded (exts : List (Extrinsic A)) : List (Call A) := exts.filterMap Extrinsic.call

/-- Execute a transaction; one that does not decode is refused before it is
dispatched. -/
def Raw.apply (key : Layout) (host : Host) (raw : RawState A) (ext : Extrinsic A) :
    Option DispatchResult × RawState A :=
  match ext.call with
  | some c =>
    let (r, raw) := Raw.step key host raw c
    (some r, raw)
  | none => (none, raw)

theorem Raw.apply_of_call {raw : RawState A} {ext : Extrinsic A} {c : Call A}
    (h : ext.call = some c) :
    Raw.apply key host raw ext =
      (some (Raw.step key host raw c).1, (Raw.step key host raw c).2) := by
  simp [Raw.apply, h]

/-- The storage after a list of transactions. -/
def Raw.applyAll (key : Layout) (host : Host) (raw : RawState A) (exts : List (Extrinsic A)) :
    RawState A :=
  Machine.exec (Raw.apply key host) raw exts

/-- Over bytes the node does what it does over the decoded calls. -/
theorem Raw.applyAll_eq (key : Layout) (host : Host) (raw : RawState A)
    (exts : List (Extrinsic A)) :
    Raw.applyAll key host raw exts = Raw.run key host raw (decoded exts) := by
  induction exts generalizing raw with
  | nil => rfl
  | cons ext exts ih =>
    rcases hc : ext.call with - | c
    · have hstep : (Raw.apply key host raw ext).2 = raw := by simp [Raw.apply, hc]
      have hdecoded : decoded (ext :: exts) = decoded exts := List.filterMap_cons_none hc
      rw [hdecoded, ← ih, Raw.applyAll, Machine.exec_cons, hstep]
      rfl
    · have hdecoded : decoded (ext :: exts) = c :: decoded exts := List.filterMap_cons_some hc
      rw [hdecoded, Raw.run, Machine.exec_cons, ← Raw.run, ← ih, Raw.applyAll, Machine.exec_cons,
        Raw.apply_of_call hc]
      rfl

/-! ### The clients -/

/-- A signature as `signsend` writes it, the account before the signature. -/
def Sig.object (sig : Sig) : Value :=
  .obj [("account_id", .bytes sig.accountId.bytes), ("signature", .bytes sig.signature.bytes)]

theorem Sig.isSig_object (sig : Sig) : IsSig sig.object sig := ⟨_, rfl, rfl, rfl⟩

/-- The bytes that `api.tx.certStore.addCert(..)` makes of its arguments. -/
def Transaction.args (fuel : ℕ) (t : Transaction) : Option (List UInt8) := do
  let data ← hexToU8a t.data
  encodeAddCert fuel (.bytes data) (.seq (t.sigs.map Sig.object))

/-- The bytes in a field of an object. -/
def bytesField (name : String) : Value → Option (List UInt8)
  | .obj fields =>
    match fields.lookup name with
    | some (.bytes bs) => some bs
    | _ => none
  | _ => none

/-- `new Uint8Array(data.data)`, for the answer `data` to the query. -/
def downloadQuery (fuel : ℕ) (key : Layout) (raw : RawState A) (h : H256) :
    Option (List UInt8) :=
  (queryCertificates fuel key raw h).bind (bytesField "data")

/-- The client's bytes are decoded as the call that it made. -/
theorem Transaction.exists_args {t : Transaction} {origin : Origin A} {c : Call A}
    (h : t.call origin = some c) (hdata : c.data.length < 2 ^ 32) (hsigs : c.sigs.length < 2 ^ 32)
    {fuel : ℕ} (hfuel : 3 ≤ fuel) :
    ∃ args, t.args fuel = some args ∧ (⟨origin, args⟩ : Extrinsic A).call = some c := by
  obtain ⟨data, hread, hc⟩ := Option.bind_eq_some_iff.mp h
  obtain rfl := Option.some.inj hc
  have hobjects : List.Forall₂ IsSig (t.sigs.map Sig.object) t.sigs := by
    rw [List.forall₂_map_left_iff, List.forall₂_same]
    exact fun sig _ => sig.isSig_object
  refine ⟨CertificateData.encode data ++ encodeVec Sig.encode t.sigs, ?_, ?_⟩
  · rw [Transaction.args, hread]
    exact encodeAddCert_eq hfuel data hobjects
  · have hrun := reads_addCert hdata hsigs []
    rw [List.append_nil] at hrun
    rw [Extrinsic.call, hrun]

/-! ### From file to file -/

/-- The client downloads what the getter returns. -/
theorem Keeps.downloadQuery_eq {H : Set H256} {cs : List (Call A)} {raw : RawState A}
    (h : Keeps key H (run host .empty cs) raw) {hash : H256} (hh : hash ∈ H) {fuel : ℕ}
    (hfuel : 4 ≤ fuel) :
    downloadQuery fuel key raw hash = some (download (fetch (run host .empty cs) hash)) := by
  obtain ⟨hdata, hsigs⟩ := length_cert host cs hash
  rw [downloadQuery, h.queryCertificates_eq hh hdata hsigs hfuel]
  rfl

/-- **From file to file.**  Let the layout keep apart the certificates of the hashes
in `H`, among them those of the data of all transactions and of the file `arr`, the
array and the count.  After any
transactions `pre`, of whatever bytes, and with room in the counter, the
transaction that `signsend` builds for a file of legal size is encoded, decoded
and executed with `Ok`; and after any transactions `post` without a collision the
client still downloads the file. -/
theorem wire_upload_download (key : Layout) (H : Set H256) (hkey : Set.InjOn key (items H))
    (host : Host) (alice bob : KeyringPair) (arr : List UInt8) (who : A)
    (halice : alice.Genuine host) (hbob : bob.Genuine host) (hlen : arr.length < 1024)
    {fuel : ℕ} (hfuel : 4 ≤ fuel) (pre post : List (Extrinsic A))
    (hH : ∀ c ∈ decoded (pre ++ post), host.blake2_256 c.data ∈ H)
    (harr : host.blake2_256 arr ∈ H)
    (hroom : (Raw.count key (Raw.applyAll key host .empty pre)).val < 2 ^ 128 - 1)
    (hcoll : ∀ c ∈ decoded post, ¬Collides host arr c) :
    ∃ t args, signsend alice bob arr = some t ∧ t.args fuel = some args ∧
      let raw := Raw.applyAll key host .empty pre
      (Raw.apply key host raw ⟨.signed who, args⟩).1 = some (.ok ()) ∧
        downloadQuery fuel key
          (Raw.applyAll key host (Raw.apply key host raw ⟨.signed who, args⟩).2 post)
          (host.blake2_256 arr) = some arr := by
  obtain ⟨sub, hsub⟩ : ∃ sub, sub = upload halice hbob hlen who := ⟨_, rfl⟩
  have hdata : sub.data = arr := by rw [hsub]; rfl
  have hsigs : sub.sigs.length = 2 := by rw [hsub]; rfl
  have hbuilt : (signsend alice bob arr).bind (fun t => t.call (.signed who)) = some sub.call := by
    rw [hsub]
    exact signsend_call (by omega) _
  obtain ⟨t, ht, hcall⟩ := Option.bind_eq_some_iff.mp hbuilt
  obtain ⟨args, hargs, hext⟩ := Transaction.exists_args hcall
    (show sub.data.length < 2 ^ 32 by rw [hdata]; omega)
    (show sub.sigs.length < 2 ^ 32 by rw [hsigs]; decide) (by omega : 3 ≤ fuel)
  refine ⟨t, args, ht, hargs, ?_⟩
  intro raw
  rw [Raw.apply_of_call hext, Raw.applyAll_eq]
  -- the typed storage next to the bytes, before the upload and after it
  obtain ⟨st, hst⟩ : ∃ st, st = run host .empty (decoded pre) := ⟨_, rfl⟩
  have hsplit : decoded (pre ++ post) = decoded pre ++ decoded post := List.filterMap_append
  rw [hsplit] at hH
  have hkeeps : Keeps key H st raw := by
    show Keeps key H st (Raw.applyAll key host .empty pre)
    rw [hst, Raw.applyAll_eq]
    exact run_keeps hkey fun c hc => hH c (List.mem_append_left _ hc)
  have hmem : host.blake2_256 sub.call.data ∈ H := by
    show host.blake2_256 sub.data ∈ H
    rwa [hdata]
  obtain ⟨hresult, hnext⟩ := step_matches hkey hmem st raw hkeeps
  have hok : (step host st sub.call).1 = .ok () := by
    have hcount : st.certificateCount.val < U128.max := hkeeps.count_eq ▸ hroom
    rw [step_call, record_of_room hcount]
  refine ⟨congrArg some (hresult.symm.trans hok), ?_⟩
  -- the file is stored, and stays
  have hstored : download (fetch (step host st sub.call).2 (host.blake2_256 arr)) = arr := by
    have hcert := record_cert_self st sub
    rw [step_call, fetch, ← hdata]
    show ((record st sub).2.cert sub.hash).data = sub.data
    rw [hcert]
    rfl
  have hlater := download_run hstored hcoll
  have hfinal : Keeps key H (run host (step host st sub.call).2 (decoded post))
      (Raw.run key host (Raw.step key host raw sub.call).2 (decoded post)) :=
    Refine.Matches.exec
      (fun c hc => step_matches hkey (hH c (List.mem_append_right _ hc))) hnext
  have hrun : run host (step host st sub.call).2 (decoded post) =
      run host .empty (decoded pre ++ sub.call :: decoded post) := by
    rw [hst, run, run, run, Machine.exec_append]
    rfl
  rw [hrun] at hfinal hlater
  rw [hfinal.downloadQuery_eq harr hfuel, hlater]

/-- The file `0`, after a transaction with a length of zero in two bytes, which is
refused, and before an overwrite without signatures, which has a byte left over. -/
theorem wire_upload_download_zero :
    ∃ t args, signsend ⟨alice, sampleSign alice⟩ ⟨bob, sampleSign bob⟩ [0] = some t ∧
      t.args 4 = some args ∧
      downloadQuery 4 sampleLayout (Raw.applyAll sampleLayout sampleHost
        (Raw.apply sampleLayout sampleHost (Raw.applyAll sampleLayout sampleHost .empty
          [⟨.signed alice, [1, 0, 0]⟩]) ⟨.signed alice, args⟩).2
        [⟨.signed bob, [4, 0, 0, 7]⟩]) (sampleDigest [0]) = some [0] := by
  have hgenuine : ∀ who, KeyringPair.Genuine sampleHost ⟨who, sampleSign who⟩ := by
    intro who msg
    simp [sampleHost]
  obtain ⟨t, args, ht, hargs, -, hdownload⟩ := wire_upload_download sampleLayout Set.univ
    sampleLayout_injective.injOn sampleHost ⟨alice, sampleSign alice⟩ ⟨bob, sampleSign bob⟩ [0]
    alice (hgenuine alice) (hgenuine bob) (by decide) (le_refl 4) [⟨.signed alice, [1, 0, 0]⟩]
    [⟨.signed bob, [4, 0, 0, 7]⟩] (fun _ _ => trivial) trivial (by decide) (by decide)
  exact ⟨t, args, ht, hargs, hdownload⟩

end CertStore
