/-
CertStore/Upload.lean

Uploading a file with `AddCert.tsx` and downloading it with `CheckCert.tsx`.

`signsend` signs the raw bytes but sends their hex text, made by the
hand-written `toHex`; the chain sees what the text reads back as.  The two are
the same bytes (`signsend_call`), because the descending loop of `toHex` fills
every slot of its array (`toHex.traced_eq`).  `toHex_faithful` is all that the
encoder promises, up to the length at which there is no such array.
`upload_download` follows a file from there through the checks and the storage
to a later download.

The key pairs are parameters: an address, as the account it stands for, and a
signing function.
-/
import CertStore.Calls
import CertStore.Hex

namespace CertStore

open Scale

variable {A : Type} {host : Host}

/-! ### The uploader -/

/-- A JavaScript string, character by character. -/
abbrev Text := List Char

/-- `new Array(len)`: as many holes, a `RangeError` from `2 ^ 32` on. -/
def newArray (len : ℕ) : Option (List (Option Text)) :=
  if len < 2 ^ 32 then some (List.replicate len none) else none

/-- `a.join("")`, in which a hole counts as the empty string. -/
def join (a : List (Option Text)) : Text := a.flatMap (·.getD [])

/-- `(u[i] < 16 ? "0" : "") + u[i].toString(16)`. -/
def toHex.slot (b : UInt8) : Text :=
  (if b < 16 then ['0'] else []) ++ Nat.toDigits 16 b.toNat

/-- `while (i--) a[i] = ...`, with the indices that it assigns to, in their order;
an `u[i]` that is not there is a `TypeError`. -/
def toHex.traced (u : List UInt8) :
    ℕ → List (Option Text) → Option (List ℕ × List (Option Text))
  | 0, a => some ([], a)
  | i + 1, a => do
    let b ← u[i]?
    let (writes, a) ← traced u i (a.set i (some (slot b)))
    return (i :: writes, a)

/-- The array that the loop leaves behind. -/
def toHex.loop (u : List UInt8) (i : ℕ) (a : List (Option Text)) : Option (List (Option Text)) :=
  (traced u i a).map Prod.snd

/-- `toHex`: fill an array of digits from its end, and join it. -/
def toHex (u : List UInt8) : Option Text := do
  let a ← newArray u.length
  let a ← toHex.loop u u.length a
  return ['0', 'x'] ++ join a

/-- A key pair of the `Keyring`. -/
structure KeyringPair where
  address : AccountId32
  sign : List UInt8 → H512

/-- The arguments of `api.tx.certStore.addCert`, with the body as a hex text. -/
structure Transaction where
  data : Text
  sigs : List Sig

/-- `signsend`: the transaction that it builds. -/
def signsend (alice bob : KeyringPair) (arr : List UInt8) : Option Transaction := do
  let hex ← toHex arr
  return {
    data := hex
    sigs := [
      { accountId := alice.address, signature := alice.sign arr },
      { accountId := bob.address, signature := bob.sign arr }] }

/-- A hex text read as the bytes of a `Vec<u8>` argument. -/
def hexToU8a : Text → Option (List UInt8)
  | '0' :: 'x' :: ds => Hex.ofPairs ds
  | _ => none

/-- The call that reaches the chain. -/
def Transaction.call (t : Transaction) (origin : Origin A) : Option (Call A) := do
  let data ← hexToU8a t.data
  return ⟨origin, data, t.sigs⟩

/-! ### The downloader -/

/-- `fetch(hash)`. -/
def fetch (st : State A) (hash : H256) : Certificate := st.cert hash

/-- `download()`: the bytes of the file, `new Uint8Array(data.data)`. -/
def download (data : Certificate) : List UInt8 := data.data

/-! ### The body that is sent -/

/-- From index `i` down the loop passes each slot before `i` once and fills it, and
leaves the rest. -/
theorem toHex.traced_eq {u : List UInt8} {i : ℕ} (hi : i ≤ u.length) {a : List (Option Text)}
    (ha : a.length = u.length) :
    traced u i a = some ((List.range i).reverse,
      (u.take i).map (fun b => some (slot b)) ++ a.drop i) := by
  induction i generalizing a with
  | zero => simp [traced]
  | succ i ih =>
    have hlt : i < u.length := hi
    have hdrop : (a.set i (some (slot u[i]))).drop i = some (slot u[i]) :: a.drop (i + 1) := by
      rw [List.drop_eq_getElem_cons (by simpa [ha] using hlt)]
      simp [List.drop_set]
    rw [traced, List.getElem?_eq_getElem hlt, List.range_succ, List.reverse_append]
    show (traced u i (a.set i (some (slot u[i])))).bind _ = _
    rw [ih hlt.le (by simpa using ha), hdrop, List.take_succ_eq_append_getElem hlt, List.map_append,
      List.append_assoc]
    rfl

/-- From the last index it leaves no hole. -/
theorem toHex.traced_replicate (u : List UInt8) :
    traced u u.length (List.replicate u.length none) =
      some ((List.range u.length).reverse, u.map fun b => some (slot b)) := by
  have htraced := traced_eq (u := u) le_rfl (a := List.replicate u.length none) (by simp)
  rwa [List.take_length, List.drop_of_length_le (by simp), List.append_nil] at htraced

theorem toHex.loop_replicate (u : List UInt8) :
    loop u u.length (List.replicate u.length none) = some (u.map fun b => some (slot b)) := by
  rw [loop, traced_replicate]
  rfl

/-- **`toHex` writes the pairs of digits of its bytes.** -/
theorem toHex_eq {u : List UInt8} (h : u.length < 2 ^ 32) :
    toHex u = some (['0', 'x'] ++ Hex.digits u) := by
  have hslot : ∀ b, toHex.slot b = Hex.pair b := Hex.toDigits_pair
  rw [toHex, newArray, if_pos h]
  show (toHex.loop u u.length (List.replicate u.length none) >>= fun a =>
    some (['0', 'x'] ++ join a)) = _
  rw [toHex.loop_replicate]
  show some (['0', 'x'] ++ join _) = _
  simp [join, Hex.digits, List.flatMap_map, hslot]

/-- An array that is too long cannot be allocated. -/
theorem toHex_eq_none {u : List UInt8} (h : 2 ^ 32 ≤ u.length) : toHex u = none := by
  rw [toHex, newArray, if_neg h.not_gt]
  rfl

/-- **`toHex` is a faithful encoder.**  The loop ends with every slot assigned
exactly once; the text is `0x` and two lowercase digits for each byte, in
order.  It reads back as the bytes, so no other array has the same text, and
the digits of a concatenation are the digits of its parts. -/
theorem toHex_faithful (u : List UInt8) (h : u.length < 2 ^ 32) :
    (∃ writes, toHex.traced u u.length (List.replicate u.length none) =
        some (writes, u.map fun b => some (toHex.slot b)) ∧
      toHex.loop u u.length (List.replicate u.length none) =
        some (u.map fun b => some (toHex.slot b)) ∧
      ∀ i, writes.count i = if i < u.length then 1 else 0) ∧
    ∃ ds, toHex u = some (['0', 'x'] ++ ds) ∧
      ds = u.flatMap (fun b =>
        [Nat.digitChar (b.toNat / 16), Nat.digitChar (b.toNat % 16)]) ∧
      (∀ d ∈ ds, d ∈ Hex.alphabet) ∧
      (['0', 'x'] ++ ds).length = 2 * u.length + 2 ∧
      Hex.ofPairs ds = some u ∧
      (∀ v, toHex v = toHex u → v = u) ∧
      ∀ v es, toHex v = some (['0', 'x'] ++ es) → (u ++ v).length < 2 ^ 32 →
        toHex (u ++ v) = some (['0', 'x'] ++ ds ++ es) := by
  have htext := toHex_eq h
  refine ⟨⟨(List.range u.length).reverse, toHex.traced_replicate u, toHex.loop_replicate u, ?_⟩,
    Hex.digits u, htext, rfl, Hex.digits_subset_alphabet u, ?_, Hex.ofPairs_digits u, ?_, ?_⟩
  · intro i
    rw [List.count_reverse, List.count_range]
  · rw [List.length_append, Hex.length_digits]
    exact Nat.add_comm _ _
  · intro v hv
    by_cases hlen : v.length < 2 ^ 32
    · rw [htext, toHex_eq hlen] at hv
      exact Hex.digits_injective (List.append_cancel_left (Option.some.inj hv))
    · rw [htext, toHex_eq_none (Nat.le_of_not_lt hlen)] at hv
      cases hv
  · intro v es hv huv
    have hlen : v.length < 2 ^ 32 := by
      rw [List.length_append] at huv
      omega
    rw [toHex_eq hlen] at hv
    obtain rfl : Hex.digits v = es := List.append_cancel_left (Option.some.inj hv)
    rw [toHex_eq huv, Hex.digits_append, List.append_assoc]

/-- A byte below the padding boundary and one above it. -/
theorem toHex_faithful_two :
    ∃ ds, toHex [7, 255] = some (['0', 'x'] ++ ds) ∧ ds = ['0', '7', 'f', 'f'] ∧
      Hex.ofPairs ds = some [7, 255] := by
  obtain ⟨-, ds, htext, hds, -, -, hread, -⟩ := toHex_faithful [7, 255] (by decide)
  exact ⟨ds, htext, hds, hread⟩

/-- There is no array of `2 ^ 32` slots, so a file of that length has no text. -/
theorem toHex_too_long :
    toHex (List.replicate (2 ^ 32) 0) = none ∧ ¬∀ u, ∃ text, toHex u = some text := by
  have hnone : toHex (List.replicate (2 ^ 32) 0) = none :=
    toHex_eq_none (by rw [List.length_replicate])
  refine ⟨hnone, ?_⟩
  intro hall
  obtain ⟨text, htext⟩ := hall (List.replicate (2 ^ 32) 0)
  rw [hnone] at htext
  cases htext

/-- The call of `signsend` carries the raw bytes, signed by Alice and by Bob. -/
theorem signsend_call {alice bob : KeyringPair} {arr : List UInt8} (h : arr.length < 2 ^ 32)
    (origin : Origin A) :
    (signsend alice bob arr).bind (fun t => t.call origin) = some ⟨origin, arr,
      [⟨alice.sign arr, alice.address⟩, ⟨bob.sign arr, bob.address⟩]⟩ := by
  have hread : hexToU8a (['0', 'x'] ++ Hex.digits arr) = some arr := Hex.ofPairs_digits arr
  rw [signsend, toHex_eq h]
  show ((hexToU8a (['0', 'x'] ++ Hex.digits arr)).bind fun data => some _) = some _
  rw [hread]
  rfl

/-! ### The stored file -/

/-- The call passes the checks with other data than `arr` that has the same hash. -/
def Collides (host : Host) (arr : List UInt8) (c : Call A) : Prop :=
  c.ChecksPass host ∧ host.blake2_256 c.data = host.blake2_256 arr ∧ c.data ≠ arr

instance (arr : List UInt8) : DecidablePred (Collides (A := A) host arr) := fun _ =>
  inferInstanceAs (Decidable (_ ∧ _ ∧ _))

/-- A call that is no collision leaves a stored file as it is. -/
theorem download_step {st : State A} {arr : List UInt8}
    (hst : download (fetch st (host.blake2_256 arr)) = arr) {c : Call A}
    (hc : ¬Collides host arr c) :
    download (fetch (step host st c).2 (host.blake2_256 arr)) = arr := by
  obtain ⟨sub, rfl, hstep⟩ | ⟨hfail, e, hstep⟩ := step_cases host st c
  · rw [hstep]
    by_cases hh : host.blake2_256 arr = sub.hash
    · -- the slot is overwritten, with the same data
      have hdata : sub.data = arr := by
        by_contra hne
        exact hc ⟨sub.call_checksPass, hh.symm, hne⟩
      rw [fetch, hh, record_cert_self]
      exact hdata
    · rw [fetch, record_cert_of_ne st hh]
      exact hst
  · rw [hstep]
    exact hst

/-- A stored file stays as it is until a collision. -/
theorem download_run {st : State A} {arr : List UInt8}
    (hst : download (fetch st (host.blake2_256 arr)) = arr) {cs : List (Call A)}
    (hcs : ∀ c ∈ cs, ¬Collides host arr c) :
    download (fetch (run host st cs) (host.blake2_256 arr)) = arr := by
  have hrun : Machine.Along (step host) (fun _ c => ¬Collides host arr c) st cs :=
    Machine.along_input_iff.mpr hcs
  exact hrun.invariant (I := fun st => download (fetch st (host.blake2_256 arr)) = arr)
    (fun _ _ hst hc => download_step hst hc) hst

/-- The signatures of a key pair verify for its address. -/
def KeyringPair.Genuine (host : Host) (pair : KeyringPair) : Prop :=
  ∀ msg, host.sr25519Verify (pair.sign msg) msg pair.address = true

/-- The submission of a file of legal size. -/
def upload {alice bob : KeyringPair} (halice : alice.Genuine host) (hbob : bob.Genuine host)
    {arr : List UInt8} (hlen : arr.length < 1024) (who : A) : Submission host A where
  signer := who
  data := arr
  sigs := [⟨alice.sign arr, alice.address⟩, ⟨bob.sign arr, bob.address⟩]
  data_lt := hlen
  sigs_lt := by simp
  verified := by
    intro sig hsig
    rcases List.mem_pair.mp hsig with rfl | rfl
    · exact halice arr
    · exact hbob arr

/-- **From the upload to every later download.**  From any state whose counter
has room, the call that `signsend` builds for a file of legal size succeeds
under every signed origin; the array then lists the hash of the file at the old
count, and the table holds its bytes and the two signatures.  After any further
calls none of which is a collision, the downloaded bytes are still the file. -/
theorem upload_download (host : Host) (alice bob : KeyringPair) (st : State A)
    (arr : List UInt8) (who : A) (halice : alice.Genuine host) (hbob : bob.Genuine host)
    (hlen : arr.length < 1024) (hroom : st.certificateCount.val < 2 ^ 128 - 1) :
    ∃ c, (signsend alice bob arr).bind (fun t => t.call (.signed who)) = some c ∧
      (step host st c).1 = .ok () ∧
      (step host st c).2.certificateArray.get st.certificateCount = host.blake2_256 arr ∧
      fetch (step host st c).2 (host.blake2_256 arr) =
        { data := arr
          hash := host.blake2_256 arr
          sigs := [⟨alice.sign arr, alice.address⟩, ⟨bob.sign arr, bob.address⟩] } ∧
      ∀ cs : List (Call A), (∀ c' ∈ cs, ¬Collides host arr c') →
        download (fetch (run host (step host st c).2 cs) (host.blake2_256 arr)) = arr := by
  have hcert : fetch (record st (upload halice hbob hlen who)).2 (host.blake2_256 arr) =
      (upload halice hbob hlen who).cert := record_cert_self st (upload halice hbob hlen who)
  refine ⟨(upload halice hbob hlen who).call, signsend_call (by omega) _, ?_⟩
  -- the call passes the checks, so what it does is to record its submission
  rw [step_call]
  refine ⟨?_, ?_, hcert, ?_⟩
  · rw [record_of_room hroom]
  · rw [record_of_room hroom]
    exact StorageMap.get_insert_self _ _ _
  · intro cs hcs
    have hstored : download (fetch (record st (upload halice hbob hlen who)).2
        (host.blake2_256 arr)) = arr := by
      rw [hcert]
      rfl
    exact download_run hstored hcs

/-- The one-byte file `0`, uploaded after another certificate and followed by
one more and by an overwrite without signatures. -/
theorem upload_download_zero :
    ∃ c, (signsend ⟨alice, sampleSign alice⟩ ⟨bob, sampleSign bob⟩ [0]).bind
        (fun t => t.call (.signed alice)) = some c ∧
      download (fetch (run sampleHost (step sampleHost (run sampleHost .empty [signedCall]) c).2
        [unsignedCall, ⟨.signed bob, [0], []⟩]) (sampleDigest [0])) = [0] := by
  have hgenuine : ∀ who, KeyringPair.Genuine sampleHost ⟨who, sampleSign who⟩ := by
    intro who msg
    simp [sampleHost]
  obtain ⟨c, hc, -, -, -, hlater⟩ := upload_download sampleHost ⟨alice, sampleSign alice⟩
    ⟨bob, sampleSign bob⟩ (run sampleHost .empty [signedCall]) [0] alice (hgenuine alice)
    (hgenuine bob) (by decide) (by decide)
  exact ⟨c, hc, hlater [unsignedCall, ⟨.signed bob, [0], []⟩] (by decide)⟩

end CertStore
