/-
CertStore/RawStorage.lean

The storage as the node keeps it: one map from byte keys to byte values.

`decl_storage!` puts every storage item under a key of its own, and the code of
the pallet reads and writes encoded values there.  `Raw.addCert` is `addCert`
over that storage, statement by statement; where the items lie is a parameter,
a `Layout`.

The typed storage of the other modules is a view of it.  `Keeps` says that the
raw storage holds the encodings of the typed one, at every array index and at
the hashes of a set `H`; nothing is asked of the layout but that it tells these
items and the counter apart (`items H`).  For keys made by hashing that is the
absence of a collision among the keys of the hashes in `H`, of all the indices
and of the counter.  The primitive operations keep `Keeps`
(`Keeps.insert_certificate`, ..), so the pallet over bytes refines the pallet
over values (`addCert_simulates`), call by call and over runs.

What the clients read is decoded with their own type table, and where a key is
absent they take the default value of the metadata; `queries_run` says that they
see what the typed getters return.
-/
import CertStore.Refine
import CertStore.Codec
import CertStore.Table
import Mathlib.Data.Set.Function

namespace CertStore

open Scale Refine

variable {A : Type} {host : Host}

/-! ### Items and their encodings -/

/-- The storage items of `decl_storage!`, key by key. -/
inductive Item
  /-- `Certificates get(fn cert): map H256 => Certificate`. -/
  | certificates (hash : H256)
  /-- `CertificateArray: map u128 => H256`. -/
  | certificateArray (index : U128)
  /-- `CertificateCount get(fn cert_count): u128`. -/
  | certificateCount
deriving DecidableEq

/-- The key of each item. -/
abbrev Layout := Item → List UInt8

/-- A `u128`: 16 bytes, little-endian. -/
def U128.encode (n : U128) : List UInt8 := leBytes 16 n.val

/-- Decode a `u128`. -/
def U128.decode : Decoder U128 := do
  let n ← le 16
  if h : n ≤ U128.max then return .ofNat h else failure

theorem U128.reads (n : U128) : Reads U128.decode n.encode n := by
  intro r
  have hread := reads_le (k := 16) n.isLt r
  rw [U128.decode, StateT.run_bind, U128.encode, hread]
  show (if h : n.val ≤ U128.max then _ else _ : Decoder U128).run r = _
  rw [dif_pos n.le_max]
  rfl

/-! ### The pallet over bytes -/

/-- The raw storage and the events deposited so far. -/
structure RawState (A : Type) where
  store : StorageMap (List UInt8) (List UInt8)
  events : List (Event A)

/-- The storage before the first call. -/
def RawState.empty : RawState A := ⟨.empty, []⟩

/-- Write a value. -/
def RawState.put (raw : RawState A) (key value : List UInt8) : RawState A :=
  { raw with store := raw.store.insert key value }

/-- Read and decode a value, if the key is there; bytes that are left over are
ignored. -/
def RawState.getAs {α : Type} (d : Decoder α) (raw : RawState A) (key : List UInt8) : Option α :=
  (raw.store.entry key).bind fun bs => (d.run bs).map Prod.fst

/-- Computations of the runtime over the raw storage. -/
abbrev RawDispatch (A : Type) := ExceptT DispatchError (StateM (RawState A))

namespace Raw

/-- `Certificates::insert`. -/
def insertCertificate (key : Layout) (hash : H256) (cert : Certificate) : RawDispatch A Unit :=
  modify fun raw => raw.put (key (.certificates hash)) cert.encode

/-- `CertificateArray::insert`. -/
def insertArray (key : Layout) (index : U128) (hash : H256) : RawDispatch A Unit :=
  modify fun raw => raw.put (key (.certificateArray index)) hash.bytes

/-- `CertificateCount::get`. -/
def count (key : Layout) (raw : RawState A) : U128 :=
  (raw.getAs U128.decode (key .certificateCount)).getD 0

def getCount (key : Layout) : RawDispatch A U128 := return count key (← getThe (RawState A))

/-- `CertificateCount::put`. -/
def putCount (key : Layout) (n : U128) : RawDispatch A Unit :=
  modify fun raw => raw.put (key .certificateCount) n.encode

def depositEvent (event : Event A) : RawDispatch A Unit :=
  modify fun raw => { raw with events := raw.events ++ [event] }

/-- `insert_cert`. -/
def insertCert (key : Layout) (hash : H256) (cert : Certificate) : RawDispatch A Unit := do
  insertCertificate key hash cert
  let currentIndex ← getCount key
  insertArray key currentIndex hash
  let nextIndex ← okOr (currentIndex.checkedAdd 1) "index overflowed"
  putCount key nextIndex

/-- `add_cert`. -/
def addCert (key : Layout) (host : Host) (origin : Origin A) (data : CertificateData)
    (sigs : List Sig) : RawDispatch A Unit := do
  ensure (data.length < 1024) "Certification is too large"
  ensure (sigs.length < 8) "Too many signers"
  let sender ← ensureSigned origin
  checkCert host data sigs
  let hash := host.blake2_256 data
  let cert : Certificate := { data := data, sigs := sigs, hash := hash }
  insertCert key hash cert
  depositEvent (.certAdded sender hash)

/-- Dispatch one call. -/
def step (key : Layout) (host : Host) (raw : RawState A) (c : Call A) :
    DispatchResult × RawState A :=
  (addCert key host c.origin c.data c.sigs).run.run raw

def run (key : Layout) (host : Host) (raw : RawState A) (cs : List (Call A)) : RawState A :=
  Machine.exec (step key host) raw cs

def results (key : Layout) (host : Host) (raw : RawState A) (cs : List (Call A)) :
    List DispatchResult :=
  Machine.outs (step key host) raw cs

/-- `cert(h)`. -/
def cert (key : Layout) (raw : RawState A) (h : H256) : Certificate :=
  (raw.getAs Certificate.decode (key (.certificates h))).getD default

/-- `CertificateArray::get(i)`. -/
def hashAt (key : Layout) (raw : RawState A) (i : U128) : H256 :=
  (raw.getAs (fixed 32) (key (.certificateArray i))).getD default

end Raw

/-! ### The raw storage keeps the typed one -/

/-- The certificates of the hashes in `H`, the array at every index, and the
counter. -/
def items (H : Set H256) : Set Item := {item | ∀ h, item = .certificates h → h ∈ H}

theorem certificates_mem_items {H : Set H256} {h : H256} (hh : h ∈ H) :
    Item.certificates h ∈ items H := by
  rintro _ ⟨⟩
  exact hh

theorem array_mem_items (H : Set H256) (i : U128) : Item.certificateArray i ∈ items H := by
  rintro _ ⟨⟩

theorem count_mem_items (H : Set H256) : Item.certificateCount ∈ items H := by
  rintro _ ⟨⟩

/-- The raw storage holds the encodings of the typed one; the counter may never
have been written while it is zero. -/
structure Keeps (key : Layout) (H : Set H256) (st : State A) (raw : RawState A) : Prop where
  certificates : ∀ h ∈ H, raw.store.entry (key (.certificates h)) =
    (st.certificates.entry h).map Certificate.encode
  array : ∀ i, raw.store.entry (key (.certificateArray i)) =
    (st.certificateArray.entry i).map FixedBytes.bytes
  count : raw.store.entry (key .certificateCount) = some st.certificateCount.encode ∨
    raw.store.entry (key .certificateCount) = none ∧ st.certificateCount = 0
  events : raw.events = st.events

theorem keeps_empty (key : Layout) (H : Set H256) :
    Keeps key H (State.empty : State A) RawState.empty :=
  ⟨fun _ _ => rfl, fun _ => rfl, Or.inr ⟨rfl, rfl⟩, rfl⟩

section Operations

variable {key : Layout} {H : Set H256}

theorem entry_put_self (raw : RawState A) (k v : List UInt8) :
    (raw.put k v).store.entry k = some v :=
  StorageMap.entry_insert_self _ _ _

/-- Writing one item leaves the others alone. -/
theorem entry_put_of_ne (hkey : Set.InjOn key (items H)) (raw : RawState A) {i j : Item}
    (hi : i ∈ items H) (hj : j ∈ items H) (hne : i ≠ j) (v : List UInt8) :
    (raw.put (key j) v).store.entry (key i) = raw.store.entry (key i) :=
  StorageMap.entry_insert_of_ne _ (hkey.ne hi hj hne) _

theorem Keeps.insert_certificate (hkey : Set.InjOn key (items H)) {st : State A}
    {raw : RawState A} (h : Keeps key H st raw) {hash : H256} (hh : hash ∈ H)
    (cert : Certificate) :
    Keeps key H { st with certificates := st.certificates.insert hash cert }
      (raw.put (key (.certificates hash)) cert.encode) := by
  have hself := certificates_mem_items hh
  refine ⟨?_, ?_, ?_, h.events⟩
  · intro h' hh'
    by_cases e : h' = hash
    · subst e
      rw [entry_put_self, StorageMap.entry_insert_self]
      rfl
    · have hne : Item.certificates h' ≠ .certificates hash := fun he => e (Item.certificates.inj he)
      rw [entry_put_of_ne hkey raw (certificates_mem_items hh') hself hne,
        StorageMap.entry_insert_of_ne _ e]
      exact h.certificates h' hh'
  · intro i
    rw [entry_put_of_ne hkey raw (array_mem_items H i) hself (by rintro ⟨⟩)]
    exact h.array i
  · rw [entry_put_of_ne hkey raw (count_mem_items H) hself (by rintro ⟨⟩)]
    exact h.count

theorem Keeps.insert_array (hkey : Set.InjOn key (items H)) {st : State A} {raw : RawState A}
    (h : Keeps key H st raw) (index : U128) (hash : H256) :
    Keeps key H { st with certificateArray := st.certificateArray.insert index hash }
      (raw.put (key (.certificateArray index)) hash.bytes) := by
  have hself := array_mem_items H index
  refine ⟨?_, ?_, ?_, h.events⟩
  · intro h' hh'
    rw [entry_put_of_ne hkey raw (certificates_mem_items hh') hself (by rintro ⟨⟩)]
    exact h.certificates h' hh'
  · intro i
    by_cases e : i = index
    · subst e
      rw [entry_put_self, StorageMap.entry_insert_self]
      rfl
    · have hne : Item.certificateArray i ≠ .certificateArray index :=
        fun he => e (Item.certificateArray.inj he)
      rw [entry_put_of_ne hkey raw (array_mem_items H i) hself hne,
        StorageMap.entry_insert_of_ne _ e]
      exact h.array i
  · rw [entry_put_of_ne hkey raw (count_mem_items H) hself (by rintro ⟨⟩)]
    exact h.count

theorem Keeps.put_count (hkey : Set.InjOn key (items H)) {st : State A} {raw : RawState A}
    (h : Keeps key H st raw) (n : U128) :
    Keeps key H { st with certificateCount := n } (raw.put (key .certificateCount) n.encode) := by
  have hself := count_mem_items H
  refine ⟨?_, ?_, Or.inl (entry_put_self _ _ _), h.events⟩
  · intro h' hh'
    rw [entry_put_of_ne hkey raw (certificates_mem_items hh') hself (by rintro ⟨⟩)]
    exact h.certificates h' hh'
  · intro i
    rw [entry_put_of_ne hkey raw (array_mem_items H i) hself (by rintro ⟨⟩)]
    exact h.array i

theorem getAs_of_reads {α : Type} {d : Decoder α} {raw : RawState A} {k bs : List UInt8} {a : α}
    (hentry : raw.store.entry k = some bs) (hread : Reads d bs a) : raw.getAs d k = some a := by
  have hrun := hread []
  rw [List.append_nil] at hrun
  rw [RawState.getAs, hentry, Option.bind_some, hrun]
  rfl

/-- The counter is read back. -/
theorem Keeps.count_eq {st : State A} {raw : RawState A} (h : Keeps key H st raw) :
    Raw.count key raw = st.certificateCount := by
  rcases h.count with hentry | ⟨hentry, hzero⟩
  · rw [Raw.count, getAs_of_reads hentry (U128.reads _)]
    rfl
  · rw [Raw.count, RawState.getAs, hentry, hzero]
    rfl

end Operations

/-! ### Refinement -/

section Refinement

variable {key : Layout} {H : Set H256}

theorem insertCert_simulates (hkey : Set.InjOn key (items H)) {hash : H256} (hh : hash ∈ H)
    (cert : Certificate) :
    Simulates (Keeps (A := A) key H) (insertCert hash cert) (Raw.insertCert key hash cert) := by
  refine Simulates.bind (Simulates.update fun _ _ h => h.insert_certificate hkey hh cert) ?_
  intro _
  refine Simulates.bind (Simulates.read fun _ _ h => h.count_eq.symm) ?_
  intro currentIndex
  refine Simulates.bind (Simulates.update fun _ _ h => h.insert_array hkey currentIndex hash) ?_
  intro _
  refine Simulates.bind (Simulates.lift _) ?_
  intro nextIndex
  exact Simulates.update fun _ _ h => h.put_count hkey nextIndex

/-- **The pallet over bytes does what the pallet over values does.** -/
theorem addCert_simulates (hkey : Set.InjOn key (items H)) {data : CertificateData}
    (hh : host.blake2_256 data ∈ H) (origin : Origin A) (sigs : List Sig) :
    Simulates (Keeps (A := A) key H) (addCert host origin data sigs)
      (Raw.addCert key host origin data sigs) := by
  refine Simulates.bind (Simulates.lift _) ?_
  intro _
  refine Simulates.bind (Simulates.lift _) ?_
  intro _
  refine Simulates.bind (Simulates.lift _) ?_
  intro sender
  refine Simulates.bind (Simulates.lift _) ?_
  intro _
  refine Simulates.bind (insertCert_simulates hkey hh _) ?_
  intro _
  refine Simulates.update ?_
  rintro st raw ⟨hcerts, harray, hcount, hevents⟩
  exact ⟨hcerts, harray, hcount, by rw [hevents]⟩

theorem step_matches (hkey : Set.InjOn key (items H)) {c : Call A}
    (hh : host.blake2_256 c.data ∈ H) :
    Matches (Keeps key H) (step host) (Raw.step key host) c :=
  addCert_simulates hkey hh c.origin c.sigs

theorem run_keeps (hkey : Set.InjOn key (items H)) {cs : List (Call A)}
    (hcs : ∀ c ∈ cs, host.blake2_256 c.data ∈ H) :
    Keeps key H (run host .empty cs) (Raw.run key host .empty cs) :=
  Matches.exec (fun c hc => step_matches hkey (hcs c hc)) (keeps_empty key H)

end Refinement

/-! ### Reading back -/

/-- The certificates of a run are short enough for their encoding. -/
theorem length_of_entry {cs : List (Call A)} {h : H256} {cert : Certificate}
    (hentry : (run host .empty cs).certificates.entry h = some cert) :
    cert.data.length < 2 ^ 32 ∧ cert.sigs.length < 2 ^ 32 := by
  rw [run_empty] at hentry
  have hauth := authentic_of_entry hentry
  have hdata := hauth.data_lt
  have hsigs := hauth.sigs_lt
  refine ⟨?_, ?_⟩ <;> omega

/-- **The pallet over bytes.**  Let the layout keep apart the certificates of the
hashes in `H`, among them those of the calls' data, the array and the count.  Over a run from empty
storage the pallet gives the same results over bytes as over values and deposits
the same events, and its getters decode to the same certificates at `H`, the
same array and the same count. -/
theorem raw_run (key : Layout) (H : Set H256) (hkey : Set.InjOn key (items H)) (host : Host)
    (cs : List (Call A)) (hcs : ∀ c ∈ cs, host.blake2_256 c.data ∈ H) :
    let st := run host .empty cs
    let raw := Raw.run key host .empty cs
    Raw.results key host .empty cs = results host .empty cs ∧ raw.events = st.events ∧
      (∀ h ∈ H, Raw.cert key raw h = st.cert h) ∧
      (∀ i, Raw.hashAt key raw i = st.certificateArray.get i) ∧
      Raw.count key raw = st.certificateCount := by
  intro st raw
  have hkeeps : Keeps key H st raw := run_keeps hkey hcs
  have hresults : results host .empty cs = Raw.results key host .empty cs :=
    Matches.outs (fun c hc => step_matches hkey (hcs c hc)) (keeps_empty key H)
  refine ⟨hresults.symm, hkeeps.events, ?_, ?_, hkeeps.count_eq⟩
  · intro h hh
    rcases e : st.certificates.entry h with - | cert
    · have hnone := hkeeps.certificates h hh
      rw [e] at hnone
      rw [Raw.cert, RawState.getAs, hnone, State.cert, StorageMap.get, e]
      rfl
    · have hsome := hkeeps.certificates h hh
      rw [e] at hsome
      obtain ⟨hdata, hsigs⟩ := length_of_entry e
      rw [Raw.cert, getAs_of_reads hsome (Certificate.reads hdata hsigs), State.cert,
        StorageMap.get_of_entry e]
      rfl
  · intro i
    rcases e : st.certificateArray.entry i with - | hash
    · have hnone := hkeeps.array i
      rw [e] at hnone
      rw [Raw.hashAt, RawState.getAs, hnone, StorageMap.get, e]
      rfl
    · have hsome := hkeeps.array i
      rw [e] at hsome
      rw [Raw.hashAt, getAs_of_reads hsome (reads_fixed hash), StorageMap.get_of_entry e]
      rfl

/-- The items one after the other, without hashing their keys. -/
def sampleLayout : Layout
  | .certificates hash => 0 :: hash.bytes
  | .certificateArray index => 1 :: index.encode
  | .certificateCount => [2]

theorem sampleLayout_injective : Function.Injective sampleLayout := by
  intro i j h
  cases i with
  | certificates hash =>
    cases j with
    | certificates hash' => exact congrArg _ (FixedBytes.ext (List.cons.inj h).2)
    | certificateArray index => exact absurd (List.cons.inj h).1 (by decide)
    | certificateCount => exact absurd (List.cons.inj h).1 (by decide)
  | certificateArray index =>
    cases j with
    | certificates hash => exact absurd (List.cons.inj h).1 (by decide)
    | certificateArray index' =>
      have hprefix : index.encode <+: index'.encode :=
        (List.cons.inj h).2 ▸ List.prefix_refl _
      exact congrArg _ ((U128.reads index).prefix_free (U128.reads index') hprefix).2
    | certificateCount => exact absurd (List.cons.inj h).1 (by decide)
  | certificateCount =>
    cases j with
    | certificates hash => exact absurd (List.cons.inj h).1 (by decide)
    | certificateArray index => exact absurd (List.cons.inj h).1 (by decide)
    | certificateCount => rfl

/-- A certificate and its overwrite, over bytes. -/
theorem raw_run_overwritten :
    Raw.results sampleLayout sampleHost .empty [signedCall, unsignedCall] = [.ok (), .ok ()] ∧
      Raw.cert sampleLayout (Raw.run sampleLayout sampleHost .empty [signedCall, unsignedCall])
        (sampleDigest []) = ⟨[], sampleDigest [], []⟩ := by
  obtain ⟨hresults, -, hcert, -, -⟩ := raw_run sampleLayout Set.univ
    (sampleLayout_injective.injOn) sampleHost [signedCall, unsignedCall] (fun _ _ => trivial)
  exact ⟨hresults.trans (by decide), (hcert _ trivial).trans (by decide)⟩

end CertStore
