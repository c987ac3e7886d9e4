/-
CertStore/Pallet.lean

The pallet `runtime/src/certstore.rs`, function by function.

A dispatchable runs in `Dispatch A`: it reads and writes the storage and may
stop with an error.  The storage is the state *under* the error, so what was
written before an error stays written: the dispatcher of this Substrate
revision does not roll back.  The deposited events are part of the state; they
belong to the `system` module, which only ever appends to them.

The account type `A` of transaction origins is the runtime's
`T::AccountId`; the accounts in a `Sig` are always `AccountId32`.
-/
import CertStore.StorageMap
import CertStore.Primitives

namespace CertStore

open Scale

variable {A : Type}

/-! ### Data -/

/-- `CertificateData`. -/
abbrev CertificateData := List UInt8

/-- One signature and the account it is claimed to come from. -/
structure Sig where
  signature : H512
  accountId : AccountId32
deriving DecidableEq, Inhabited

/-- A certificate, the hash of its data and the signatures of that data. -/
structure Certificate where
  data : CertificateData
  hash : H256
  sigs : List Sig
deriving DecidableEq, Inhabited

/-- `Certificate::default()` has the all-zero hash. -/
@[simp] theorem Certificate.default_hash : (default : Certificate).hash = default := rfl

/-- The pallet's events. -/
inductive Event (A : Type)
  | certAdded (who : A) (hash : H256)
deriving DecidableEq

/-! ### Storage -/

/-- The storage items of `CertStore` and the events deposited so far. -/
@[ext]
structure State (A : Type) where
  /-- `Certificates get(fn cert): map H256 => Certificate`. -/
  certificates : StorageMap H256 Certificate
  /-- `CertificateArray: map u128 => H256`. -/
  certificateArray : StorageMap U128 H256
  /-- `CertificateCount get(fn cert_count): u128`. -/
  certificateCount : U128
  /-- The events, oldest first. -/
  events : List (Event A)

/-- The storage before the first call. -/
def State.empty : State A := ⟨.empty, .empty, 0, []⟩

/-- `cert(h)`, the default-returning getter of `Certificates`. -/
def State.cert (st : State A) (h : H256) : Certificate := st.certificates.get h

/-- Computations of the runtime: storage effects outlive an error. -/
abbrev Dispatch (A : Type) := ExceptT DispatchError (StateM (State A))

namespace Dispatch

/-- Run a computation: its result and the storage it leaves. -/
def apply {α : Type} (x : Dispatch A α) (st : State A) :
    Except DispatchError α × State A := x.run.run st

@[simp] theorem apply_modify (f : State A → State A) (st : State A) :
    (modify f : Dispatch A Unit).apply st = (.ok (), f st) := rfl

@[simp] theorem apply_liftM {α : Type} (x : Except DispatchError α) (st : State A) :
    (liftM x : Dispatch A α).apply st = (x, st) := rfl

/-- `?`: an error ends the computation and keeps the storage as it is. -/
theorem apply_bind {α β : Type} (x : Dispatch A α) (f : α → Dispatch A β) (st : State A) :
    (x >>= f).apply st =
      match x.apply st with
      | (.ok a, st') => (f a).apply st'
      | (.error e, st') => (.error e, st') := by
  simp only [apply, ExceptT.run_bind, StateT.run_bind]
  rcases x.run.run st with ⟨_ | _, _⟩ <;> rfl

end Dispatch

/-- `ensure!`. -/
def ensure (cond : Prop) [Decidable cond] (message : String) : Except DispatchError Unit :=
  if cond then .ok () else .error (.other message)

theorem ensure_pos {cond : Prop} [Decidable cond] {message : String} (h : cond) :
    ensure cond message = .ok () := if_pos h

theorem ensure_neg {cond : Prop} [Decidable cond] {message : String} (h : ¬cond) :
    ensure cond message = .error (.other message) := if_neg h

/-- `ok_or`. -/
def okOr {α : Type} (x : Option α) (message : String) : Except DispatchError α :=
  match x with
  | some a => .ok a
  | none => .error (.other message)

namespace Certificates

def insert (hash : H256) (cert : Certificate) : Dispatch A Unit :=
  modify fun st => { st with certificates := st.certificates.insert hash cert }

end Certificates

namespace CertificateArray

def insert (index : U128) (hash : H256) : Dispatch A Unit :=
  modify fun st => { st with certificateArray := st.certificateArray.insert index hash }

end CertificateArray

namespace CertificateCount

def get : Dispatch A U128 := return (← getThe (State A)).certificateCount

@[simp] theorem apply_get (st : State A) :
    (get : Dispatch A U128).apply st = (.ok st.certificateCount, st) := rfl

def put (count : U128) : Dispatch A Unit :=
  modify fun st => { st with certificateCount := count }

end CertificateCount

def depositEvent (event : Event A) : Dispatch A Unit :=
  modify fun st => { st with events := st.events ++ [event] }

/-! ### The functions of the module -/

/-- Check every signature in turn; the first one that fails ends the call. -/
def checkCert (host : Host) (cert : CertificateData) (sigs : List Sig) : DispatchResult := do
  for sig in sigs do
    let s ← (Sr25519Signature.tryFrom sig.signature.bytes).mapError
      fun _ => DispatchError.other "This is not a signature"
    if !(MultiSignature.sr25519 s).verify host cert sig.accountId then
      throw (.other "Signature is invalid")

/-- Record a certificate.  The table and the array are written before the
counter is found to be full. -/
def insertCert (hash : H256) (cert : Certificate) : Dispatch A Unit := do
  Certificates.insert hash cert
  let currentIndex ← CertificateCount.get
  CertificateArray.insert currentIndex hash
  let nextIndex ← okOr (currentIndex.checkedAdd 1) "index overflowed"
  CertificateCount.put nextIndex

/-- The dispatchable `add_cert`. -/
def addCert (host : Host) (origin : Origin A) (data : CertificateData) (sigs : List Sig) :
    Dispatch A Unit := do
  ensure (data.length < 1024) "Certification is too large"
  ensure (sigs.length < 8) "Too many signers"
  let sender ← ensureSigned origin
  checkCert host data sigs
  let hash := host.blake2_256 data
  let cert : Certificate := { data := data, sigs := sigs, hash := hash }
  insertCert hash cert
  depositEvent (.certAdded sender hash)

end CertStore
