/-
CertStore/Primitives.lean

The types and host functions that the pallet takes from Substrate.

`H256`, `H512` and `AccountId32` are fixed-width raw bytes and `u128` is the
bounded type `U128`, so that the counter cannot hold a number the code could
not.  The two cryptographic primitives are the fields of a `Host`: Blake2-256
is an arbitrary function of the data and the sr25519 check an arbitrary
predicate of signature, message and account.
-/
import CertStore.Scale
import Mathlib.Data.Fin.Basic

namespace CertStore

open Scale

/-! ### Fixed-width types -/

/-- `sp_core::hash::H256`. -/
abbrev H256 := FixedBytes 32

/-- `sp_core::hash::H512`. -/
abbrev H512 := FixedBytes 64

/-- `sp_runtime::AccountId32`. -/
abbrev AccountId32 := FixedBytes 32

/-- `u128`. -/
abbrev U128 := Fin (2 ^ 128)

/-- There are the literals `0` and `1`. -/
instance neZeroU128 : @NeZero ℕ Zero.ofOfNat0 (2 ^ 128) := Nat.instNeZeroHPow

namespace U128

/-- `u128::max_value()`: where the counter stops. -/
def max : ℕ := 2 ^ 128 - 1

theorem le_max (a : U128) : a.val ≤ max := Nat.le_of_lt_succ a.isLt

/-- The `u128` with the value `n`. -/
def ofNat {n : ℕ} (h : n ≤ max) : U128 := ⟨n, Nat.lt_succ_of_le h⟩

@[simp] theorem val_ofNat {n : ℕ} (h : n ≤ max) : (ofNat h).val = n := rfl

/-- `checked_add`: `none` where the sum does not fit. -/
def checkedAdd (a b : U128) : Option U128 :=
  if h : a.val + b.val ≤ max then some (ofNat h) else none

/-- Counting up fails at the last value only. -/
theorem checkedAdd_one (a : U128) :
    a.checkedAdd 1 = if h : a.val < max then some (ofNat (n := a.val + 1) h) else none := rfl

end U128

/-! ### Errors -/

/-- `sp_runtime::DispatchError`, the variants that `add_cert` can return. -/
inductive DispatchError
  | other (message : String)
  | badOrigin
deriving DecidableEq, Repr

/-- `frame_support::dispatch::DispatchResult`. -/
abbrev DispatchResult := Except DispatchError Unit

instance decidableEqExcept {ε α : Type} [DecidableEq ε] [DecidableEq α] :
    DecidableEq (Except ε α)
  | .ok a, .ok b => decidable_of_iff (a = b) ⟨congrArg _, Except.ok.inj⟩
  | .error a, .error b => decidable_of_iff (a = b) ⟨congrArg _, Except.error.inj⟩
  | .ok _, .error _ => isFalse (by rintro ⟨⟩)
  | .error _, .ok _ => isFalse (by rintro ⟨⟩)

/-! ### Origins -/

variable {A : Type}

/-- `system::RawOrigin`, over the runtime's account type `A`. -/
inductive Origin (A : Type)
  | root
  | signed (who : A)
  | none
deriving DecidableEq

/-- `system::ensure_signed`. -/
def ensureSigned : Origin A → Except DispatchError A
  | .signed who => .ok who
  | _ => .error .badOrigin

/-! ### Cryptography -/

/-- `sp_core::sr25519::Signature`: 64 raw bytes. -/
abbrev Sr25519Signature := FixedBytes 64

/-- `sr25519::Signature::try_from(&[u8])` fails unless there are 64 bytes. -/
def Sr25519Signature.tryFrom (data : List UInt8) : Except Unit Sr25519Signature :=
  if h : data.length = 64 then .ok ⟨data, h⟩ else .error ()

/-- The bytes of an `H512` always make a signature. -/
@[simp] theorem Sr25519Signature.tryFrom_bytes (x : H512) :
    Sr25519Signature.tryFrom x.bytes = .ok x := by
  simp [tryFrom, x.length_eq]

/-- The host functions the pallet calls. -/
structure Host where
  /-- `Blake2Hasher::hash`. -/
  blake2_256 : List UInt8 → H256
  /-- `sp_io::crypto::sr25519_verify`: signature, message, account. -/
  sr25519Verify : Sr25519Signature → List UInt8 → AccountId32 → Bool

/-- `sp_runtime::MultiSignature`, the variant the pallet constructs. -/
inductive MultiSignature
  | sr25519 (sig : Sr25519Signature)

/-- `MultiSignature::verify(msg, signer)`. -/
def MultiSignature.verify (host : Host) : MultiSignature → List UInt8 → AccountId32 → Bool
  | .sr25519 sig, msg, signer => host.sr25519Verify sig msg signer

/-! ### A host to evaluate the model with -/

/-- The Blake2-256 digests of the empty message and of the single byte `0`; the
default hash elsewhere. -/
def sampleDigest (data : List UInt8) : H256 :=
  if data = [] then
    ⟨[0x0e, 0x57, 0x51, 0xc0, 0x26, 0xe5, 0x43, 0xb2, 0xe8, 0xab, 0x2e, 0xb0, 0x60, 0x99, 0xda,
      0xa1, 0xd1, 0xe5, 0xdf, 0x47, 0x77, 0x8f, 0x77, 0x87, 0xfa, 0xab, 0x45, 0xcd, 0xf1, 0x2f,
      0xe3, 0xa8], rfl⟩
  else if data = [0] then
    ⟨[0x03, 0x17, 0x0a, 0x2e, 0x75, 0x97, 0xb7, 0xb7, 0xe3, 0xd8, 0x4c, 0x05, 0x39, 0x1d, 0x13,
      0x9a, 0x62, 0xb1, 0x57, 0xe7, 0x87, 0x86, 0xd8, 0xc0, 0x82, 0xf2, 0x9d, 0xcf, 0x4c, 0x11,
      0x13, 0x14], rfl⟩
  else default

/-- A stand-in for signing: the account followed by the digest of the message. -/
def sampleSign (who : AccountId32) (msg : List UInt8) : H512 :=
  ⟨who.bytes ++ (sampleDigest msg).bytes, by simp [who.length_eq, FixedBytes.length_eq]⟩

/-- The host that accepts exactly the signatures of `sampleSign`. -/
def sampleHost : Host where
  blake2_256 := sampleDigest
  sr25519Verify sig msg who := sig = sampleSign who msg

/-- The public key of the development account `//Alice`. -/
def alice : AccountId32 :=
  ⟨[0xd4, 0x35, 0x93, 0xc7, 0x15, 0xfd, 0xd3, 0x1c, 0x61, 0x14, 0x1a, 0xbd, 0x04, 0xa9, 0x9f,
    0xd6, 0x82, 0x2c, 0x85, 0x58, 0x85, 0x4c, 0xcd, 0xe3, 0x9a, 0x56, 0x84, 0xe7, 0xa5, 0x6d,
    0xa2, 0x7d], rfl⟩

/-- The public key of the development account `//Bob`. -/
def bob : AccountId32 :=
  ⟨[0x8e, 0xaf, 0x04, 0x15, 0x16, 0x87, 0x73, 0x63, 0x26, 0xc9, 0xfe, 0xa1, 0x7e, 0x25, 0xfc,
    0x52, 0x87, 0x61, 0x36, 0x93, 0xc9, 0x12, 0x90, 0x9c, 0xb2, 0x26, 0xaa, 0x47, 0x94, 0xf2,
    0x6a, 0x48], rfl⟩

end CertStore
