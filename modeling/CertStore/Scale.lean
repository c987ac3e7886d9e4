/-
CertStore/Scale.lean

SCALE, the prefix format of Substrate: fixed-width raw bytes, little-endian
numbers, compact lengths and length-prefixed vectors.

A decoder takes bytes off the front of its input (`StateT (List UInt8) Option`).
The one notion the results are stated with is

    Reads d bs a

the decoder `d` consumes exactly `bs` and returns `a`, whatever bytes follow.
`Reads` composes (`Reads.bind`), so a decoder is verified against an encoding
by following its `do` block, and it does not ask where the bytes come from:
the same rules serve the round trip of one format and the agreement of two
independently written ones.  It also carries the two consequences of a prefix
format, that encodings are injective and that none is a proper prefix of
another (`Reads.prefix_free`).

Compact lengths use the one-, two- and four-byte modes below `2 ^ 30` and the
big-integer mode with four bytes from there to `2 ^ 32`.  There are two decoders
for them: `compact` refuses a length that is not in its shortest mode, and
`compactAny` takes it.  What the first one decodes the second one decodes alike
(`compactAny_run`), so both read what `encodeCompact` writes.  A vector is decoded
with either (`vec`).
-/
import Mathlib.Algebra.Group.Nat.Defs
import Mathlib.Data.List.Basic
import Mathlib.Tactic.Common

namespace Scale

/-! ### Fixed-width raw bytes -/

/-- Exactly `n` raw bytes. -/
@[ext]
structure FixedBytes (n : ℕ) where
  bytes : List UInt8
  length_eq : bytes.length = n
deriving DecidableEq

/-- The default value is all zeros. -/
instance (n : ℕ) : Inhabited (FixedBytes n) :=
  ⟨⟨List.replicate n 0, List.length_replicate⟩⟩

/-! ### Decoders and what they read -/

/-- A decoder takes bytes off the front of its input, or fails. -/
abbrev Decoder (α : Type) := StateT (List UInt8) Option α

/-- `d` consumes exactly `bs` and returns `a`, whatever follows. -/
def Reads {α : Type} (d : Decoder α) (bs : List UInt8) (a : α) : Prop :=
  ∀ r, d.run (bs ++ r) = some (a, r)

variable {α β : Type}

theorem Reads.pure (a : α) : Reads (Pure.pure a : Decoder α) [] a := fun _ => rfl

/-- Decoding in sequence reads the concatenation. -/
theorem Reads.bind {d : Decoder α} {k : α → Decoder β} {bs cs : List UInt8} {a : α} {b : β}
    (hd : Reads d bs a) (hk : Reads (k a) cs b) : Reads (d >>= k) (bs ++ cs) b := by
  intro r
  rw [List.append_assoc, StateT.run_bind, hd (cs ++ r)]
  exact hk r

/-- The last line of a `do` block reads nothing. -/
theorem Reads.bind_pure {d : Decoder α} {bs : List UInt8} {a : α} (f : α → β)
    (hd : Reads d bs a) : Reads (d >>= fun a => Pure.pure (f a)) bs (f a) := by
  have hread : Reads (d >>= fun a => Pure.pure (f a)) (bs ++ []) (f a) :=
    hd.bind (Reads.pure (f a))
  rwa [List.append_nil] at hread

/-- Reading and then converting the value. -/
theorem Reads.map {d : Decoder α} {bs : List UInt8} {a : α} (f : α → β)
    (hd : Reads d bs a) : Reads (f <$> d) bs (f a) := by
  intro r
  rw [StateT.run_map, hd r]
  rfl

/-- **A prefix format.**  Of two byte strings that one decoder reads, neither
is a proper prefix of the other, and equal strings are read as equal values. -/
theorem Reads.prefix_free {d : Decoder α} {bs cs : List UInt8} {a b : α}
    (ha : Reads d bs a) (hb : Reads d cs b) (h : bs <+: cs) : bs = cs ∧ a = b := by
  obtain ⟨r, rfl⟩ := h
  have e : some (a, r) = some (b, []) := by
    rw [← ha r, ← hb [], List.append_nil]
  obtain ⟨hab, hr⟩ := Prod.mk.inj (Option.some.inj e)
  exact ⟨by rw [hr, List.append_nil], hab⟩

/-! ### Bytes -/

/-- One byte. -/
def byte : Decoder UInt8 := fun
  | [] => none
  | b :: bs => some (b, bs)

theorem reads_byte (b : UInt8) : Reads byte [b] b := fun _ => rfl

/-- Exactly `n` raw bytes. -/
def fixed (n : ℕ) : Decoder (FixedBytes n) := fun bs =>
  if h : n ≤ bs.length then
    some (⟨bs.take n, by rw [List.length_take, Nat.min_eq_left h]⟩, bs.drop n)
  else none

theorem reads_fixed {n : ℕ} (x : FixedBytes n) : Reads (fixed n) x.bytes x := by
  obtain ⟨bs, rfl⟩ := x
  intro r
  show fixed bs.length (bs ++ r) = _
  simp [fixed]

/-! ### Little-endian numbers -/

/-- The `k` low bytes of `n`, least significant first. -/
def leBytes : ℕ → ℕ → List UInt8
  | 0, _ => []
  | k + 1, n => UInt8.ofNat n :: leBytes k (n / 256)

/-- A `k`-byte little-endian number. -/
def le : ℕ → Decoder ℕ
  | 0 => Pure.pure 0
  | k + 1 => do
    let b ← byte
    let n ← le k
    return b.toNat + 256 * n

theorem reads_le {k n : ℕ} (h : n < 256 ^ k) : Reads (le k) (leBytes k n) n := by
  induction k generalizing n with
  | zero =>
    obtain rfl : n = 0 := by simpa using h
    exact Reads.pure 0
  | succ k ih =>
    have hdiv : n / 256 < 256 ^ k := by
      rw [Nat.div_lt_iff_lt_mul (by decide), ← Nat.pow_succ]
      exact h
    have hn : (UInt8.ofNat n).toNat + 256 * (n / 256) = n := by
      rw [UInt8.toNat_ofNat']
      omega
    have hread : Reads (le (k + 1)) ([UInt8.ofNat n] ++ leBytes k (n / 256))
        ((UInt8.ofNat n).toNat + 256 * (n / 256)) :=
      Reads.bind (reads_byte _) (Reads.bind_pure _ (ih hdiv))
    rwa [hn] at hread

/-! ### Compact lengths -/

/-- A compact number: the two low bits of the first byte give the mode. -/
def encodeCompact (n : ℕ) : List UInt8 :=
  if n < 2 ^ 6 then leBytes 1 (4 * n)
  else if n < 2 ^ 14 then leBytes 2 (4 * n + 1)
  else if n < 2 ^ 30 then leBytes 4 (4 * n + 2)
  else 3 :: leBytes 4 n

/-- A number above `lo`. -/
def above (lo : ℕ) (d : Decoder ℕ) : Decoder ℕ := do
  let n ← d
  if lo < n then return n else failure

/-- Decode a compact number below `2 ^ 32`, in its shortest mode only. -/
def compact : Decoder ℕ := fun
  | [] => none
  | b :: bs =>
    -- the mode byte is part of the number, except in the last mode
    match b.toNat % 4 with
    | 0 => ((· / 4) <$> le 1).run (b :: bs)
    | 1 => (above (2 ^ 6 - 1) ((· / 4) <$> le 2)).run (b :: bs)
    | 2 => (above (2 ^ 14 - 1) ((· / 4) <$> le 4)).run (b :: bs)
    | _ => if b = 3 then (above (2 ^ 30 - 1) (le 4)).run bs else none

/-- Decode a compact number in whichever mode it is. -/
def compactAny : Decoder ℕ := fun
  | [] => none
  | b :: bs =>
    match b.toNat % 4 with
    | 0 => ((· / 4) <$> le 1).run (b :: bs)
    | 1 => ((· / 4) <$> le 2).run (b :: bs)
    | 2 => ((· / 4) <$> le 4).run (b :: bs)
    -- here the mode byte says how many bytes follow, four at least
    | _ => (le (b.toNat / 4 + 4)).run bs

theorem Reads.above {d : Decoder ℕ} {bs : List UInt8} {lo n : ℕ} (hd : Reads d bs n)
    (h : lo < n) : Reads (Scale.above lo d) bs n := by
  intro r
  rw [Scale.above, StateT.run_bind, hd r]
  show (if lo < n then _ else _ : Decoder ℕ).run r = _
  rw [if_pos h]
  rfl

/-- In the first three modes a number is written as four times itself plus the
mode. -/
theorem reads_quarter {k m n : ℕ} (hm : m < 4) (h : 4 * n + m < 256 ^ k) :
    Reads ((· / 4) <$> le k) (leBytes k (4 * n + m)) n := by
  have hread := (reads_le h).map (· / 4)
  rwa [show (4 * n + m) / 4 = n by omega] at hread

/-- A decoder reads in the mode `m` what the decoder of that mode reads. -/
theorem reads_of_mode {d e : Decoder ℕ} {k m n : ℕ} (hm : m < 4)
    (hmode : ∀ b bs, b.toNat % 4 = m → d.run (b :: bs) = e.run (b :: bs))
    (he : Reads e (leBytes (k + 1) (4 * n + m)) n) :
    Reads d (leBytes (k + 1) (4 * n + m)) n := by
  intro r
  have hb : (UInt8.ofNat (4 * n + m)).toNat % 4 = m := by
    rw [UInt8.toNat_ofNat']
    omega
  rw [leBytes, List.cons_append, hmode _ _ hb]
  exact he r

theorem reads_compact {n : ℕ} (h : n < 2 ^ 32) : Reads compact (encodeCompact n) n := by
  unfold encodeCompact
  split_ifs with h₁ h₂ h₃
  · refine reads_of_mode (m := 0) (by decide) ?_ (reads_quarter (by decide) (by omega))
    intro b bs hb
    simp [compact, StateT.run, hb]
  · refine reads_of_mode (m := 1) (by decide) ?_
      ((reads_quarter (by decide) (by omega)).above (by omega : 2 ^ 6 - 1 < n))
    intro b bs hb
    simp [compact, StateT.run, hb]
  · refine reads_of_mode (m := 2) (by decide) ?_
      ((reads_quarter (by decide) (by omega)).above (by omega : 2 ^ 14 - 1 < n))
    intro b bs hb
    simp [compact, StateT.run, hb]
  · -- the big-integer mode: the mode byte, then the number itself
    exact (reads_le (k := 4) (by omega)).above (by omega : 2 ^ 30 - 1 < n)

theorem run_of_above {d : Decoder ℕ} {lo : ℕ} {bs : List UInt8} {p : ℕ × List UInt8}
    (h : (above lo d).run bs = some p) : d.run bs = some p := by
  rw [above, StateT.run_bind] at h
  obtain ⟨⟨n, rest⟩, hd, hrest⟩ := Option.bind_eq_some_iff.mp h
  by_cases hlo : lo < n
  · have hp : some (n, rest) = some p := by simpa [hlo] using hrest
    rw [hd, hp]
  · simp [hlo] at hrest

/-- What is decoded in its shortest mode is decoded alike in whichever mode. -/
theorem compactAny_run {bs : List UInt8} {p : ℕ × List UInt8}
    (h : compact.run bs = some p) : compactAny.run bs = some p := by
  rcases bs with - | ⟨b, bs⟩
  · cases h
  · simp only [compact, compactAny, StateT.run] at h ⊢
    split at h
    · exact h
    · exact run_of_above h
    · exact run_of_above h
    · split_ifs at h with hb
      subst hb
      exact run_of_above h

theorem reads_compactAny {n : ℕ} (h : n < 2 ^ 32) : Reads compactAny (encodeCompact n) n :=
  fun r => compactAny_run (reads_compact h r)

/-- Not so the other way round, as for a zero in the two-byte mode. -/
example : compact.run [1, 0] = none ∧ compactAny.run [1, 0] = some (0, []) := by decide

/-! ### Vectors -/

/-- `n` elements, one after the other. -/
def many {α : Type} (d : Decoder α) : ℕ → Decoder (List α)
  | 0 => return []
  | n + 1 => do
    let a ← d
    let as ← many d n
    return a :: as

/-- A vector: its length, as `len` decodes it, then its elements. -/
def vec {α : Type} (len : Decoder ℕ) (d : Decoder α) : Decoder (List α) := do
  let n ← len
  many d n

/-- The encoding of a vector whose elements are encoded by `e`. -/
def encodeVec {γ : Type} (e : γ → List UInt8) (xs : List γ) : List UInt8 :=
  encodeCompact xs.length ++ xs.flatMap e

theorem reads_many {γ : Type} {d : Decoder α} {e : γ → List UInt8} {f : γ → α} {xs : List γ}
    (h : ∀ x ∈ xs, Reads d (e x) (f x)) :
    Reads (many d xs.length) (xs.flatMap e) (xs.map f) := by
  induction xs with
  | nil => exact Reads.pure []
  | cons x xs ih =>
    have hx : Reads d (e x) (f x) := h x (by simp)
    have hxs := ih fun y hy => h y (by simp [hy])
    rw [List.flatMap_cons]
    exact Reads.bind hx (Reads.bind_pure _ hxs)

/-- A decoder that reads each element as `f` of it reads the vector as the
list of the images. -/
theorem reads_vec {γ : Type} {len : Decoder ℕ} {d : Decoder α} {e : γ → List UInt8} {f : γ → α}
    {xs : List γ} (hlen : Reads len (encodeCompact xs.length) xs.length)
    (h : ∀ x ∈ xs, Reads d (e x) (f x)) :
    Reads (vec len d) (encodeVec e xs) (xs.map f) :=
  hlen.bind (reads_many h)

/-- A decoder that reads each element as itself reads the vector as itself. -/
theorem reads_vec_self {len : Decoder ℕ} {d : Decoder α} {e : α → List UInt8} {xs : List α}
    (hlen : Reads len (encodeCompact xs.length) xs.length) (h : ∀ x ∈ xs, Reads d (e x) x) :
    Reads (vec len d) (encodeVec e xs) xs := by
  have hread := reads_vec (f := id) hlen h
  rwa [List.map_id] at hread

end Scale
