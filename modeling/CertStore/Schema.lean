/-
CertStore/Schema.lean

SCALE with the types given as data: a client declares a table of named types,
and the bytes are interpreted by the table.

A table entry is another name for a type, or a struct with named fields.
`resolve` follows the names and gives a closed `Schema`.  A schema decodes
bytes into dynamic values and encodes dynamic values into bytes; the fields of
a struct are looked up in the object by name, so the order in which an object
lists them does not matter, and are laid out in the declared order.  The length
of a vector may be in any mode.

`Reads` rules for schemas (`Schema.reads_vec`, `Fields.reads_cons`, ...) take a
reader of the parts to a reader of the whole.
-/
import CertStore.Scale
import Mathlib.Data.List.Forall2

namespace Scale

/-! ### Types -/

/-- A type as it is written in a table. -/
inductive TypeRef
  | u8
  | fixed (n : ℕ)
  | vec (t : TypeRef)
  | named (name : String)
deriving DecidableEq

/-- What a table says about a name. -/
inductive TypeDef
  | alias (t : TypeRef)
  | struct (fields : List (String × TypeRef))
deriving DecidableEq

/-- A table of named types. -/
abbrev TypeTable := List (String × TypeDef)

mutual

/-- A type without names. -/
inductive Schema
  | u8
  | fixed (n : ℕ)
  | bytes
  | vec (s : Schema)
  | struct (fields : Fields)

/-- The fields of a struct, in declared order. -/
inductive Fields
  | nil
  | cons (name : String) (s : Schema) (rest : Fields)

end

/-- Follow the names of a type; a vector of `u8` is a byte string. -/
def resolve (types : TypeTable) : ℕ → TypeRef → Option Schema
  | 0, _ => none
  | _ + 1, .u8 => some .u8
  | _ + 1, .fixed n => some (.fixed n)
  | _ + 1, .vec .u8 => some .bytes
  | fuel + 1, .vec t => .vec <$> resolve types fuel t
  | fuel + 1, .named name =>
    match types.lookup name with
    | none => none
    | some (.alias t) => resolve types fuel t
    | some (.struct fields) =>
      .struct <$> fields.foldr
        (fun field rest => .cons field.1 <$> resolve types fuel field.2 <*> rest) (some .nil)

/-! ### Values -/

/-- A dynamic value. -/
inductive Value
  | num (b : UInt8)
  | bytes (bs : List UInt8)
  | seq (vs : List Value)
  | obj (fields : List (String × Value))

mutual

/-- Decode a value. -/
def Schema.decode : Schema → Decoder Value
  | .u8 => .num <$> byte
  | .fixed n => (fun x => .bytes x.bytes) <$> Scale.fixed n
  | .bytes => .bytes <$> Scale.vec compactAny byte
  | .vec s => .seq <$> Scale.vec compactAny s.decode
  | .struct fields => .obj <$> fields.decode

/-- Decode the fields in declared order. -/
def Fields.decode : Fields → Decoder (List (String × Value))
  | .nil => Pure.pure []
  | .cons name s rest => do
    let v ← s.decode
    let vs ← rest.decode
    return (name, v) :: vs

end

mutual

/-- Encode a value. -/
def Schema.encode : Schema → Value → Option (List UInt8)
  | .u8, .num b => some [b]
  | .fixed n, .bytes bs => if bs.length = n then some bs else none
  | .bytes, .bytes bs => some (encodeVec (fun b => [b]) bs)
  | .vec s, .seq vs => do
    let es ← vs.mapM s.encode
    return encodeCompact vs.length ++ es.flatten
  | .struct fields, .obj kvs => fields.encode kvs
  | _, _ => none

/-- Encode the fields in declared order, each looked up by its name. -/
def Fields.encode : Fields → List (String × Value) → Option (List UInt8)
  | .nil, _ => some []
  | .cons name s rest, kvs => do
    let v ← kvs.lookup name
    let e ← s.encode v
    let es ← rest.encode kvs
    return e ++ es

end

/-! ### Reading -/

theorem Schema.reads_fixed {n : ℕ} (x : FixedBytes n) :
    Reads (Schema.fixed n).decode x.bytes (.bytes x.bytes) :=
  (Scale.reads_fixed x).map _

theorem Schema.reads_bytes {bs : List UInt8} (h : bs.length < 2 ^ 32) :
    Reads Schema.bytes.decode (encodeVec (fun b => [b]) bs) (.bytes bs) :=
  (reads_vec_self (reads_compactAny h) fun b _ => reads_byte b).map _

theorem Schema.reads_vec {γ : Type} {s : Schema} {e : γ → List UInt8} {f : γ → Value}
    {xs : List γ} (hlen : xs.length < 2 ^ 32) (h : ∀ x ∈ xs, Reads s.decode (e x) (f x)) :
    Reads (Schema.vec s).decode (encodeVec e xs) (.seq (xs.map f)) :=
  (Scale.reads_vec (reads_compactAny hlen) h).map _

theorem Schema.reads_struct {fields : Fields} {bs : List UInt8} {kvs : List (String × Value)}
    (h : Reads fields.decode bs kvs) : Reads (Schema.struct fields).decode bs (.obj kvs) :=
  h.map _

theorem Fields.reads_cons {name : String} {s : Schema} {rest : Fields} {bs cs : List UInt8}
    {v : Value} {kvs : List (String × Value)} (hs : Reads s.decode bs v)
    (hrest : Reads rest.decode cs kvs) :
    Reads (Fields.cons name s rest).decode (bs ++ cs) ((name, v) :: kvs) :=
  Reads.bind hs (Reads.bind_pure _ hrest)

theorem Fields.reads_last {name : String} {s : Schema} {bs : List UInt8} {v : Value}
    (hs : Reads s.decode bs v) : Reads (Fields.cons name s .nil).decode bs [(name, v)] := by
  have hread : Reads (Fields.cons name s .nil).decode (bs ++ []) [(name, v)] :=
    Fields.reads_cons hs (Reads.pure [])
  rwa [List.append_nil] at hread

/-! ### Writing -/

/-- A vector is written as its length and what its elements are written as. -/
theorem Schema.encode_vec {γ : Type} {s : Schema} {e : γ → List UInt8} {vs : List Value}
    {xs : List γ} (h : List.Forall₂ (fun v x => s.encode v = some (e x)) vs xs) :
    (Schema.vec s).encode (.seq vs) = some (encodeVec e xs) := by
  have hmap : vs.mapM s.encode = some (xs.map e) := by
    induction h with
    | nil => rfl
    | cons hv _ ih => simp [List.mapM_cons, hv, ih]
  show (vs.mapM s.encode >>= fun es => some (encodeCompact vs.length ++ es.flatten)) = _
  rw [hmap, h.length_eq, encodeVec, List.flatMap_def]
  rfl

theorem Fields.encode_cons {name : String} {s : Schema} {rest : Fields}
    {kvs : List (String × Value)} {v : Value} {bs cs : List UInt8}
    (hlookup : kvs.lookup name = some v) (hs : s.encode v = some bs)
    (hrest : rest.encode kvs = some cs) :
    (Fields.cons name s rest).encode kvs = some (bs ++ cs) := by
  show (kvs.lookup name >>= fun v => s.encode v >>= fun e => rest.encode kvs >>= fun es =>
    some (e ++ es)) = _
  rw [hlookup, Option.bind_eq_bind, Option.bind_some, hs, Option.bind_eq_bind, Option.bind_some,
    hrest]
  rfl

theorem Fields.encode_last {name : String} {s : Schema} {kvs : List (String × Value)} {v : Value}
    {bs : List UInt8} (hlookup : kvs.lookup name = some v) (hs : s.encode v = some bs) :
    (Fields.cons name s .nil).encode kvs = some bs := by
  have henc : (Fields.cons name s .nil).encode kvs = some (bs ++ []) :=
    Fields.encode_cons hlookup hs rfl
  rwa [List.append_nil] at henc

end Scale
