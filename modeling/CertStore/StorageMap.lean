/-
CertStore/StorageMap.lean

A key-value storage map with a default-returning getter, in the manner of the
FRAME `map` storage items.

Presence and value are kept apart: `entry` is the raw slot, `none` while the
key has never been written, and `get` is what a reader sees, the default value
in that case.  A map is a plain function of its keys, so two maps are equal as
soon as all their slots are (`StorageMap.ext`), and "nothing changed" can be
stated as an equation between maps.
-/
import Mathlib.Logic.Function.Basic

variable {κ ν : Type*}

/-- A storage map: one optional slot for each key. -/
@[ext]
structure StorageMap (κ ν : Type*) where
  entry : κ → Option ν

namespace StorageMap

/-! ### Operations -/

/-- The map in which no key has been written. -/
def empty : StorageMap κ ν := ⟨fun _ => none⟩

/-- Overwrite the slot of `k`, whatever it holds. -/
def insert [DecidableEq κ] (m : StorageMap κ ν) (k : κ) (v : ν) : StorageMap κ ν :=
  ⟨Function.update m.entry k (some v)⟩

/-- The default-returning getter. -/
def get [Inhabited ν] (m : StorageMap κ ν) (k : κ) : ν := (m.entry k).getD default

/-- Whether `k` has been written. -/
def containsKey (m : StorageMap κ ν) (k : κ) : Bool := (m.entry k).isSome

/-! ### Reading after writing -/

@[simp] theorem entry_empty (k : κ) : (empty : StorageMap κ ν).entry k = none := rfl

@[simp] theorem entry_insert_self [DecidableEq κ] (m : StorageMap κ ν) (k : κ) (v : ν) :
    (m.insert k v).entry k = some v := by
  simp [insert]

theorem entry_insert_of_ne [DecidableEq κ] (m : StorageMap κ ν) {k k' : κ} (h : k' ≠ k)
    (v : ν) : (m.insert k v).entry k' = m.entry k' := by
  simp [insert, h]

@[simp] theorem get_insert_self [DecidableEq κ] [Inhabited ν] (m : StorageMap κ ν) (k : κ)
    (v : ν) : (m.insert k v).get k = v := by
  simp [get]

theorem get_insert_of_ne [DecidableEq κ] [Inhabited ν] (m : StorageMap κ ν) {k k' : κ}
    (h : k' ≠ k) (v : ν) : (m.insert k v).get k' = m.get k' := by
  simp [get, entry_insert_of_ne m h]

theorem get_of_entry [Inhabited ν] {m : StorageMap κ ν} {k : κ} {v : ν}
    (h : m.entry k = some v) : m.get k = v := by
  simp [get, h]

theorem get_congr [Inhabited ν] {m m' : StorageMap κ ν} {k : κ} (h : m.entry k = m'.entry k) :
    m.get k = m'.get k := congrArg (·.getD default) h

theorem containsKey_iff {m : StorageMap κ ν} {k : κ} :
    m.containsKey k = true ↔ ∃ v, m.entry k = some v := by
  simp [containsKey, Option.isSome_iff_exists]

end StorageMap
