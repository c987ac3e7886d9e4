/-
CertStore/Journal.lean

Append-only journals with keys: a list that only grows at its end, whose
entries have a key that need not be unique.  Two views of a journal matter to a
store built on top of it:

* `last key L k`, the latest entry with key `k`: what a table keeps that is
  overwritten at every submission;
* `L.take n`, its first `n` entries: what an index with room for `n` entries
  keeps.

`Enumerates key n L` says that the second view lists the keys of the first one
exactly, each once.  `enumerates_append_singleton` tells when an append keeps
that: the new key is fresh if and only if the index still has room.
-/
import Mathlib.Data.List.Nodup

namespace Journal

variable {α κ : Type*} [DecidableEq κ] {key : α → κ}

/-! ### The latest entry of a key -/

/-- The entries with key `k`, in order. -/
def ofKey (key : α → κ) (L : List α) (k : κ) : List α := L.filter fun a => key a = k

/-- The latest entry with key `k`. -/
def last (key : α → κ) (L : List α) (k : κ) : Option α := (ofKey key L k).getLast?

theorem last_append (L M : List α) (k : κ) :
    last key (L ++ M) k = (last key M k).or (last key L k) := by
  simp [last, ofKey, List.getLast?_append]

@[simp] theorem last_append_self (L : List α) (a : α) :
    last key (L ++ [a]) (key a) = some a := by
  simp [last, ofKey]

theorem last_append_of_ne (L : List α) {a : α} {k : κ} (h : k ≠ key a) :
    last key (L ++ [a]) k = last key L k := by
  simp [last, ofKey, h.symm]

theorem last_eq_none_iff {L : List α} {k : κ} :
    last key L k = none ↔ ∀ a ∈ L, key a ≠ k := by
  simp [last, ofKey]

theorem mem_of_last {L : List α} {k : κ} {a : α} (h : last key L k = some a) :
    a ∈ L ∧ key a = k := by
  have hmem : a ∈ ofKey key L k := List.mem_of_getLast? h
  simpa [ofKey] using hmem

theorem exists_last_iff {L : List α} {k : κ} :
    (∃ a, last key L k = some a) ↔ k ∈ L.map key := by
  rw [← Option.ne_none_iff_exists', Ne, last_eq_none_iff]
  simp

omit [DecidableEq κ] in
/-- A journal with given keys, entry by entry. -/
theorem exists_map_eq {P : α → Prop} {ks : List κ} (h : ∀ k ∈ ks, ∃ a, key a = k ∧ P a) :
    ∃ L : List α, L.map key = ks ∧ ∀ a ∈ L, P a := by
  induction ks with
  | nil => exact ⟨[], rfl, by simp⟩
  | cons k ks ih =>
    obtain ⟨a, ha, hP⟩ := h k List.mem_cons_self
    obtain ⟨L, hL, hall⟩ := ih fun k hk => h k (List.mem_cons_of_mem _ hk)
    refine ⟨a :: L, by rw [List.map_cons, ha, hL], ?_⟩
    rw [List.forall_mem_cons]
    exact ⟨hP, hall⟩

/-! ### Enumerating the keys -/

/-- The first `n` entries list every key of the journal, each once. -/
structure Enumerates (key : α → κ) (n : ℕ) (L : List α) : Prop where
  nodup : ((L.take n).map key).Nodup
  complete : ∀ k ∈ L.map key, k ∈ (L.take n).map key

omit [DecidableEq κ] in
theorem enumerates_nil (n : ℕ) : Enumerates key n [] :=
  ⟨by simp, by simp⟩

omit [DecidableEq κ] in
/-- **Exactly the right appends keep an enumeration.**  With room left, the key
has to be fresh; without room, it has to be one that is listed already. -/
theorem enumerates_append_singleton {n : ℕ} {L : List α} (h : Enumerates key n L) (a : α) :
    Enumerates key n (L ++ [a]) ↔ (key a ∉ L.map key ↔ L.length < n) := by
  by_cases hlen : L.length < n
  · -- room left: the whole journal is listed
    have hL : L.take n = L := List.take_of_length_le (by omega)
    have hLa : (L ++ [a]).take n = L ++ [a] := List.take_of_length_le (by simp; omega)
    have hnd : (L.map key).Nodup := by simpa [hL] using h.nodup
    simp only [hlen, iff_true]
    refine ⟨?_, ?_⟩
    · intro h'
      have hnd' := h'.nodup
      rw [hLa, List.map_append, List.nodup_append] at hnd'
      intro hmem
      exact hnd'.2.2 _ hmem (key a) (by simp) rfl
    · intro hfresh
      refine ⟨?_, ?_⟩
      · rw [hLa, List.map_append, List.nodup_append]
        refine ⟨hnd, by simp, ?_⟩
        intro k hk k' hk'
        obtain rfl : k' = key a := by simpa using hk'
        exact fun e => hfresh (e ▸ hk)
      · intro k hk
        rwa [hLa]
  · -- no room: the listing does not change
    have hLa : (L ++ [a]).take n = L.take n := List.take_append_of_le_length (by omega)
    simp only [hlen, iff_false, not_not]
    refine ⟨?_, ?_⟩
    · intro h'
      have hmem := h'.complete (key a) (by simp)
      rw [hLa] at hmem
      exact List.map_subset key (List.take_subset n L) hmem
    · intro hmem
      refine ⟨by rw [hLa]; exact h.nodup, ?_⟩
      intro k hk
      rw [hLa]
      rw [List.map_append, List.mem_append] at hk
      rcases hk with hk | hk
      · exact h.complete k hk
      · obtain rfl : k = key a := by simpa using hk
        exact h.complete _ hmem

end Journal
