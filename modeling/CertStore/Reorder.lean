/-
CertStore/Reorder.lean

Sequences and their reorderings.

A sequence is a function `c : Fin n → α`, and a permutation `σ` of its places
reorders it to `c ∘ σ`: the entry that comes `i`-th there stood at the place
`σ i` before.  `places p c` are the places of the entries that satisfy `p`.

* A reordering permutes these places (`places_comp_perm`), so there is one
  permutation `τ` of their ranks that says which entry went where
  (`exists_rank_perm`).
* A reordering that keeps the order of the entries satisfying `p` does not
  change what `filter p` finds (`filter_comp_eq`).
-/
import Mathlib.Data.List.FinRange
import Mathlib.Data.List.NodupEquivFin
import Mathlib.Data.List.Sort

namespace Reorder

variable {α : Type*} {n : ℕ} {c : Fin n → α} {p : α → Bool}

/-- The places of the entries that satisfy `p`, in order. -/
def places (p : α → Bool) (c : Fin n → α) : List (Fin n) :=
  (List.finRange n).filter fun i => p (c i)

theorem filter_ofFn : (List.ofFn c).filter p = (places p c).map c := by
  rw [List.ofFn_eq_map, List.filter_map]
  rfl

theorem mem_places {i : Fin n} : i ∈ places p c ↔ p (c i) = true := by
  simp [places]

theorem pairwise_places : (places p c).Pairwise (· < ·) :=
  (List.pairwise_lt_finRange n).filter _

theorem nodup_places : (places p c).Nodup := (List.nodup_finRange n).filter _

/-- A reordering permutes the places. -/
theorem places_comp_perm (σ : Equiv.Perm (Fin n)) :
    ((places p (c ∘ σ)).map σ).Perm (places p c) := by
  rw [List.perm_ext_iff_of_nodup (nodup_places.map σ.injective) nodup_places]
  intro i
  rw [List.mem_map, mem_places]
  refine ⟨?_, ?_⟩
  · rintro ⟨j, hj, rfl⟩
    exact (mem_places (c := c ∘ σ)).mp hj
  · intro hi
    exact ⟨σ.symm i, mem_places.mpr (by simpa using hi), σ.apply_symm_apply i⟩

/-- **Keeping the order among some entries keeps what is found of them.** -/
theorem filter_comp_eq {σ : Equiv.Perm (Fin n)}
    (hσ : ∀ i j, i < j → p (c (σ i)) = true → p (c (σ j)) = true → σ i < σ j) :
    (List.ofFn (c ∘ σ)).filter p = (List.ofFn c).filter p := by
  have hmono : ((places p (c ∘ σ)).map σ).Pairwise (· < ·) := by
    rw [List.pairwise_map]
    refine List.Pairwise.imp_of_mem ?_ pairwise_places
    intro i j hi hj hij
    exact hσ i j hij ((mem_places (c := c ∘ σ)).mp hi) ((mem_places (c := c ∘ σ)).mp hj)
  have hplaces : (places p (c ∘ σ)).map σ = places p c :=
    (places_comp_perm σ).eq_of_pairwise' (r := (· < ·)) hmono pairwise_places
  rw [filter_ofFn, filter_ofFn, ← hplaces, List.map_map]

/-- Two lists that are permutations of each other correspond by a permutation
of their indices. -/
theorem exists_perm_getElem? {β : Type*} [DecidableEq β] {l₁ l₂ : List β} {m : ℕ}
    (h : l₂.Perm l₁) (hnd : l₁.Nodup) (hm : l₁.length = m) :
    ∃ τ : Equiv.Perm (Fin m), ∀ k : Fin m, l₁[(τ k).val]? = l₂[k.val]? := by
  subst hm
  -- through the elements, which are the same
  have hnd₂ : l₂.Nodup := h.nodup_iff.mpr hnd
  refine ⟨(finCongr h.length_eq.symm).trans ((hnd₂.getEquiv l₂).trans
    ((Equiv.subtypeEquivRight fun x => h.mem_iff).trans (hnd.getEquiv l₁).symm)), ?_⟩
  intro k
  have hk : k.val < l₂.length := k.isLt.trans_eq h.length_eq.symm
  have hmem : l₂[k.val] ∈ l₁ := h.mem_iff.mp (List.getElem_mem hk)
  show l₁[l₁.idxOf l₂[k.val]]? = l₂[k.val]?
  rw [List.getElem?_eq_getElem (List.idxOf_lt_length_iff.mpr hmem), List.getElem_idxOf,
    List.getElem?_eq_getElem hk]

/-- The permutation of the ranks that belongs to a reordering. -/
theorem exists_rank_perm (σ : Equiv.Perm (Fin n)) {m : ℕ} (hm : (places p c).length = m) :
    ∃ τ : Equiv.Perm (Fin m), ∀ k : Fin m,
      (places p c)[(τ k).val]? = ((places p (c ∘ σ))[k.val]?).map σ := by
  obtain ⟨τ, hτ⟩ := exists_perm_getElem? (places_comp_perm (p := p) (c := c) σ) nodup_places hm
  refine ⟨τ, ?_⟩
  intro k
  rw [hτ k, List.getElem?_map]

/-- A list of `m` entries is a sequence of `m` places. -/
theorem exists_ofFn_eq {l : List α} {m : ℕ} (h : l.length = m) :
    ∃ f : Fin m → α, List.ofFn f = l := by
  subst h
  exact ⟨l.get, List.ofFn_get l⟩

end Reorder
