/-
CertStore/Commute.lean

Submitting the same calls in another order.

A reordering of a sequence `c` of calls is `c ∘ σ` (`CertStore.Reorder`).  It
`KeepsOrder` when two calls whose data have the same hash stay in order.

* The table of a journal depends only on the order of the submissions of each
  hash (`Ledger.table_congr`) and the counter only on their number, so both are
  the same after either order, limit or no limit.
* While the counter has room, the result of a call depends on the call alone
  (`results_of_room`), and the array and the events grow by the submissions in
  their order (`Ledger.array_entry_right`, `Ledger.events_append`).

`reorder_commutes` puts these together: what is appended in the second order is
what is appended in the first, permuted as the calls are.
-/
import CertStore.Index
import CertStore.Reorder
import Mathlib.Data.Fin.VecNotation

namespace CertStore

open Scale

variable {A : Type} {host : Host}

/-! ### Growing a journal by several submissions -/

namespace Ledger

/-- The table depends on the order of the submissions of each hash only. -/
theorem table_congr {L M N : List (Submission host A)}
    (h : ∀ k, Journal.ofKey Submission.hash M k = Journal.ofKey Submission.hash N k) :
    table (L ++ M) = table (L ++ N) := by
  ext1
  funext k
  have hlast : Journal.last Submission.hash M k = Journal.last Submission.hash N k :=
    congrArg List.getLast? (h k)
  simp only [table, Journal.last_append, hlast]

theorem count_congr {L M N : List (Submission host A)} (h : M.length = N.length) :
    count (L ++ M) = count (L ++ N) := by
  apply Fin.ext
  simp only [count, U128.val_ofNat, List.length_append, h]

/-- With room for `M`, its hashes follow at the counter. -/
theorem array_entry_right {L M : List (Submission host A)}
    (h : (count L).val + M.length ≤ U128.max) {k : ℕ} (hk : k < M.length) {i : U128}
    (hi : i.val = (count L).val + k) : (array (L ++ M)).entry i = M[k]?.map Submission.hash := by
  have hval := val_count L
  have hL : (count L).val = L.length := by omega
  have hmax : i.val < U128.max := by omega
  simp only [array, hmax, if_true]
  rw [hi, hL, List.getElem?_append_right (Nat.le_add_right _ _), Nat.add_sub_cancel_left]

end Ledger

/-- What a call returns while the counter has room. -/
def verdict (host : Host) (c : Call A) : DispatchResult :=
  (screen host c).map fun _ => ()

/-- With room for all its submissions, every call of a run gets its verdict. -/
theorem results_of_room {L : List (Submission host A)} {cs : List (Call A)}
    (h : (Ledger.count L).val + (submissions host cs).length ≤ U128.max) :
    results host (Ledger.state L) cs = cs.map (verdict host) := by
  rw [results, step_represents.outs]
  induction cs generalizing L with
  | nil => rfl
  | cons c cs ih =>
    obtain ⟨sub, rfl, hc⟩ | ⟨-, e, hc⟩ := screen_cases host c
    · -- there is room for this submission, and afterwards for the others
      rw [submissions_cons_call, List.length_cons] at h
      have hlen : L.length < U128.max := Ledger.count_lt_max_iff.mp (by omega)
      have hok : Ledger.answer L.length = .ok () := if_pos hlen
      have hverdict : verdict host sub.call = .ok () := by rw [verdict, hc]; rfl
      have hnext : (Ledger.count (L ++ [sub])).val + (submissions host cs).length ≤ U128.max := by
        rw [Ledger.count_append (by simpa using by omega), List.length_singleton]
        omega
      rw [Machine.outs_cons, Ledger.step_submission, ih hnext, List.map_cons, hverdict, hok]
    · rw [submissions_cons_error hc] at h
      have hverdict : verdict host c = .error e := by rw [verdict, hc]; rfl
      rw [Machine.outs_cons, Ledger.step_error L hc, ih h, List.map_cons, hverdict]

/-! ### Reordered submissions -/

/-- Calls whose data have the same hash stay in order. -/
def KeepsOrder (host : Host) {n : ℕ} (c : Fin n → Call A) (σ : Equiv.Perm (Fin n)) : Prop :=
  ∀ i j, i < j → host.blake2_256 (c (σ i)).data = host.blake2_256 (c (σ j)).data → σ i < σ j

theorem Submission.call_injective :
    Function.Injective (Submission.call : Submission host A → Call A) := by
  intro sub sub' h
  have hok := screen_call sub
  rw [h, screen_call] at hok
  exact (Except.ok.inj hok).symm

/-- The submissions of one hash are those of the calls of that hash. -/
theorem ofKey_submissions (cs : List (Call A)) (h : H256) :
    Journal.ofKey Submission.hash (submissions host cs) h =
      submissions host (cs.filter fun c => host.blake2_256 c.data = h) := by
  induction cs with
  | nil => rfl
  | cons c cs ih =>
    obtain ⟨sub, rfl, -⟩ | ⟨-, e, herr⟩ := screen_cases host c
    · rw [submissions_cons_call]
      by_cases hh : host.blake2_256 sub.data = h
      · -- the call and its submission are both of that hash
        have hpos : (sub.call :: cs).filter (fun c => host.blake2_256 c.data = h) =
            sub.call :: cs.filter fun c => host.blake2_256 c.data = h :=
          List.filter_cons_of_pos (decide_eq_true hh)
        rw [hpos, submissions_cons_call, ← ih]
        exact List.filter_cons_of_pos (decide_eq_true hh)
      · have hneg : (sub.call :: cs).filter (fun c => host.blake2_256 c.data = h) =
            cs.filter fun c => host.blake2_256 c.data = h :=
          List.filter_cons_of_neg fun e => hh (of_decide_eq_true e)
        rw [hneg, ← ih]
        exact List.filter_cons_of_neg fun e => hh (of_decide_eq_true e)
    · rw [submissions_cons_error herr, ih]
      by_cases hh : host.blake2_256 c.data = h
      · rw [List.filter_cons_of_pos (by simpa using hh), submissions_cons_error herr]
      · rw [List.filter_cons_of_neg (by simpa using hh)]

/-- The places of the calls that pass the checks. -/
def passingPlaces (host : Host) {n : ℕ} (c : Fin n → Call A) : List (Fin n) :=
  Reorder.places (fun c => c.ChecksPass host) c

theorem length_submissions (cs : List (Call A)) :
    (submissions host cs).length = (passing host cs).length := by
  rw [← map_call_submissions, List.length_map]

/-- **The submissions of the second order** are those of the first, permuted as
the calls are. -/
theorem submissions_comp_perm {n : ℕ} (c : Fin n → Call A) (σ : Equiv.Perm (Fin n)) {m : ℕ}
    (hm : (passing host (List.ofFn c)).length = m) :
    ∃ (new : Fin m → Submission host A) (τ : Equiv.Perm (Fin m)),
      submissions host (List.ofFn c) = List.ofFn new ∧
      submissions host (List.ofFn (c ∘ σ)) = List.ofFn (new ∘ τ) ∧
      (∀ k : Fin m, ((passingPlaces host c)[k.val]?).map c = some (new k).call) ∧
      ∀ k : Fin m, (passingPlaces host c)[(τ k).val]? =
        ((passingPlaces host (c ∘ σ))[k.val]?).map σ := by
  -- the calls of the submissions, by their places
  have hplaces : ∀ c : Fin n → Call A, (submissions host (List.ofFn c)).map Submission.call =
      (passingPlaces host c).map c := by
    intro c
    rw [map_call_submissions, passing, Reorder.filter_ofFn]
    rfl
  have hlen : (submissions host (List.ofFn c)).length = m := by rw [length_submissions, hm]
  have hlenσ : (submissions host (List.ofFn (c ∘ σ))).length = m := by
    rw [← hlen]
    exact ((σ.ofFn_comp_perm c).filterMap _).length_eq
  have hlenp : (passingPlaces host c).length = m := by
    rw [← hlen, ← List.length_map (f := Submission.call), hplaces, List.length_map]
  obtain ⟨new, hnew⟩ := Reorder.exists_ofFn_eq hlen
  obtain ⟨new', hnew'⟩ := Reorder.exists_ofFn_eq hlenσ
  obtain ⟨τ, hτ⟩ := Reorder.exists_rank_perm σ hlenp
  have hcall : ∀ k : Fin m, ((passingPlaces host c)[k.val]?).map c = some (new k).call := by
    intro k
    rw [← List.getElem?_map, ← hplaces, ← hnew]
    simp
  have hcall' : ∀ k : Fin m, ((passingPlaces host (c ∘ σ))[k.val]?).map (c ∘ σ) =
      some (new' k).call := by
    intro k
    rw [← List.getElem?_map, ← hplaces, ← hnew']
    simp
  refine ⟨new, τ, hnew.symm, ?_, hcall, hτ⟩
  rw [← hnew']
  congr 1
  funext k
  -- both are the submission of the call at the same place
  apply Submission.call_injective
  apply Option.some.inj
  calc some (new' k).call
      = (((passingPlaces host (c ∘ σ))[k.val]?).map σ).map c := by
        rw [← hcall' k, Option.map_map]
    _ = ((passingPlaces host c)[(τ k).val]?).map c := congrArg (Option.map c) (hτ k).symm
    _ = some (new (τ k)).call := hcall (τ k)

/-! ### Both orders -/

/-- **Independent submissions commute.**  Run a sequence of calls from a
reachable state, and a reordering of it that keeps the calls of each hash in
order.  The tables and the counters after the two runs are the same.  If
moreover the counter has room for all the submissions, every call returns the
same result in both orders, the array below the old counter stays as it was,
and what is appended to the array and to the events in the second order is
what is appended in the first, permuted as the calls are: the `k`-th submission
of the second order is the call at the place of the `τ k`-th of the first. -/
theorem reorder_commutes (host : Host) {st : State A} (hst : Reachable host st) {n : ℕ}
    (c : Fin n → Call A) (σ : Equiv.Perm (Fin n)) (hσ : KeepsOrder host c σ) :
    let st₁ := run host st (List.ofFn c)
    let st₂ := run host st (List.ofFn (c ∘ σ))
    let m := (passing host (List.ofFn c)).length
    st₂.certificates = st₁.certificates ∧ st₂.certificateCount = st₁.certificateCount ∧
    (st.certificateCount.val + m ≤ 2 ^ 128 - 1 →
      (∀ i : Fin n, (results host st (List.ofFn (c ∘ σ)))[i.val]? =
        (results host st (List.ofFn c))[(σ i).val]?) ∧
      (∀ i : U128, i.val < st.certificateCount.val →
        st₁.certificateArray.entry i = st.certificateArray.entry i ∧
          st₂.certificateArray.entry i = st.certificateArray.entry i) ∧
      st₁.certificateCount.val = st.certificateCount.val + m ∧
      ∃ (new : Fin m → Submission host A) (τ : Equiv.Perm (Fin m)),
        (∀ k : Fin m, ((passingPlaces host c)[k.val]?).map c = some (new k).call) ∧
        (∀ k : Fin m, (passingPlaces host c)[(τ k).val]? =
          ((passingPlaces host (c ∘ σ))[k.val]?).map σ) ∧
        (∀ (k : Fin m) (i : U128), i.val = st.certificateCount.val + k.val →
          st₁.certificateArray.entry i = some (new k).hash ∧
            st₂.certificateArray.entry i = some (new (τ k)).hash) ∧
        st₁.events = st.events ++ List.ofFn (fun k => (new k).event) ∧
        st₂.events = st.events ++ List.ofFn (fun k => (new (τ k)).event)) := by
  intro st₁ st₂ m
  obtain ⟨L, rfl⟩ := reachable_iff.mp hst
  obtain ⟨new, τ, hnew, hnewσ, hcall, hτ⟩ := submissions_comp_perm c σ (m := m) rfl
  have hst₁ : st₁ = Ledger.state (L ++ List.ofFn new) := by rw [← hnew, ← run_state]
  have hst₂ : st₂ = Ledger.state (L ++ List.ofFn (new ∘ τ)) := by rw [← hnewσ, ← run_state]
  refine ⟨?_, ?_, ?_⟩
  · -- the calls of one hash are found in the same order
    rw [hst₁, hst₂]
    refine Ledger.table_congr fun h => ?_
    rw [← hnew, ← hnewσ, ofKey_submissions, ofKey_submissions]
    congr 1
    refine Reorder.filter_comp_eq ?_
    intro i j hij hi hj
    exact hσ i j hij ((of_decide_eq_true hi).trans (of_decide_eq_true hj).symm)
  · rw [hst₁, hst₂]
    exact Ledger.count_congr (by simp)
  · intro hroom
    have hroom₁ : (Ledger.count L).val + (List.ofFn new).length ≤ U128.max := by
      rw [List.length_ofFn]
      exact hroom
    have hroom₂ : (Ledger.count L).val + (List.ofFn (new ∘ τ)).length ≤ U128.max := by
      rw [List.length_ofFn]
      exact hroom
    refine ⟨?_, ?_, ?_, new, τ, hcall, hτ, ?_, ?_, ?_⟩
    · intro i
      rw [results_of_room (by rwa [hnewσ]), results_of_room (by rwa [hnew])]
      simp
    · intro i hi
      rw [hst₁, hst₂]
      exact ⟨Ledger.array_entry_append hi _, Ledger.array_entry_append hi _⟩
    · rw [hst₁]
      exact (Ledger.count_append hroom₁).trans (by rw [List.length_ofFn]; rfl)
    · intro k i hi
      rw [hst₁, hst₂]
      refine ⟨?_, ?_⟩
      · exact (Ledger.array_entry_right hroom₁ (by simp) hi).trans (by simp)
      · exact (Ledger.array_entry_right hroom₂ (by simp) hi).trans (by simp)
    · rw [hst₁]
      exact (Ledger.events_append hroom₁).trans (by rw [List.map_ofFn]; rfl)
    · rw [hst₂]
      exact (Ledger.events_append hroom₂).trans (by rw [List.map_ofFn]; rfl)

/-- Two certificates with different hashes, submitted in either order. -/
theorem reorder_commutes_two :
    let c : Fin 2 → Call AccountId32 := ![signedCall, zeroSubmission.call]
    let st₁ := run sampleHost .empty (List.ofFn c)
    let st₂ := run sampleHost .empty (List.ofFn (c ∘ Equiv.swap 0 1))
    st₂.certificates = st₁.certificates ∧
      st₁.certificateArray.get 0 = st₂.certificateArray.get 1 ∧ st₁.certificateCount.val = 2 := by
  intro c st₁ st₂
  have hσ : KeepsOrder sampleHost c (Equiv.swap 0 1) := by
    unfold KeepsOrder
    decide
  obtain ⟨htable, -, hfits⟩ := reorder_commutes sampleHost reachable_empty c (Equiv.swap 0 1) hσ
  obtain ⟨-, -, hcount, -⟩ := hfits (by decide)
  exact ⟨htable, by decide, hcount.trans (by decide)⟩

end CertStore
