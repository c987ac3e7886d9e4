/-
CertStore/Index.lean

The array of hashes, its counter, the events and the results of the calls.

* `one_log`: the four are views of one append-only log, the calls that pass
  the checks, up to the limit of the counter and past it.
* `enumerated_iff`: nothing compares a new hash with those already stored, so
  the array lists a hash once for every submission of its data, and a
  submission past the limit reaches the table but not the array.  The array is
  an enumeration of the table at every point of a run exactly when each
  submission has a fresh hash if and only if the counter has room.
* `traceless_iff`: `insert_cert` writes before it counts, so a call that fails
  at the limit leaves its certificate and its hash behind.  The failed calls of
  a run change nothing exactly when the calls that pass the checks are no more
  than the counter can count.
-/
import CertStore.Ledger
import Mathlib.Data.Set.Card

namespace CertStore

open Scale

variable {A : Type} {host : Host}

/-! ### The array below the counter -/

namespace Ledger

/-- The hashes that the array lists below the counter. -/
def listing (L : List (Submission host A)) : List H256 :=
  (L.take U128.max).map Submission.hash

theorem length_listing (L : List (Submission host A)) :
    (listing L).length = (count L).val := by
  simp [listing, count, Nat.min_comm]

/-- Below the counter the array holds the listing. -/
theorem listing_getElem? {L : List (Submission host A)} {i : U128}
    (hi : i.val < (count L).val) : (listing L)[i.val]? = some ((array L).get i) := by
  obtain ⟨hlen, hmax⟩ := lt_count_iff.mp hi
  simp [listing, array, StorageMap.get, hmax, hlen]

/-- From the counter to the last index nothing has been written. -/
theorem array_entry_none {L : List (Submission host A)} {i : U128}
    (hi : (count L).val ≤ i.val) (hmax : i.val < U128.max) : (array L).entry i = none := by
  have hlen : L.length ≤ i.val := by
    rw [val_count] at hi
    omega
  simp [array, hmax, hlen]

/-- Below the counter, the journal, the array and the events agree. -/
theorem exists_submission {L : List (Submission host A)} {i : U128}
    (hi : i.val < (count L).val) :
    ∃ sub, L[i.val]? = some sub ∧ (array L).entry i = some sub.hash ∧
      (events L)[i.val]? = some sub.event := by
  obtain ⟨hlen, hmax⟩ := lt_count_iff.mp hi
  refine ⟨L[i.val], List.getElem?_eq_getElem hlen, ?_, ?_⟩
  · simp [array, hmax, hlen]
  · simp [events, hmax, hlen]

/-- The array below an old counter does not change. -/
theorem array_entry_append {L : List (Submission host A)} {i : U128}
    (hi : i.val < (count L).val) (M : List (Submission host A)) :
    (array (L ++ M)).entry i = (array L).entry i := by
  obtain ⟨hlen, hmax⟩ := lt_count_iff.mp hi
  simp [array, hmax, List.getElem?_append_left hlen]

/-- A hash that the array lists below an old counter stays a key of the table. -/
theorem exists_entry_append {L : List (Submission host A)} {i : U128}
    (hi : i.val < (count L).val) (M : List (Submission host A)) :
    ∃ cert, (table (L ++ M)).entry ((array L).get i) = some cert := by
  obtain ⟨sub, hsub, hentry, -⟩ := exists_submission hi
  rw [StorageMap.get_of_entry hentry, ← StorageMap.containsKey_iff, containsKey_table,
    List.map_append]
  exact List.mem_append_left _ (List.mem_map_of_mem (List.mem_of_getElem? hsub))

end Ledger

/-! ### Enumerating the table -/

/-- The array below the counter is a bijection onto the keys of the table, and
the counter is their number. -/
structure Enumerated (st : State A) : Prop where
  bijOn : Set.BijOn st.certificateArray.get {i | i.val < st.certificateCount.val}
    {h | st.certificates.containsKey h = true}
  ncard_eq : {h | st.certificates.containsKey h = true}.ncard = st.certificateCount.val

theorem mem_listing_iff {L : List (Submission host A)} {h : H256} :
    h ∈ Ledger.listing L ↔
      ∃ i : U128, i.val < (Ledger.count L).val ∧ (Ledger.array L).get i = h := by
  rw [List.mem_iff_getElem?]
  refine ⟨?_, ?_⟩
  · rintro ⟨n, hn⟩
    have hlt : n < (Ledger.count L).val := by
      rw [← Ledger.length_listing]
      exact (List.getElem?_eq_some_iff.mp hn).1
    have hmax : n ≤ U128.max := le_trans hlt.le (U128.le_max _)
    refine ⟨.ofNat hmax, hlt, ?_⟩
    have hget := Ledger.listing_getElem? (L := L) (i := .ofNat hmax) hlt
    exact Option.some.inj (hget.symm.trans hn)
  · rintro ⟨i, hi, rfl⟩
    exact ⟨i.val, Ledger.listing_getElem? hi⟩

/-- The listing repeats no hash exactly when the array repeats none below the
counter. -/
theorem nodup_listing_iff {L : List (Submission host A)} :
    (Ledger.listing L).Nodup ↔
      Set.InjOn (Ledger.array L).get {i | i.val < (Ledger.count L).val} := by
  refine ⟨?_, ?_⟩
  · intro hnd i hi j hj e
    have hlt : i.val < (Ledger.listing L).length := by
      rw [Ledger.length_listing]
      exact hi
    refine Fin.ext ((List.getElem?_inj hlt hnd).mp ?_)
    rw [Ledger.listing_getElem? hi, Ledger.listing_getElem? hj, e]
  · intro hinj
    rw [List.nodup_iff_getElem?_ne_getElem?]
    intro m n hmn hn e
    rw [Ledger.length_listing] at hn
    have hmax : n ≤ U128.max := le_trans hn.le (U128.le_max _)
    have hm : (U128.ofNat (le_trans hmn.le hmax)).val < (Ledger.count L).val := hmn.trans hn
    have hgm := Ledger.listing_getElem? hm
    have hgn := Ledger.listing_getElem? (L := L) (i := .ofNat hmax) hn
    have heq := hinj hm hn (Option.some.inj (hgm.symm.trans (e.trans hgn)))
    exact absurd (congrArg Fin.val heq) hmn.ne

/-- In terms of the journal: its first entries list its hashes, each once. -/
theorem enumerated_state_iff {L : List (Submission host A)} :
    Enumerated (Ledger.state L) ↔ Journal.Enumerates Submission.hash U128.max L := by
  refine ⟨?_, ?_⟩
  · rintro ⟨⟨-, hinj, hsurj⟩, -⟩
    refine ⟨nodup_listing_iff.mpr hinj, ?_⟩
    intro h hmem
    obtain ⟨i, hi, hget⟩ := hsurj (Ledger.containsKey_table.mpr hmem)
    exact mem_listing_iff.mpr ⟨i, hi, hget⟩
  · rintro ⟨hnodup, hcomplete⟩
    -- the keys are the listed hashes
    have hnd : (Ledger.listing L).Nodup := hnodup
    have hkeys : {h | (Ledger.table L).containsKey h = true} = {h | h ∈ Ledger.listing L} := by
      ext h
      show (Ledger.table L).containsKey h = true ↔ h ∈ Ledger.listing L
      rw [Ledger.containsKey_table]
      exact ⟨hcomplete h, fun hmem => List.map_subset _ (List.take_subset _ L) hmem⟩
    refine ⟨⟨?_, nodup_listing_iff.mp hnd, ?_⟩, ?_⟩
    · intro i hi
      show (Ledger.array L).get i ∈ {h | (Ledger.table L).containsKey h = true}
      rw [hkeys]
      exact mem_listing_iff.mpr ⟨i, hi, rfl⟩
    · intro h hmem
      have hmem' : h ∈ {h | (Ledger.table L).containsKey h = true} := hmem
      rw [hkeys] at hmem'
      exact mem_listing_iff.mp hmem'
    · show {h | (Ledger.table L).containsKey h = true}.ncard = (Ledger.count L).val
      have hset : {h | h ∈ Ledger.listing L} = ((Ledger.listing L).toFinset : Set H256) := by
        ext h
        simp
      rw [hkeys, hset, Set.ncard_coe_finset, List.toFinset_card_of_nodup hnd,
        Ledger.length_listing]

/-- The submission has a fresh hash exactly when the counter has room. -/
def FreshWhileRoom (host : Host) (st : State A) (c : Call A) : Prop :=
  c.ChecksPass host →
    (st.certificates.containsKey (host.blake2_256 c.data) = false ↔
      st.certificateCount.val < U128.max)

/-- **When the array enumerates the table.**  Along a run from empty storage
the array below the counter is a bijection onto the keys of the table, at every
point, exactly when each submission meets `FreshWhileRoom`. -/
theorem enumerated_iff (host : Host) (cs : List (Call A)) :
    (∀ xs, xs <+: cs → Enumerated (run host .empty xs)) ↔
      Machine.Along (step host) (FreshWhileRoom host) .empty cs := by
  have hstep : ∀ (st : State A) (c : Call A), Reachable host st → Enumerated st →
      (Enumerated (step host st c).2 ↔ FreshWhileRoom host st c) := by
    intro st c hst hL
    obtain ⟨L, rfl⟩ := reachable_iff.mp hst
    rw [enumerated_state_iff] at hL
    obtain ⟨sub, rfl, hsub⟩ | ⟨hfail, e, herr⟩ := step_cases host (Ledger.state L) c
    · rw [hsub, Ledger.record_state, enumerated_state_iff,
        Journal.enumerates_append_singleton hL, ← Ledger.containsKey_table,
        ← Ledger.count_lt_max_iff, Bool.not_eq_true]
      exact ⟨fun h _ => h, fun h => h sub.call_checksPass⟩
    · rw [herr, enumerated_state_iff]
      exact ⟨fun _ hpass => absurd hpass hfail, fun _ => hL⟩
  have hempty : Enumerated (State.empty : State A) := by
    rw [← state_nil host, enumerated_state_iff]
    exact Journal.enumerates_nil _
  exact Machine.forall_prefix_iff_along (fun _ c hst => hst.step c) hstep reachable_empty hempty cs

/-- Submitting one certificate twice lists its hash twice. -/
theorem not_enumerated :
    let st := run sampleHost .empty [signedCall, signedCall]
    st.certificateCount = 2 ∧ st.certificateArray.get 0 = st.certificateArray.get 1 ∧
      ¬Enumerated st := by
  have hcount : (run sampleHost .empty [signedCall, signedCall]).certificateCount = 2 := by decide
  have hget : (run sampleHost .empty [signedCall, signedCall]).certificateArray.get 0 =
      (run sampleHost .empty [signedCall, signedCall]).certificateArray.get 1 := by decide
  refine ⟨hcount, hget, fun hst => ?_⟩
  have hinj := hst.bijOn.injOn
  rw [hcount] at hinj
  exact absurd (hinj (by decide : (0 : U128).val < 2) (by decide : (1 : U128).val < 2) hget)
    (by decide)

/-! ### Failed calls -/

/-- If the call fails, the storage and the events stay as they were. -/
def Traceless (host : Host) (st : State A) (c : Call A) : Prop :=
  ∀ e, (step host st c).1 = .error e → (step host st c).2 = st

/-- While the journal fits the counter, nothing has been written at its value. -/
theorem Ledger.array_entry_count {L : List (Submission host A)} (h : L.length ≤ U128.max) :
    (array L).entry (count L) = none := by
  have hval : (count L).val = L.length := Nat.min_eq_left h
  simp [array, hval, h]

/-- A call leaves no trace of a failure exactly when its submission still fits. -/
theorem traceless_step_iff {L : List (Submission host A)} (hL : L.length ≤ U128.max)
    (c : Call A) :
    Traceless host (Ledger.state L) c ↔ (L ++ submissions host [c]).length ≤ U128.max := by
  rw [Traceless, step_represents]
  obtain ⟨sub, rfl, -⟩ | ⟨-, e, herr⟩ := screen_cases host c
  · rw [Ledger.step_submission, submissions_cons_call, List.length_append]
    by_cases h : L.length < U128.max
    · -- there is room: the call succeeds
      rw [Ledger.answer, if_pos h]
      exact ⟨fun _ => h, fun _ e he => by cases he⟩
    · -- the hash goes where nothing has been written
      rw [Ledger.answer, if_neg h]
      refine ⟨?_, fun hle => absurd hle h⟩
      intro hsame
      have harray : Ledger.array (L ++ [sub]) = Ledger.array L :=
        congrArg State.certificateArray (hsame _ rfl)
      have hnone := Ledger.array_entry_count hL
      rw [← harray, Ledger.array_append, StorageMap.entry_insert_self] at hnone
      cases hnone
  · rw [Ledger.step_error L herr, submissions_cons_error herr]
    exact ⟨fun _ => by simpa [submissions] using hL, fun _ _ _ => rfl⟩

theorem along_traceless_iff {L : List (Submission host A)} (hL : L.length ≤ U128.max)
    (cs : List (Call A)) :
    Machine.Along (step host) (Traceless host) (Ledger.state L) cs ↔
      (L ++ submissions host cs).length ≤ U128.max := by
  induction cs generalizing L with
  | nil => simpa [submissions] using hL
  | cons c cs ih =>
    have hnext : (step host (Ledger.state L) c).2 = Ledger.state (L ++ submissions host [c]) :=
      run_state L [c]
    have hsplit : L ++ submissions host (c :: cs) =
        L ++ submissions host [c] ++ submissions host cs := by
      rw [← List.singleton_append, submissions, List.filterMap_append, List.append_assoc]
      rfl
    rw [Machine.along_cons, hnext, hsplit, traceless_step_iff hL]
    refine ⟨?_, ?_⟩
    · rintro ⟨hc, hcs⟩
      exact (ih hc).mp hcs
    · intro hlen
      have hc : (L ++ submissions host [c]).length ≤ U128.max := by
        rw [List.length_append] at hlen
        exact (Nat.le_add_right _ _).trans hlen
      exact ⟨hc, (ih hc).mpr hlen⟩

/-- **When failed calls leave no trace.**  In a run from empty storage every
call that returns an error leaves the storage and the events as they were
exactly when no more calls pass the checks than the counter can count. -/
theorem traceless_iff (host : Host) (cs : List (Call A)) :
    Machine.Along (step host) (Traceless host) .empty cs ↔
      (passing host cs).length ≤ 2 ^ 128 - 1 := by
  have hiff := along_traceless_iff (L := ([] : List (Submission host A))) (Nat.zero_le _) cs
  rwa [state_nil, List.nil_append, ← List.length_map, map_call_submissions] at hiff

/-- A certificate of the one-byte document `0`, without signatures. -/
def zeroSubmission : Submission sampleHost AccountId32 :=
  ⟨bob, [0], [], by decide, by decide, by decide⟩

/-- After as many submissions as the counter can count, the next one fails, and
its certificate and its hash stay behind. -/
theorem failed_call_leaves_trace :
    let st := run sampleHost .empty (List.replicate U128.max signedCall)
    let c : Call AccountId32 := ⟨.signed bob, [0], []⟩
    (step sampleHost st c).1 = .error (.other "index overflowed") ∧
      st.certificates.entry (sampleDigest [0]) = none ∧
      (step sampleHost st c).2.certificates.entry (sampleDigest [0]) =
        some ⟨[0], sampleDigest [0], []⟩ ∧
      st.certificateArray.entry st.certificateCount = none ∧
      (step sampleHost st c).2.certificateArray.entry st.certificateCount =
        some (sampleDigest [0]) := by
  intro st c
  obtain ⟨L, hL⟩ : ∃ L, L = List.replicate U128.max signedSubmission := ⟨_, rfl⟩
  have hlen : L.length = U128.max := by rw [hL, List.length_replicate]
  have hst : st = Ledger.state L := by
    have hcalls : List.replicate U128.max signedCall = L.map Submission.call := by
      rw [hL, List.map_replicate]
      rfl
    show run sampleHost .empty (List.replicate U128.max signedCall) = _
    rw [hcalls, run_empty, submissions_map_call]
  have hstep : step sampleHost st c =
      (Ledger.answer L.length, Ledger.state (L ++ [zeroSubmission])) := by
    rw [hst, ← Ledger.record_state]
    exact step_call _ zeroSubmission
  rw [hstep, hst]
  refine ⟨?_, ?_, ?_, ?_, ?_⟩
  · exact if_neg (by omega)
  · -- every earlier call was about the empty document
    have hfresh : Journal.last Submission.hash L (sampleDigest [0]) = none := by
      rw [Journal.last_eq_none_iff]
      intro sub hsub
      rw [hL] at hsub
      rw [List.eq_of_mem_replicate hsub]
      decide
    show (Journal.last Submission.hash L (sampleDigest [0])).map Submission.cert = none
    rw [hfresh]
    rfl
  · show (Ledger.table (L ++ [zeroSubmission])).entry zeroSubmission.hash = _
    rw [Ledger.table_append, StorageMap.entry_insert_self]
    rfl
  · exact Ledger.array_entry_count hlen.le
  · show (Ledger.array (L ++ [zeroSubmission])).entry (Ledger.count L) = _
    rw [Ledger.array_append, StorageMap.entry_insert_self]
    rfl

/-! ### One log -/

/-- The answers to the calls that pass the checks, in their order. -/
theorem ledger_outs (L : List (Submission host A)) (cs : List (Call A)) :
    (cs.zip (Machine.outs (Ledger.step host) L cs)).filter (fun p => p.1.ChecksPass host) =
      (passing host cs).mapIdx fun j c => (c, Ledger.answer (L.length + j)) := by
  induction cs generalizing L with
  | nil => rfl
  | cons c cs ih =>
    obtain ⟨sub, rfl, -⟩ | ⟨hfail, e, herr⟩ := screen_cases host c
    · have hnext : ∀ j, L.length + 1 + j = L.length + (j + 1) := by omega
      rw [Machine.outs_cons, Ledger.step_submission, List.zip_cons_cons, List.filter_cons_of_pos
        (by simpa using sub.call_checksPass), ih]
      simp [passing, sub.call_checksPass, List.mapIdx_cons, hnext]
    · rw [Machine.outs_cons, Ledger.step_error L herr, List.zip_cons_cons, List.filter_cons_of_neg
        (by simpa using hfail), ih]
      simp [passing, hfail]

/-- The answers split at the limit. -/
theorem mapIdx_answer (V : List (Call A)) :
    (V.mapIdx fun j c => (c, Ledger.answer j)) =
      (V.take (min V.length U128.max)).map (fun c => (c, .ok ())) ++
        (V.drop (min V.length U128.max)).map
          (fun c => (c, .error (.other "index overflowed"))) := by
  rw [List.mapIdx_eq_iff]
  intro j
  rw [List.getElem?_append]
  split_ifs with h
  · have hj : j < min V.length U128.max := by simpa using h
    have hans : Ledger.answer j = .ok () := if_pos (by omega)
    simp [hj, hans]
  · have hj : min V.length U128.max ≤ j := by
      simp only [List.length_map, List.length_take] at h
      omega
    have hlen : (V.take (min V.length U128.max)).length = min V.length U128.max := by simp
    rw [List.length_map, hlen, List.getElem?_map, List.getElem?_drop, Nat.add_sub_cancel' hj]
    rcases Nat.lt_or_ge j V.length with hjV | hjV
    · have hans : Ledger.answer j = .error (.other "index overflowed") := if_neg (by omega)
      simp [hjV, hans]
    · simp [hjV]

/-- The results of the calls that pass the checks, in a run from empty storage. -/
theorem results_passing (host : Host) (cs : List (Call A)) :
    (cs.zip (results host .empty cs)).filter (fun p => p.1.ChecksPass host) =
      (passing host cs).mapIdx fun j c => (c, Ledger.answer j) := by
  rw [results, ← state_nil host, step_represents.outs, ledger_outs]
  simp

/-- Only calls that pass the checks succeed. -/
theorem checksPass_of_result (st : State A) (cs : List (Call A)) :
    ∀ p ∈ cs.zip (results host st cs), p.2 = .ok () → p.1.ChecksPass host := by
  induction cs generalizing st with
  | nil => simp
  | cons c cs ih =>
    rintro p hp hok
    rcases List.mem_cons.mp hp with rfl | hp
    · obtain ⟨sub, rfl, -⟩ := exists_submission_of_ok hok
      exact sub.call_checksPass
    · exact ih _ p hp hok

/-- The calls that returned `Ok` in a run from empty storage, in order. -/
def accepted (host : Host) (cs : List (Call A)) : List (Call A) :=
  ((cs.zip (results host .empty cs)).filter fun p => p.2 = .ok ()).map Prod.fst

/-- The accepted calls are the first ones that pass the checks. -/
theorem accepted_eq (host : Host) (cs : List (Call A)) :
    accepted host cs = (passing host cs).take U128.max := by
  -- the calls that failed a check did not return `Ok`
  have hpass : (cs.zip (results host .empty cs)).filter (fun p => p.2 = .ok ()) =
      ((cs.zip (results host .empty cs)).filter (fun p => p.1.ChecksPass host)).filter
        (fun p => p.2 = .ok ()) := by
    rw [List.filter_filter]
    refine List.filter_congr fun p hp => ?_
    by_cases hok : p.2 = .ok ()
    · simp [hok, checksPass_of_result _ cs p hp hok]
    · simp [hok]
  rw [accepted, hpass, results_passing, mapIdx_answer, List.filter_append, List.map_append]
  have hok : ∀ V : List (Call A), ((V.map fun c => (c, (.ok () : DispatchResult))).filter
      fun p => p.2 = .ok ()).map Prod.fst = V := by
    intro V
    simp [List.filter_map, Function.comp_def]
  have herr : ∀ V : List (Call A), ((V.map fun c =>
      (c, (.error (.other "index overflowed") : DispatchResult))).filter
      fun p => p.2 = .ok ()).map Prod.fst = [] := by
    intro V
    simp [List.filter_map, Function.comp_def]
  rw [hok, herr, List.append_nil, Nat.min_comm, ← List.take_take, List.take_length]

/-- Their number is the count. -/
theorem length_accepted (cs : List (Call A)) :
    (accepted host cs).length = (Ledger.count (submissions host cs)).val := by
  rw [accepted_eq, ← map_call_submissions, List.length_take, List.length_map, Nat.min_comm]
  rfl

/-- **One append-only log.**  Let `V` be the calls of a run from empty storage
that pass the checks.  The counter is their number, up to the largest `u128`;
below it the array holds their hashes in order and from there to the limit
nothing; they are the calls that return `Ok`, up to the limit, and return
"index overflowed" past it, while every other call fails; and the events are
the announcements of those that returned `Ok`. -/
theorem one_log (host : Host) (cs : List (Call A)) :
    let V := passing host cs
    let st := run host .empty cs
    let n := st.certificateCount.val
    n = min V.length (2 ^ 128 - 1) ∧
    (∀ i : U128, i.val < n → ∃ c, V[i.val]? = some c ∧
      st.certificateArray.get i = host.blake2_256 c.data) ∧
    (∀ i : U128, n ≤ i.val → i.val < 2 ^ 128 - 1 → st.certificateArray.get i = default) ∧
    (cs.zip (results host .empty cs)).filter (fun p => p.1.ChecksPass host) =
      (V.take n).map (fun c => (c, .ok ())) ++
        (V.drop n).map (fun c => (c, .error (.other "index overflowed"))) ∧
    (∀ p ∈ cs.zip (results host .empty cs), p.2 = .ok () → p.1.ChecksPass host) ∧
    st.events.length = n ∧
    (∀ i : U128, i.val < n → ∃ c who, V[i.val]? = some c ∧ c.origin = .signed who ∧
      st.events[i.val]? = some (.certAdded who (st.certificateArray.get i))) := by
  intro V st n
  obtain ⟨L, hL⟩ : ∃ L, L = submissions host cs := ⟨_, rfl⟩
  have hV : V = L.map Submission.call := by rw [hL, map_call_submissions]
  have hst : st = Ledger.state L := by rw [hL, ← run_empty]
  have hn : n = (Ledger.count L).val := congrArg (fun s => s.certificateCount.val) hst
  have hlen : n = min V.length U128.max := by
    rw [hn, hV, List.length_map]
    rfl
  refine ⟨hlen, ?_, ?_, ?_, checksPass_of_result _ cs, ?_, ?_⟩
  · intro i hi
    obtain ⟨sub, hsub, hentry, -⟩ := Ledger.exists_submission (hn ▸ hi)
    refine ⟨sub.call, by rw [hV, List.getElem?_map, hsub]; rfl, ?_⟩
    rw [hst]
    exact StorageMap.get_of_entry hentry
  · intro i hi hmax
    rw [hst]
    show ((Ledger.array L).entry i).getD default = default
    rw [Ledger.array_entry_none (hn ▸ hi) hmax]
    rfl
  · rw [hlen, ← mapIdx_answer]
    exact results_passing host cs
  · rw [hst, hn]
    simp [Ledger.state, Ledger.events, Ledger.count, Nat.min_comm]
  · intro i hi
    obtain ⟨sub, hsub, hentry, hevent⟩ := Ledger.exists_submission (hn ▸ hi)
    refine ⟨sub.call, sub.signer, by rw [hV, List.getElem?_map, hsub]; rfl, rfl, ?_⟩
    rw [hst]
    show (Ledger.events L)[i.val]? = some (.certAdded sub.signer ((Ledger.array L).get i))
    rw [hevent, StorageMap.get_of_entry hentry]
    rfl

end CertStore
