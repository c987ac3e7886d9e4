/-
CertStore/Histories.lean

Which storages have a history.

`WellFormed` collects what the pallet keeps, in terms of the storage alone: the
certificates are authentic, the array and the events are one list, as long as
the counter says, the listed hashes are keys of the table, and there is no other
key until the counter has overflowed.  It is an invariant, and there is no
stronger one: from any well formed storage a run can be read off that leads to it
(`reachable_iff_wellFormed`).

The run that is read off takes every certificate as it is stored at the end.  So
nothing in the storage tells whether signatures have been lost on the way
(`exists_lossless_run`), and a chain can be replaced by one that holds the same
certificates, lists each once, and has no more calls than it needs
(`compact_run_iff`).
-/
import CertStore.Commute
import CertStore.Table
import Mathlib.Data.FinEnum
import Mathlib.Data.Set.Finite.List

namespace CertStore

open Scale

variable {A : Type} {host : Host}

/-! ### Well formed storages -/

/-- The hash that an event announces. -/
def Event.hash : Event A → H256
  | .certAdded _ hash => hash

/-- The account that an event names. -/
def Event.who : Event A → A
  | .certAdded who _ => who

/-- `u128::max_value()` as an index. -/
def U128.last : U128 := .ofNat (n := U128.max) le_rfl

/-- What holds of the storage at all times. -/
structure WellFormed (host : Host) (st : State A) : Prop where
  authentic : ∀ h cert, st.certificates.entry h = some cert → Authentic host h cert
  /-- There is one event for each accepted call. -/
  count : st.events.length = st.certificateCount.val
  /-- The array lists the hashes of the events, and nothing from the counter on. -/
  array : ∀ i : U128, i.val < U128.max →
    st.certificateArray.entry i = st.events[i.val]?.map Event.hash
  /-- What is listed is a key. -/
  present : ∀ i h, st.certificateArray.entry i = some h → st.certificates.containsKey h = true
  /-- The last index is written by calls that overflow the counter. -/
  overflow : st.certificateArray.containsKey U128.last = true → st.certificateCount = U128.last
  /-- Only such calls leave keys that are not announced. -/
  announced : ∀ h, st.certificates.containsKey h = true →
    (∃ e ∈ st.events, e.hash = h) ∨ st.certificateArray.containsKey U128.last = true

/-- The last index holds the hash of the last submission past the limit. -/
theorem Ledger.array_entry_last (L : List (Submission host A)) :
    (Ledger.array L).entry U128.last = (L.drop U128.max).getLast?.map Submission.hash := by
  show (if U128.max < U128.max then L[U128.max]?.map Submission.hash
    else (L.drop U128.max).getLast?.map Submission.hash) = _
  rw [if_neg (lt_irrefl U128.max)]

theorem Ledger.containsKey_array_last {L : List (Submission host A)} :
    (Ledger.array L).containsKey U128.last = true ↔ L.drop U128.max ≠ [] := by
  rw [StorageMap.containsKey, Ledger.array_entry_last, Option.isSome_map, List.getLast?_isSome]

theorem wellFormed_state (L : List (Submission host A)) : WellFormed host (Ledger.state L) := by
  refine ⟨fun h cert => authentic_of_entry, ?_, ?_, ?_, ?_, ?_⟩
  · show ((L.take U128.max).map Submission.event).length = min L.length U128.max
    rw [List.length_map, List.length_take, Nat.min_comm]
  · intro i hi
    show (if i.val < U128.max then L[i.val]?.map Submission.hash else _) =
      ((L.take U128.max).map Submission.event)[i.val]?.map Event.hash
    rw [if_pos hi, List.getElem?_map, List.getElem?_take_of_lt hi, Option.map_map]
    rfl
  · -- an entry of the array is the hash of some submission
    intro i h hentry
    have hmem : ∃ sub ∈ L, sub.hash = h := by
      by_cases hi : i.val < U128.max
      · obtain ⟨sub, hsub, hhash⟩ := Option.map_eq_some_iff.mp ((if_pos hi).symm.trans hentry)
        exact ⟨sub, List.mem_of_getElem? hsub, hhash⟩
      · obtain ⟨sub, hsub, hhash⟩ := Option.map_eq_some_iff.mp ((if_neg hi).symm.trans hentry)
        exact ⟨sub, List.mem_of_mem_drop (List.mem_of_getLast? hsub), hhash⟩
    obtain ⟨sub, hsub, rfl⟩ := hmem
    exact Ledger.containsKey_table.mpr (List.mem_map_of_mem hsub)
  · intro h
    have hdrop := Ledger.containsKey_array_last.mp h
    apply Fin.ext
    show min L.length U128.max = U128.max
    rw [Ne, List.drop_eq_nil_iff] at hdrop
    omega
  · intro h hkey
    obtain ⟨sub, hsub, rfl⟩ := List.mem_map.mp (Ledger.containsKey_table.mp hkey)
    rw [← List.take_append_drop U128.max L] at hsub
    rcases List.mem_append.mp hsub with hsub | hsub
    · exact Or.inl ⟨sub.event, List.mem_map_of_mem hsub, rfl⟩
    · exact Or.inr (Ledger.containsKey_array_last.mpr (List.ne_nil_of_mem hsub))

/-! ### A history for a well formed storage -/

/-- A table is that of any journal that has its certificates and all its keys. -/
theorem table_eq_of_stored {m : StorageMap H256 Certificate} {L : List (Submission host A)}
    (hstored : ∀ sub ∈ L, m.entry sub.hash = some sub.cert)
    (hkeys : ∀ h, m.containsKey h = true → h ∈ L.map Submission.hash) : Ledger.table L = m := by
  ext1
  funext h
  show (Journal.last Submission.hash L h).map Submission.cert = _
  rcases e : Journal.last Submission.hash L h with - | sub
  · -- no submission has this hash, so it is no key
    rcases he : m.entry h with - | cert
    · rfl
    · obtain ⟨sub, hsub, hhash⟩ :=
        List.mem_map.mp (hkeys h (StorageMap.containsKey_iff.mpr ⟨cert, he⟩))
      exact absurd hhash (Journal.last_eq_none_iff.mp e sub hsub)
  · obtain ⟨hmem, rfl⟩ := Journal.mem_of_last e
    exact (hstored sub hmem).symm

/-- A journal that leads to `st`, if its submissions carry the certificates of
`st`: `L` are those below the limit and `M` the others. -/
theorem state_eq_of_journal {st : State A} (hst : WellFormed host st)
    {L M : List (Submission host A)} (hevents : L.map Submission.event = st.events)
    (hfull : M ≠ [] → L.length = U128.max)
    (hstored : ∀ sub ∈ L ++ M, st.certificates.entry sub.hash = some sub.cert)
    (hkeys : ∀ h, st.certificates.containsKey h = true → h ∈ (L ++ M).map Submission.hash)
    (hlast : st.certificateArray.entry U128.last = M.getLast?.map Submission.hash) :
    Ledger.state (L ++ M) = st := by
  have hlen : L.length = st.certificateCount.val := by
    rw [← hst.count, ← hevents, List.length_map]
  have hle : L.length ≤ U128.max := hlen ▸ U128.le_max _
  have hcases : M = [] ∨ L.length = U128.max := (em (M = [])).imp_right hfull
  have htake : (L ++ M).take U128.max = L := by
    rw [List.take_append, List.take_of_length_le hle]
    rcases hcases with rfl | hmax
    · rw [List.take_nil, List.append_nil]
    · rw [hmax, Nat.sub_self, List.take_zero, List.append_nil]
  have hdrop : (L ++ M).drop U128.max = M := by
    have hsplit := List.take_append_drop U128.max (L ++ M)
    rw [htake] at hsplit
    exact List.append_cancel_left hsplit
  apply State.ext
  · exact table_eq_of_stored hstored hkeys
  · ext1
    funext i
    by_cases hi : i.val < U128.max
    · have hget : (L ++ M)[i.val]? = L[i.val]? := by
        rw [← List.getElem?_take_of_lt hi, htake]
      show (if i.val < U128.max then (L ++ M)[i.val]?.map Submission.hash else _) = _
      rw [if_pos hi, hget, hst.array i hi, ← hevents, List.getElem?_map, Option.map_map]
      rfl
    · obtain rfl : i = U128.last := Fin.ext (le_antisymm i.le_max (Nat.le_of_not_lt hi))
      show (Ledger.array (L ++ M)).entry U128.last = _
      rw [Ledger.array_entry_last, hdrop, hlast]
  · apply Fin.ext
    show min (L ++ M).length U128.max = _
    rw [← hlen, List.length_append]
    rcases hcases with rfl | hmax
    · exact Nat.min_eq_left hle
    · rw [hmax]
      exact Nat.min_eq_right (Nat.le_add_right _ _)
  · show ((L ++ M).take U128.max).map Submission.event = _
    rw [htake, hevents]

/-- A stored certificate can be submitted by anybody. -/
theorem WellFormed.exists_submission {st : State A} (hst : WellFormed host st) {h : H256}
    (hkey : st.certificates.containsKey h = true) (who : A) :
    ∃ sub : Submission host A, sub.signer = who ∧ sub.hash = h ∧
      st.certificates.entry sub.hash = some sub.cert := by
  obtain ⟨cert, hentry⟩ := StorageMap.containsKey_iff.mp hkey
  have hauth := hst.authentic h cert hentry
  refine ⟨⟨who, cert.data, cert.sigs, hauth.data_lt, hauth.sigs_lt, hauth.verified⟩, rfl,
    hauth.blake2_eq, ?_⟩
  have hcert : (⟨cert.data, host.blake2_256 cert.data, cert.sigs⟩ : Certificate) = cert := by
    rw [hauth.blake2_eq, ← hauth.hash_eq]
  show st.certificates.entry (host.blake2_256 cert.data) =
    some ⟨cert.data, host.blake2_256 cert.data, cert.sigs⟩
  rw [hcert, hauth.blake2_eq, hentry]

/-- The announced certificates, submitted in the order of their events. -/
theorem WellFormed.exists_journal {st : State A} (hst : WellFormed host st) :
    ∃ L : List (Submission host A), L.map Submission.event = st.events ∧
      ∀ sub ∈ L, st.certificates.entry sub.hash = some sub.cert := by
  apply Journal.exists_map_eq
  rintro ⟨who, h⟩ hmem
  obtain ⟨n, hn⟩ := List.getElem?_of_mem hmem
  have hlt : n < st.certificateCount.val := by
    rw [← hst.count]
    exact (List.getElem?_eq_some_iff.mp hn).1
  -- the event is listed, so its hash is a key
  have hmax : n < U128.max := hlt.trans_le (U128.le_max _)
  have hlisted : st.certificateArray.entry (U128.ofNat hmax.le) = some h := by
    rw [hst.array _ hmax]
    show st.events[n]?.map Event.hash = some h
    rw [hn]
    rfl
  obtain ⟨sub, rfl, rfl, hstored⟩ := hst.exists_submission (hst.present _ _ hlisted) who
  exact ⟨sub, rfl, hstored⟩

/-- The keys of a table, as a list. -/
theorem exists_keys (m : StorageMap H256 Certificate) :
    ∃ ks : List H256, ks.Nodup ∧ ∀ h, h ∈ ks ↔ m.containsKey h = true := by
  have hfinite : {h | m.containsKey h = true}.Finite := by
    have hbytes : {bs : List UInt8 | bs.length = 32}.Finite := List.finite_length_eq UInt8 32
    have himage := hbytes.preimage (f := fun h : H256 => h.bytes) fun x _ y _ => FixedBytes.ext
    exact himage.subset fun h _ => h.length_eq
  exact ⟨hfinite.toFinset.toList, Finset.nodup_toList _, fun h => by simp⟩

/-- A journal that leads to a well formed storage, with its certificates only. -/
theorem WellFormed.exists_state_eq {st : State A} (hst : WellFormed host st) :
    ∃ L : List (Submission host A), Ledger.state L = st ∧
      ∀ sub ∈ L, st.certificates.entry sub.hash = some sub.cert := by
  obtain ⟨L, hevents, hL⟩ := hst.exists_journal
  rcases hlast : st.certificateArray.entry U128.last with - | h
  · -- the counter has not overflowed
    have hnone : st.certificateArray.containsKey U128.last = false := by
      rw [StorageMap.containsKey, hlast]
      rfl
    refine ⟨L ++ [], state_eq_of_journal hst hevents (fun h => absurd rfl h) ?_ ?_ hlast, ?_⟩
    · rwa [List.append_nil]
    · intro h hkey
      rw [List.append_nil]
      obtain ⟨e, he, rfl⟩ | hfalse := hst.announced h hkey
      · rw [← hevents] at he
        obtain ⟨sub, hsub, rfl⟩ := List.mem_map.mp he
        exact List.mem_map_of_mem hsub
      · rw [hnone] at hfalse
        cases hfalse
    · rwa [List.append_nil]
  · -- past the limit: all keys once more, and then the hash at the last index
    have hkey := hst.present _ _ hlast
    have hfull : st.certificateCount = U128.last := by
      apply hst.overflow
      rw [StorageMap.containsKey, hlast]
      rfl
    obtain ⟨e, he⟩ : ∃ e, e ∈ st.events := by
      apply List.exists_mem_of_ne_nil
      rw [← List.length_pos_iff, hst.count, hfull]
      show 0 < U128.max
      decide
    obtain ⟨ks, -, hks⟩ := exists_keys st.certificates
    obtain ⟨M, hM, hstored⟩ : ∃ M : List (Submission host A), M.map Submission.hash = ks ∧
        ∀ sub ∈ M, st.certificates.entry sub.hash = some sub.cert := by
      apply Journal.exists_map_eq
      intro k hk
      obtain ⟨sub, -, hhash, hsub⟩ := hst.exists_submission ((hks k).mp hk) e.who
      exact ⟨sub, hhash, hsub⟩
    obtain ⟨sub, -, rfl, hsub⟩ := hst.exists_submission hkey e.who
    have hall : ∀ s ∈ L ++ (M ++ [sub]), st.certificates.entry s.hash = some s.cert := by
      intro s hs
      rcases List.mem_append.mp hs with hs | hs
      · exact hL s hs
      · rcases List.mem_append.mp hs with hs | hs
        · exact hstored s hs
        · rw [List.mem_singleton.mp hs]
          exact hsub
    refine ⟨L ++ (M ++ [sub]), state_eq_of_journal hst hevents ?_ hall ?_ ?_, hall⟩
    · intro _
      rw [← List.length_map Submission.event, hevents, hst.count, hfull]
      rfl
    · intro h hkey
      rw [List.map_append, List.map_append, hM]
      exact List.mem_append_right _ (List.mem_append_left _ ((hks h).mpr hkey))
    · rw [hlast, List.getLast?_concat]
      rfl

/-- **The well formed storages are the reachable ones.**  So whatever else holds
after every run follows from `WellFormed`. -/
theorem reachable_iff_wellFormed (host : Host) (st : State A) :
    Reachable host st ↔ WellFormed host st := by
  rw [reachable_iff]
  refine ⟨?_, ?_⟩
  · rintro ⟨L, rfl⟩
    exact wellFormed_state L
  · intro hst
    obtain ⟨L, hL, -⟩ := hst.exists_state_eq
    exact ⟨L, hL.symm⟩

/-! ### Runs without losses -/

/-- Submissions of the certificates of one table bring along what is stored. -/
theorem along_resigns {m : StorageMap H256 Certificate} {L : List (Submission host A)}
    (hL : ∀ sub ∈ L, m.entry sub.hash = some sub.cert) :
    Machine.Along (step host) (Resigns host) .empty (L.map Submission.call) := by
  rw [Machine.along_iff]
  intro xs c ys hsplit hpass sig hsig
  obtain ⟨L₁, L₂, rfl, rfl, hrest⟩ := List.map_eq_append_iff.mp hsplit
  obtain ⟨sub, L₃, rfl, rfl, rfl⟩ := List.map_eq_cons_iff.mp hrest
  have hstate : Machine.exec (step host) .empty (L₁.map Submission.call) = Ledger.state L₁ := by
    rw [← run, run_empty, submissions_map_call]
  rw [hstate] at hsig
  rcases e : (Ledger.state L₁).certificates.entry sub.hash with - | cert
  · have hdefault : (Ledger.state L₁).cert (host.blake2_256 sub.call.data) = default := by
      show ((Ledger.state L₁).certificates.entry sub.hash).getD default = default
      rw [e]
      rfl
    rw [hdefault] at hsig
    cases hsig
  · -- what is stored came from a submission with the same certificate
    have hget : (Ledger.state L₁).cert (host.blake2_256 sub.call.data) = cert :=
      StorageMap.get_of_entry e
    obtain ⟨sub', hsub', hhash, rfl⟩ := exists_submission_of_entry e
    have hsame : some sub'.cert = some sub.cert := by
      rw [← hL sub' (List.mem_append_left _ hsub'), hhash]
      exact hL sub (List.mem_append_right _ List.mem_cons_self)
    rw [hget, Option.some.inj hsame] at hsig
    exact hsig

/-- **The storage does not tell what was lost.**  For every run there is one that
leads to the same storage and on which, from every point on, every recorded
signature is kept. -/
theorem exists_lossless_run (host : Host) (cs : List (Call A)) :
    ∃ cs', run host .empty cs' = run host .empty cs ∧
      ∀ xs ys, xs ++ ys <+: cs' → SigsKept (run host .empty xs) (run host .empty (xs ++ ys)) := by
  have hst : WellFormed host (run host .empty cs) := by
    rw [run_empty]
    exact wellFormed_state _
  obtain ⟨L, hL, hstored⟩ := hst.exists_state_eq
  refine ⟨L.map Submission.call, ?_, ?_⟩
  · rw [run_empty, submissions_map_call, hL]
  · -- every step of the run brings along what is stored
    have halong := along_resigns hstored
    rw [← Machine.along_congr (I := fun _ => True) (fun _ _ h => h)
      (fun st c _ => sigsKept_step_iff st c) trivial] at halong
    exact (Machine.forall_later_iff_along sigsKept_refl sigsKept_trans).mpr halong

/-! ### Compact runs -/

/-- For each key of the table its latest submission. -/
theorem exists_compact (host : Host) (cs : List (Call A)) :
    ∃ L : List (Submission host A), (L.map Submission.hash).Nodup ∧
      L.length = {h | (run host .empty cs).certificates.containsKey h = true}.ncard ∧
      Ledger.table L = (run host .empty cs).certificates := by
  obtain ⟨ks, hnodup, hks⟩ := exists_keys (run host .empty cs).certificates
  have hset : {h | (run host .empty cs).certificates.containsKey h = true} =
      (ks.toFinset : Set H256) := by
    ext h
    simp [hks]
  rw [hset, Set.ncard_coe_finset, List.toFinset_card_of_nodup hnodup]
  rw [run_empty] at hks ⊢
  obtain ⟨L, rfl, hlast⟩ : ∃ L : List (Submission host A), L.map Submission.hash = ks ∧
      ∀ sub ∈ L, (Ledger.table (submissions host cs)).entry sub.hash = some sub.cert := by
    apply Journal.exists_map_eq
    intro k hk
    have hkey := Ledger.containsKey_table.mp ((hks k).mp hk)
    obtain ⟨sub, hsub⟩ := Journal.exists_last_iff.mpr hkey
    obtain ⟨-, rfl⟩ := Journal.mem_of_last hsub
    exact ⟨sub, rfl, congrArg (Option.map Submission.cert) hsub⟩
  refine ⟨L, hnodup, (List.length_map _).symm, ?_⟩
  exact table_eq_of_stored hlast fun h hkey => (hks h).mpr hkey

/-- Every certificate takes a call of its own. -/
theorem ncard_le_length (host : Host) (cs : List (Call A)) :
    {h | (run host .empty cs).certificates.containsKey h = true}.ncard ≤ cs.length := by
  have hset : {h | (run host .empty cs).certificates.containsKey h = true} =
      (((submissions host cs).map Submission.hash).toFinset : Set H256) := by
    ext h
    rw [run_empty]
    show (Ledger.table (submissions host cs)).containsKey h = true ↔ _
    rw [Ledger.containsKey_table, List.coe_toFinset]
    rfl
  rw [hset, Set.ncard_coe_finset]
  have hle := List.toFinset_card_le ((submissions host cs).map Submission.hash)
  rw [List.length_map] at hle
  exact hle.trans (List.length_filterMap_le _ _)

/-- A run that lists every certificate once, with success all along, has one call
for each. -/
theorem Enumerated.length_eq {cs : List (Call A)} (henum : Enumerated (run host .empty cs))
    (hok : ∀ r ∈ results host .empty cs, r = .ok ()) :
    cs.length = {h | (run host .empty cs).certificates.containsKey h = true}.ncard := by
  have haccepted : accepted host cs = cs := by
    have hlen : cs.length ≤ (results host .empty cs).length := (Machine.length_outs _ cs).ge
    have hall : ∀ p ∈ cs.zip (results host .empty cs), p.2 = .ok () := by
      rintro ⟨c, r⟩ hp
      exact hok r (List.of_mem_zip hp).2
    rw [accepted, List.filter_eq_self.mpr (by simpa using hall), List.map_fst_zip hlen]
  have hcount : (accepted host cs).length = (Ledger.count (submissions host cs)).val :=
    length_accepted cs
  rw [haccepted] at hcount
  rw [henum.ncard_eq, hcount, run_empty]
  rfl

/-- **The shortest chain with the same certificates.**  The certificates of a run
are those of a run that lists each of them once and whose calls all succeed, if and
only if there are no more of them than the counter can count.  And no run with these
certificates has fewer calls than such a run. -/
theorem compact_run_iff (host : Host) (cs : List (Call A)) :
    ({h | (run host .empty cs).certificates.containsKey h = true}.ncard ≤ U128.max ↔
      ∃ cs' : List (Call A),
        (run host .empty cs').certificates = (run host .empty cs).certificates ∧
        Enumerated (run host .empty cs') ∧ ∀ r ∈ results host .empty cs', r = .ok ()) ∧
    ∀ cs' : List (Call A),
      (run host .empty cs').certificates = (run host .empty cs).certificates →
      Enumerated (run host .empty cs') → (∀ r ∈ results host .empty cs', r = .ok ()) →
      ∀ cs'' : List (Call A),
        (run host .empty cs'').certificates = (run host .empty cs).certificates →
          cs'.length ≤ cs''.length := by
  refine ⟨⟨?_, ?_⟩, ?_⟩
  · intro hroom
    obtain ⟨L, hnodup, hlen, htable⟩ := exists_compact host cs
    rw [← hlen] at hroom
    refine ⟨L.map Submission.call, ?_, ?_, ?_⟩
    · rw [run_empty, submissions_map_call]
      exact htable
    · rw [run_empty, submissions_map_call, enumerated_state_iff]
      have htake : L.take U128.max = L := List.take_of_length_le hroom
      refine ⟨?_, fun k hk => ?_⟩
      · rwa [htake]
      · rwa [htake]
    · -- there is room for all of them
      have hcount : (Ledger.count ([] : List (Submission host A))).val +
          (submissions host (L.map Submission.call)).length ≤ U128.max := by
        rw [submissions_map_call]
        exact (Nat.zero_add _).trans_le hroom
      intro r hr
      rw [← state_nil host, results_of_room hcount] at hr
      obtain ⟨c, hc, rfl⟩ := List.mem_map.mp hr
      obtain ⟨sub, -, rfl⟩ := List.mem_map.mp hc
      rw [verdict, screen_call]
      rfl
  · rintro ⟨cs', htable, henum, -⟩
    rw [← htable, henum.ncard_eq]
    exact U128.le_max _
  · intro cs' htable henum hok cs'' htable''
    rw [henum.length_eq hok, htable, ← htable'']
    exact ncard_le_length host cs''

end CertStore
