/-
CertStore/Ledger.lean

What the storage of the pallet *is*: a function of one append-only journal, the
submissions in the order in which their calls passed the checks.

    Ledger.state : List (Submission host A) → State A

The table holds the latest certificate of each hash, the array the hashes of
the first `U128.max` submissions, the counter their number up to `U128.max`,
the event list their announcements.  Submissions beyond the limit do leave
traces, since the pallet writes before it counts: their certificates reach the
table, and the hash of the latest one sits in the array at the index
`U128.max`, which the counter never passes.

`Ledger.step` is the abstract machine: a call that passes the checks appends
one submission and answers whether it fitted.  The faithful `step` refines it
(`step_represents`), so the storage after any run from empty storage is
`Ledger.state` of the run's submissions (`run_empty`), and the reachable states
are exactly the values of `Ledger.state` (`reachable_iff`).
-/
import CertStore.Calls
import CertStore.Journal

namespace CertStore

open Scale

variable {A : Type} {host : Host}

/-! ### The abstract machine -/

namespace Ledger

/-- The latest certificate of each hash. -/
def table (L : List (Submission host A)) : StorageMap H256 Certificate :=
  ⟨fun h => (Journal.last Submission.hash L h).map Submission.cert⟩

/-- The hashes by index; the last index serves all submissions from there on. -/
def array (L : List (Submission host A)) : StorageMap U128 H256 :=
  ⟨fun i =>
    if i.val < U128.max then L[i.val]?.map Submission.hash
    else (L.drop U128.max).getLast?.map Submission.hash⟩

/-- The number of submissions, up to the limit. -/
def count (L : List (Submission host A)) : U128 :=
  .ofNat (n := min L.length U128.max) (Nat.min_le_right _ _)

/-- The announcements of the submissions below the limit. -/
def events (L : List (Submission host A)) : List (Event A) :=
  (L.take U128.max).map Submission.event

/-- The storage that a journal of submissions stands for. -/
def state (L : List (Submission host A)) : State A :=
  ⟨table L, array L, count L, events L⟩

/-- The answer to the submission number `n`. -/
def answer (n : ℕ) : DispatchResult :=
  if n < U128.max then .ok () else .error (.other "index overflowed")

/-- One call: append the submission, if there is one, and say whether it fitted. -/
def step (host : Host) (L : List (Submission host A)) (c : Call A) :
    DispatchResult × List (Submission host A) :=
  match screen host c with
  | .ok sub => (answer L.length, L ++ [sub])
  | .error e => (.error e, L)

theorem val_count (L : List (Submission host A)) : (count L).val = min L.length U128.max := rfl

/-- Below the counter there is a submission, and the limit has not been reached. -/
theorem lt_count_iff {L : List (Submission host A)} {n : ℕ} :
    n < (count L).val ↔ n < L.length ∧ n < U128.max := Nat.lt_min

/-- The counter has room as long as the journal is shorter than the limit. -/
theorem count_lt_max_iff {L : List (Submission host A)} :
    (count L).val < U128.max ↔ L.length < U128.max := by
  rw [val_count]
  omega

/-- The keys of the table are the hashes of the submissions. -/
theorem containsKey_table {L : List (Submission host A)} {h : H256} :
    (table L).containsKey h = true ↔ h ∈ L.map Submission.hash := by
  rw [StorageMap.containsKey_iff, ← Journal.exists_last_iff]
  simp [table]

/-! ### Appending submissions -/

/-- With room for `M`, the counter goes up by its length. -/
theorem count_append {L M : List (Submission host A)}
    (h : (count L).val + M.length ≤ U128.max) :
    (count (L ++ M)).val = (count L).val + M.length := by
  rw [val_count, val_count, List.length_append]
  rw [val_count] at h
  omega

/-- With room for `M`, its announcements follow. -/
theorem events_append {L M : List (Submission host A)}
    (h : (count L).val + M.length ≤ U128.max) :
    events (L ++ M) = events L ++ M.map Submission.event := by
  rcases M with - | ⟨sub, M⟩
  · simp
  · -- something is appended, so the limit has not been reached
    have hlen : L.length + (M.length + 1) ≤ U128.max := by
      rw [val_count, List.length_cons] at h
      omega
    rw [events, events, List.take_of_length_le (by simpa using hlen),
      List.take_of_length_le (by omega), List.map_append]

theorem table_append (L : List (Submission host A)) (sub : Submission host A) :
    table (L ++ [sub]) = (table L).insert sub.hash sub.cert := by
  ext1
  funext h
  by_cases hh : h = sub.hash
  · subst hh
    simp [table]
  · rw [StorageMap.entry_insert_of_ne _ hh]
    simp [table, Journal.last_append_of_ne L hh]

theorem array_append (L : List (Submission host A)) (sub : Submission host A) :
    array (L ++ [sub]) = (array L).insert (count L) sub.hash := by
  ext1
  funext i
  have hcount := val_count L
  have hi := i.le_max
  by_cases hic : i = count L
  · subst hic
    rw [StorageMap.entry_insert_self]
    rcases Nat.lt_or_ge L.length U128.max with hlt | hge
    · -- the submission goes to its own index
      have hval : (count L).val = L.length := by omega
      simp [array, hval, hlt]
    · -- it goes to the last index, over whatever was there
      have hval : (count L).val = U128.max := by omega
      simp [array, hval, List.drop_append_of_le_length hge]
  · rw [StorageMap.entry_insert_of_ne _ hic]
    have hne : i.val ≠ min L.length U128.max := fun e => hic (Fin.ext e)
    by_cases hlt : i.val < U128.max
    · simp only [array, hlt, if_true]
      rw [List.getElem?_append]
      split_ifs with hiL
      · rfl
      · have hnone : L[i.val]? = none := List.getElem?_eq_none (by omega)
        rw [hnone, List.getElem?_eq_none (by simp; omega)]
    · -- the journal is still short, nothing is at the last index
      have hshort : L.length < U128.max := by omega
      simp only [array, hlt, if_false]
      rw [List.drop_of_length_le (by simp; omega), List.drop_of_length_le (by omega)]

/-- Recording a submission appends it to the journal. -/
theorem record_state (L : List (Submission host A)) (sub : Submission host A) :
    record (state L) sub = (answer L.length, state (L ++ [sub])) := by
  have hwrite : (state L).write sub =
      { state L with
        certificates := table (L ++ [sub])
        certificateArray := array (L ++ [sub]) } := by
    rw [table_append, array_append]
    rfl
  by_cases h : (state L).certificateCount.val < U128.max
  · have hlt : L.length < U128.max := count_lt_max_iff.mp h
    have hroom : (count L).val + [sub].length ≤ U128.max := h
    have hcount : U128.ofNat (n := (state L).certificateCount.val + 1) h = count (L ++ [sub]) :=
      Fin.ext (count_append hroom).symm
    have hevents : (state L).events ++ [sub.event] = events (L ++ [sub]) :=
      (events_append hroom).symm
    rw [record_of_room h, answer, if_pos hlt, hcount, hevents, hwrite]
    rfl
  · -- the counter is full: the writes stay, the counter and the events do too
    have hge : U128.max ≤ L.length := Nat.le_of_not_lt (mt count_lt_max_iff.mpr h)
    have hcount : count L = count (L ++ [sub]) := by
      apply Fin.ext
      simp only [U128.val_ofNat, count, List.length_append, List.length_singleton]
      omega
    have hevents : events L = events (L ++ [sub]) := by
      simp [events, List.take_append_of_le_length hge]
    rw [record_of_full h, answer, if_neg (by omega), hwrite]
    simp only [state, hcount, hevents]

end Ledger

/-! ### Refinement -/

theorem Ledger.step_submission (L : List (Submission host A)) (sub : Submission host A) :
    Ledger.step host L sub.call = (Ledger.answer L.length, L ++ [sub]) := by
  rw [Ledger.step, screen_call]

theorem Ledger.step_error (L : List (Submission host A)) {c : Call A} {e : DispatchError}
    (h : screen host c = .error e) : Ledger.step host L c = (.error e, L) := by
  rw [Ledger.step, h]

/-- **The storage refines the journal**, call by call. -/
theorem step_represents :
    Machine.Represents (Ledger.state : List (Submission host A) → State A) (step host)
      (Ledger.step host) := by
  intro L c
  rw [step_eq, Ledger.step]
  rcases screen host c with e | sub
  · rfl
  · exact Ledger.record_state L sub

/-- The submissions of a sequence of calls, in order. -/
def submissions (host : Host) (cs : List (Call A)) : List (Submission host A) :=
  cs.filterMap fun c => (screen host c).toOption

theorem submissions_cons_call (sub : Submission host A) (cs : List (Call A)) :
    submissions host (sub.call :: cs) = sub :: submissions host cs := by
  simp [submissions, screen_call, Except.toOption]

theorem submissions_cons_error {c : Call A} {e : DispatchError} (h : screen host c = .error e)
    (cs : List (Call A)) : submissions host (c :: cs) = submissions host cs := by
  simp [submissions, h, Except.toOption]

theorem ledger_exec (L : List (Submission host A)) (cs : List (Call A)) :
    Machine.exec (Ledger.step host) L cs = L ++ submissions host cs := by
  induction cs generalizing L with
  | nil => simp [submissions]
  | cons c cs ih =>
    rw [Machine.exec_cons, ih]
    obtain ⟨sub, rfl, -⟩ | ⟨-, e, herr⟩ := screen_cases host c
    · rw [Ledger.step_submission, submissions_cons_call, List.append_assoc, List.singleton_append]
    · rw [Ledger.step_error L herr, submissions_cons_error herr]

/-- A run appends its submissions to the journal. -/
theorem run_state (L : List (Submission host A)) (cs : List (Call A)) :
    run host (Ledger.state L) cs = Ledger.state (L ++ submissions host cs) := by
  rw [run, step_represents.exec, ledger_exec]

/-- The empty journal stands for empty storage. -/
theorem state_nil (host : Host) : Ledger.state ([] : List (Submission host A)) = .empty := by
  have htable : Ledger.table ([] : List (Submission host A)) = .empty := rfl
  have harray : Ledger.array ([] : List (Submission host A)) = .empty := by
    ext1
    funext i
    simp [Ledger.array]
  have hcount : Ledger.count ([] : List (Submission host A)) = 0 := Fin.ext (Nat.zero_min _)
  have hevents : Ledger.events ([] : List (Submission host A)) = [] := rfl
  rw [Ledger.state, htable, harray, hcount, hevents]
  rfl

/-- **The storage after a run from empty storage.** -/
theorem run_empty (cs : List (Call A)) :
    run host .empty cs = Ledger.state (submissions host cs) := by
  rw [← state_nil host, run_state, List.nil_append]

/-! ### Submissions and the calls they came from -/

/-- The submissions are those of the calls that pass the checks. -/
theorem map_call_submissions (cs : List (Call A)) :
    (submissions host cs).map Submission.call = passing host cs := by
  induction cs with
  | nil => rfl
  | cons c cs ih =>
    obtain ⟨sub, rfl, hok⟩ | ⟨hfail, e, herr⟩ := screen_cases host c
    · simpa [submissions_cons_call, passing, sub.call_checksPass] using ih
    · simpa [submissions_cons_error herr, passing, hfail] using ih

theorem submissions_map_call (L : List (Submission host A)) :
    submissions host (L.map Submission.call) = L := by
  induction L with
  | nil => rfl
  | cons sub L ih => rw [List.map_cons, submissions_cons_call, ih]

/-- **The reachable states are the states of journals.** -/
theorem reachable_iff {st : State A} :
    Reachable host st ↔ ∃ L : List (Submission host A), st = Ledger.state L := by
  refine ⟨?_, ?_⟩
  · rintro ⟨cs, rfl⟩
    exact ⟨submissions host cs, run_empty cs⟩
  · rintro ⟨L, rfl⟩
    refine ⟨L.map Submission.call, ?_⟩
    rw [run_empty, submissions_map_call]

end CertStore
