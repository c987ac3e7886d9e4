/-
CertStore/Report.lean

What `AddCert.tsx` tells its user about an upload.

The callback that `signsend` passes to `signAndSend` is called with every
update of the transaction's status.  It works on the toaster `pt`, whose
history is kept as a list: what was shown before an exception stays shown.
`report` says what one update adds to the history (`deliver_log`), and
`exec_deliver` what a sequence of updates does.

A dispatch that fails is finalized like any other, with the event
`system.ExtrinsicFailed`; the callback shows the documentation of every event
with the intent `SUCCESS` and never looks at which event it is.  So the user is
told the truth exactly when the call was accepted (`honest_iff_accepted`).
-/
import CertStore.Upload
import CertStore.Admission

namespace CertStore

open Scale

variable {host : Host}

/-! ### The toaster -/

/-- The values of Blueprint's `Intent` that the page uses. -/
inductive Intent
  | success
  | danger
deriving DecidableEq

/-- The properties of a toast; what is missing is left to the toaster. -/
structure ToastProps where
  message : String
  intent : Option Intent := none
  timeout : Option ℕ := none
deriving DecidableEq

/-- What happens to the toaster. -/
inductive ToastAction
  | shown (props : ToastProps) (key : Option String)
  | dismissed (key : String)
deriving DecidableEq

/-- The intent with which a message is shown, if there is one. -/
def ToastAction.intent : ToastAction → Option Intent
  | .shown props _ => props.intent
  | .dismissed _ => none

/-- A message with this intent was shown. -/
def Shows (i : Intent) (log : List ToastAction) : Prop := ∃ a ∈ log, a.intent = some i

instance (i : Intent) (log : List ToastAction) : Decidable (Shows i log) :=
  inferInstanceAs (Decidable (∃ a ∈ log, _))

/-- A method called on `undefined`. -/
structure TypeError

/-- Computations of the page: an exception does not take back what was shown. -/
abbrev Page := ExceptT TypeError (StateM (List ToastAction))

/-- `pt.show`. -/
def ptShow (props : ToastProps) (key : Option String) : Page Unit :=
  modify fun log => log ++ [.shown props key]

/-- `pt.dismiss`. -/
def ptDismiss (key : String) : Page Unit :=
  modify fun log => log ++ [.dismissed key]

/-! ### The callback -/

/-- The events that the runtime attaches to an extrinsic. -/
inductive RuntimeEvent
  /-- `system.ExtrinsicSuccess`. -/
  | extrinsicSuccess
  /-- `system.ExtrinsicFailed`. -/
  | extrinsicFailed
  /-- The events of the pallet. -/
  | certStore (event : Event AccountId32)
  /-- The events of the other modules. -/
  | other (name : String)
deriving DecidableEq

/-- An event and the documentation that the metadata has for it. -/
structure EventRecord where
  event : RuntimeEvent
  documentation : List String

/-- An update of the status of a transaction. -/
structure SubmittableResult where
  isError : Bool
  isFinalized : Bool
  events : List EventRecord

/-- An update before the transaction is finalized. -/
def SubmittableResult.pending (events : List EventRecord) : SubmittableResult :=
  ⟨false, false, events⟩

/-- The update with which the transaction is finalized. -/
def SubmittableResult.finalized (events : List EventRecord) : SubmittableResult :=
  ⟨false, true, events⟩

/-- `m.event.meta.documentation[0].toString()`. -/
def EventRecord.msg (m : EventRecord) : Page String :=
  match m.documentation with
  | [] => throw ⟨⟩
  | doc :: _ => return doc

/-- The body of `e.events.forEach`. -/
def showEvent (m : EventRecord) : Page Unit := do
  let msg ← m.msg
  ptShow { message := msg, intent := some .success, timeout := some 0 } none

/-- The callback that is passed to `signAndSend`, without its `console.log`. -/
def callback (e : SubmittableResult) : Page Unit :=
  if e.isError then do
    ptShow { message := "送信に失敗しました(Error)", intent := some .danger } none
    ptShow { message := "送信を確認できませんでした。送信自体は成功しているかもしれません。",
             intent := some .danger } none
    ptDismiss "wait"
  else if e.isFinalized then do
    ptDismiss "wait"
    if e.events.length ≠ 0 then
      e.events.forM showEvent
    else
      ptShow { message := "ブロックチェーンにしっかり書き込まれました(Finalized)",
               intent := some .success } none
  else
    pure ()

/-- One call of the callback: its outcome and the history of the toaster. -/
def deliver (log : List ToastAction) (e : SubmittableResult) :
    Except TypeError Unit × List ToastAction :=
  (callback e).run.run log

/-- What `signsend` shows while it builds the transaction. -/
def announcements : List ToastAction :=
  [.shown { message := "アリスが署名しています" } none,
    .shown { message := "ボブが署名しています" } none,
    .shown { message := "ブロックチェーンの結果を待っています" } (some "wait")]

/-- The history of the toaster for a transaction that is finalized with
`events`, after updates with the event lists `pending`. -/
def session (pending : List (List EventRecord)) (events : List EventRecord) :
    List ToastAction :=
  Machine.exec deliver announcements (pending.map .pending ++ [.finalized events])

/-! ### What an update adds -/

/-- The messages of a list of events, up to the first event without a
documentation. -/
def eventToasts : List EventRecord → List ToastAction
  | [] => []
  | ⟨_, []⟩ :: _ => []
  | ⟨_, doc :: _⟩ :: ms =>
    .shown { message := doc, intent := some .success, timeout := some 0 } none :: eventToasts ms

/-- What the callback adds to the history. -/
def report (e : SubmittableResult) : List ToastAction :=
  if e.isError then
    [.shown { message := "送信に失敗しました(Error)", intent := some .danger } none,
      .shown { message := "送信を確認できませんでした。送信自体は成功しているかもしれません。",
               intent := some .danger } none,
      .dismissed "wait"]
  else if e.isFinalized then
    .dismissed "wait" ::
      if e.events.length ≠ 0 then eventToasts e.events
      else [.shown { message := "ブロックチェーンにしっかり書き込まれました(Finalized)",
                     intent := some .success } none]
  else []

theorem forM_showEvent_log (events : List EventRecord) (log : List ToastAction) :
    ((events.forM showEvent).run.run log).2 = log ++ eventToasts events := by
  induction events generalizing log with
  | nil => exact (List.append_nil log).symm
  | cons m ms ih =>
    obtain ⟨event, documentation⟩ := m
    cases documentation with
    | nil => exact (List.append_nil log).symm
    | cons doc docs =>
      show ((ms.forM showEvent).run.run (log ++ [_])).2 = _
      rw [ih, List.append_assoc]
      rfl

/-- **One update.**  The callback adds its report to the history. -/
theorem deliver_log (log : List ToastAction) (e : SubmittableResult) :
    (deliver log e).2 = log ++ report e := by
  unfold deliver callback report
  split_ifs with herr hfin hlen
  · show log ++ [_] ++ [_] ++ [_] = _
    rw [List.append_assoc, List.append_assoc]
    rfl
  · show ((e.events.forM showEvent).run.run (log ++ [_])).2 = _
    rw [forM_showEvent_log, List.append_assoc]
    rfl
  · show log ++ [_] ++ [_] = _
    rw [List.append_assoc]
    rfl
  · exact (List.append_nil log).symm

/-- **A sequence of updates.**  Their reports are added in order. -/
theorem exec_deliver (log : List ToastAction) (updates : List SubmittableResult) :
    Machine.exec deliver log updates = log ++ updates.flatMap report := by
  induction updates generalizing log with
  | nil => exact (List.append_nil log).symm
  | cons e updates ih =>
    rw [Machine.exec_cons, deliver_log, ih, List.append_assoc]
    rfl

/-- The updates before the last one add nothing. -/
theorem session_eq (pending : List (List EventRecord)) (events : List EventRecord) :
    session pending events = announcements ++ report (.finalized events) := by
  have hpending : (pending.map SubmittableResult.pending).flatMap report = [] := by
    rw [List.flatMap_eq_nil_iff]
    intro e he
    obtain ⟨evs, -, rfl⟩ := List.mem_map.mp he
    rfl
  rw [session, exec_deliver, List.flatMap_append, hpending]
  simp

theorem intent_of_mem_eventToasts {events : List EventRecord} {a : ToastAction}
    (ha : a ∈ eventToasts events) : a.intent = some .success := by
  induction events with
  | nil => cases ha
  | cons m ms ih =>
    obtain ⟨event, documentation⟩ := m
    cases documentation with
    | nil => cases ha
    | cons doc docs =>
      rcases List.mem_cons.mp ha with rfl | ha
      · rfl
      · exact ih ha

/-- A finalized update shows every message as a success. -/
theorem intent_of_mem_report {events : List EventRecord} {a : ToastAction}
    (ha : a ∈ report (.finalized events)) : a.intent = none ∨ a.intent = some .success := by
  unfold report SubmittableResult.finalized at ha
  rcases List.mem_cons.mp ha with rfl | hrest
  · exact Or.inl rfl
  · refine Or.inr ?_
    split_ifs at hrest with hlen
    · exact intent_of_mem_eventToasts hrest
    · obtain rfl := List.mem_singleton.mp hrest
      rfl

/-- The user is never warned about a transaction that is finalized. -/
theorem not_shows_danger (pending : List (List EventRecord)) (events : List EventRecord) :
    ¬Shows .danger (session pending events) := by
  rintro ⟨a, ha, hintent⟩
  have hannounced : ∀ a ∈ announcements, a.intent = none := by decide
  rw [session_eq] at ha
  have hother : a.intent = none ∨ a.intent = some .success := by
    rcases List.mem_append.mp ha with ha | ha
    · exact Or.inl (hannounced a ha)
    · exact intent_of_mem_report ha
  rw [hintent] at hother
  rcases hother with h | h
  · cases h
  · cases h

/-! ### Telling the truth -/

/-- What Substrate attaches to a dispatched call: the outcome of the dispatch,
and the events that it deposited. -/
structure Attached (host : Host) (st : State AccountId32) (c : Call AccountId32)
    (events : List EventRecord) : Prop where
  success : (step host st c).1 = .ok () → .extrinsicSuccess ∈ events.map EventRecord.event
  failed : (step host st c).1 ≠ .ok () → .extrinsicFailed ∈ events.map EventRecord.event
  deposited : ∀ event ∈ (step host st c).2.events.drop st.events.length,
    .certStore event ∈ events.map EventRecord.event

/-- The messages fit what happened to the call. -/
structure Honest (host : Host) (st : State AccountId32) (c : Call AccountId32)
    (events : List EventRecord) (log : List ToastAction) : Prop where
  /-- Success is only shown for a call that was accepted, with its event, and
  whose certificate is stored. -/
  success : Shows .success log →
    (step host st c).1 = .ok () ∧
      (∃ who, c.origin = .signed who ∧
        .certStore (.certAdded who (host.blake2_256 c.data)) ∈ events.map EventRecord.event) ∧
      (step host st c).2.certificates.entry (host.blake2_256 c.data) =
        some ⟨c.data, host.blake2_256 c.data, c.sigs⟩
  /-- A refusal is shown as a danger, and not as a success. -/
  failure : (step host st c).1 ≠ .ok () → Shows .danger log ∧ ¬Shows .success log

/-- A call that fails and leaves no trace has the one event `ExtrinsicFailed`. -/
theorem attached_of_error {st : State AccountId32} {c : Call AccountId32} {e : DispatchError}
    (h : step host st c = (.error e, st)) (documentation : List String) :
    Attached host st c [⟨.extrinsicFailed, documentation⟩] := by
  refine ⟨?_, fun _ => List.mem_singleton_self _, ?_⟩
  · intro hok
    rw [h] at hok
    cases hok
  · rw [h, List.drop_length]
    intro event hevent
    cases hevent

/-- **The report is honest exactly for the accepted calls.** -/
theorem honest_iff_accepted {st : State AccountId32} {c : Call AccountId32}
    {events : List EventRecord} (hevents : Attached host st c events)
    (pending : List (List EventRecord)) :
    Honest host st c events (session pending events) ↔ (step host st c).1 = .ok () := by
  refine ⟨?_, ?_⟩
  · intro hhonest
    by_contra hfail
    exact not_shows_danger pending events (hhonest.failure hfail).1
  · intro hok
    obtain ⟨sub, rfl, hroom⟩ := exists_submission_of_ok hok
    have hstep := step_call st sub
    rw [record_of_room hroom] at hstep
    refine ⟨fun _ => ⟨hok, ⟨sub.signer, rfl, ?_⟩, ?_⟩, fun hfail => absurd hok hfail⟩
    · apply hevents.deposited sub.event
      rw [hstep, List.drop_left]
      exact List.mem_singleton_self _
    · rw [hstep]
      exact StorageMap.entry_insert_self _ _ _

/-- **When the uploader is honest.**  For the call that `signsend` builds, in any
state and with any attached events, the report is honest exactly when the file
is of legal size, both signatures verify and the counter has room. -/
theorem honest_iff (host : Host) (alice bob : KeyringPair) (st : State AccountId32)
    (arr : List UInt8) (c : Call AccountId32) (pending : List (List EventRecord))
    (events : List EventRecord)
    (hcall : (signsend alice bob arr).bind (fun t => t.call (.signed alice.address)) = some c)
    (hevents : Attached host st c events) :
    Honest host st c events (session pending events) ↔
      arr.length < 1024 ∧ host.sr25519Verify (alice.sign arr) arr alice.address = true ∧
        host.sr25519Verify (bob.sign arr) arr bob.address = true ∧
        st.certificateCount.val < 2 ^ 128 - 1 := by
  rw [honest_iff_accepted hevents, accepted_iff]
  by_cases hlen : arr.length < 2 ^ 32
  · rw [signsend_call hlen] at hcall
    obtain rfl := Option.some.inj hcall
    simp [U128.max, and_assoc]
  · -- there is no text to send, so there is no call
    rw [signsend, toHex_eq_none (Nat.le_of_not_lt hlen)] at hcall
    cases hcall

/-- The upload of the one-byte file `0`. -/
theorem honest_iff_zero :
    ∃ c events, (signsend ⟨alice, sampleSign alice⟩ ⟨bob, sampleSign bob⟩ [0]).bind
        (fun t => t.call (.signed alice)) = some c ∧
      Honest sampleHost .empty c events (session [[]] events) := by
  have hcall : (signsend ⟨alice, sampleSign alice⟩ ⟨bob, sampleSign bob⟩ [0]).bind
      (fun t => t.call (.signed alice)) = some (⟨.signed alice, [0],
        [⟨sampleSign alice [0], alice⟩, ⟨sampleSign bob [0], bob⟩]⟩ : Call AccountId32) := by
    decide
  refine ⟨_, [⟨.certStore (.certAdded alice (sampleDigest [0])), ["証明書が追加されました!"]⟩,
    ⟨.extrinsicSuccess, ["An extrinsic completed successfully."]⟩], hcall, ?_⟩
  exact (honest_iff sampleHost ⟨alice, sampleSign alice⟩ ⟨bob, sampleSign bob⟩ .empty [0] _ _ _
    hcall ⟨by decide, by decide, by decide⟩).mpr ⟨by decide, by decide, by decide, by decide⟩

/-- A file of 1024 bytes is refused, and the event that says so is shown as a
success. -/
theorem refused_upload_shown_as_success :
    ∃ c events, (signsend ⟨alice, sampleSign alice⟩ ⟨bob, sampleSign bob⟩
        (List.replicate 1024 0)).bind (fun t => t.call (.signed alice)) = some c ∧
      (step sampleHost .empty c).1 = .error (.other "Certification is too large") ∧
      Attached sampleHost .empty c events ∧
      session [] events = announcements ++ [.dismissed "wait",
        .shown { message := "An extrinsic failed.", intent := some .success,
                 timeout := some 0 } none] ∧
      ¬Honest sampleHost .empty c events (session [] events) := by
  have hlen : (List.replicate 1024 (0 : UInt8)).length = 1024 := List.length_replicate
  have hrefused : ∀ sigs, step sampleHost .empty ⟨.signed alice, List.replicate 1024 0, sigs⟩ =
      (.error (.other "Certification is too large"), .empty) := by
    intro sigs
    exact step_of_screen_error _ (dif_neg hlen.not_lt)
  have hattached := fun sigs => attached_of_error (hrefused sigs) ["An extrinsic failed."]
  refine ⟨_, [⟨.extrinsicFailed, ["An extrinsic failed."]⟩], signsend_call (by omega) _,
    congrArg Prod.fst (hrefused _), hattached _, rfl, ?_⟩
  rw [honest_iff_accepted (hattached _), hrefused]
  intro hok
  cases hok

end CertStore
