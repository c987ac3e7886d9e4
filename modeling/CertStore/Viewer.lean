/-
CertStore/Viewer.lean

The page `CheckCert.tsx` in front of a growing chain.

When the page is mounted, an effect reads the count, then the array in one
query, and then sets the list of hashes.  Every click on a card sends a query of
its own; the node answers from the chain as it is then, and the answers come
back in any order.  The page keeps one certificate, the one that arrived last,
and the drawer shows it while it is open.

A run is a list of actions of all these parties.  `Sound` is the invariant, over
the journal `L` of the chain: what is listed is in the journal, and what is on
its way, shown or saved is the certificate of a submission in `L` whose hash is
listed.  Nothing ties an answer to the click that asked for it, and
`click_shows_iff` tells exactly when a click can only show what was clicked.

A saved file is called after the property `hash` that the client's codec gives to
a decoded certificate.  The codec is not part of the repository, so this property
is a parameter, `codecHash`, any function of the certificate.
-/
import CertStore.Clients
import CertStore.Upload

namespace CertStore

open Scale

variable {A : Type} {host : Host} {codecHash : Certificate → H256}

/-! ### The page -/

/-- `toString()` of a hash. -/
def hexText (h : H256) : Text := ['0', 'x'] ++ Hex.digits h.bytes

/-- A file that the browser saves. -/
structure SavedFile where
  data : List UInt8
  fileName : Text
  mimeType : String
deriving DecidableEq

/-- `"certificate_" + data.hash.toString() + ".pdf"`. -/
def fileName (h : H256) : Text :=
  ['c', 'e', 'r', 't', 'i', 'f', 'i', 'c', 'a', 't', 'e', '_'] ++ hexText h ++ ['.', 'p', 'd', 'f']

/-- The name of the file tells the hash. -/
theorem fileName_injective : Function.Injective fileName := by
  intro h k hname
  have htext : hexText h = hexText k :=
    List.append_cancel_left (List.append_cancel_right hname)
  exact FixedBytes.ext (Hex.digits_injective (List.append_cancel_left htext))

/-- `downloadBlob`, with the arguments of `download()`.  The property `data.hash` is
not the field of the certificate but the hash that the codec makes of its encoding,
`codecHash`. -/
def downloadBlob (codecHash : Certificate → H256) (cert : Certificate) : SavedFile :=
  ⟨download cert, fileName (codecHash cert), "application/pdf"⟩

/-- The Blake2-256 digests of the encoded certificates of the byte `0`, without
signatures and with those of Alice and Bob; the default hash elsewhere. -/
def sampleCodecHash (cert : Certificate) : H256 :=
  if cert = ⟨[0], sampleDigest [0], []⟩ then
    ⟨[0x7f, 0x84, 0x09, 0x42, 0x54, 0xf3, 0x0a, 0x38, 0x82, 0x5e, 0x02, 0x2b, 0x73, 0x7d, 0x29,
      0x61, 0x14, 0xb1, 0x41, 0xd0, 0xa8, 0x1b, 0x49, 0x3f, 0x14, 0x86, 0x17, 0x99, 0x3f, 0x57,
      0xc9, 0x7b], rfl⟩
  else if cert = ⟨[0], sampleDigest [0],
      [⟨sampleSign alice [0], alice⟩, ⟨sampleSign bob [0], bob⟩]⟩ then
    ⟨[0x58, 0x66, 0x82, 0x79, 0x59, 0xd4, 0xa6, 0x5a, 0xf8, 0x42, 0x50, 0x4d, 0x62, 0xdb, 0xe6,
      0x79, 0x18, 0x9a, 0x8b, 0x47, 0xfa, 0x48, 0xdd, 0x6d, 0x44, 0xa9, 0x8e, 0xfd, 0x01, 0xed,
      0xca, 0x42], rfl⟩
  else default

/-- The state of the component, the queries that it sent and the answers that
are on their way back. -/
structure CheckCert where
  hashes : List H256
  data : Option Certificate
  isOpen : Bool
  queries : List H256
  answers : List Certificate
  saved : List SavedFile
deriving DecidableEq

namespace CheckCert

/-- `useState` of each variable. -/
def init : CheckCert := ⟨[], none, false, [], [], []⟩

/-- `isOpen && data`: the certificate in the drawer. -/
def shown (p : CheckCert) : Option Certificate := if p.isOpen then p.data else none

inductive Action
  /-- A click on the card number `i`: `fetch(h)` up to its `await`. -/
  | click (i : ℕ)
  /-- The node answers the query number `j`. -/
  | serve (j : ℕ)
  /-- The answer number `j` arrives: `fetch` from its `await` on. -/
  | arrive (j : ℕ)
  /-- The button "Download". -/
  | download
  /-- The button "戻る", or a click outside of the drawer. -/
  | close
deriving DecidableEq

/-- `fetch(h)` up to its `await`. -/
def request (p : CheckCert) (h : H256) : CheckCert :=
  { p with isOpen := true, queries := p.queries ++ [h] }

/-- The node takes the query number `j` and sends an answer. -/
def reply (p : CheckCert) (j : ℕ) (cert : Certificate) : CheckCert :=
  { p with queries := p.queries.eraseIdx j, answers := p.answers ++ [cert] }

/-- `setData` with the answer number `j`. -/
def receive (p : CheckCert) (j : ℕ) (cert : Certificate) : CheckCert :=
  { p with answers := p.answers.eraseIdx j, data := some cert }

/-- `download()`. -/
def save (codecHash : Certificate → H256) (p : CheckCert) (cert : Certificate) : CheckCert :=
  { p with saved := p.saved ++ [downloadBlob codecHash cert] }

/-- `close()`. -/
def reset (p : CheckCert) : CheckCert := { p with data := none, isOpen := false }

/-- One action.  The cards are behind the drawer while it is shown, and its
buttons are there only then. -/
def step (codecHash : Certificate → H256) (read : H256 → Certificate) (p : CheckCert) :
    Action → CheckCert
  | .click i =>
    match p.hashes[i]?, p.shown with
    | some h, none => p.request h
    | _, _ => p
  | .serve j =>
    match p.queries[j]? with
    | some h => p.reply j (read h)
    | none => p
  | .arrive j =>
    match p.answers[j]? with
    | some cert => p.receive j cert
    | none => p
  | .download =>
    match p.shown with
    | some cert => p.save codecHash cert
    | none => p
  | .close =>
    match p.shown with
    | some _ => p.reset
    | none => p

theorem step_click {read : H256 → Certificate} {p : CheckCert} {i : ℕ} {h : H256}
    (hi : p.hashes[i]? = some h) (hidden : p.shown = none) :
    p.step codecHash read (.click i) = p.request h := by
  simp [step, hi, hidden]

theorem step_serve {read : H256 → Certificate} {p : CheckCert} {j : ℕ} {h : H256}
    (hj : p.queries[j]? = some h) : p.step codecHash read (.serve j) = p.reply j (read h) := by
  simp [step, hj]

theorem step_arrive {read : H256 → Certificate} {p : CheckCert} {j : ℕ} {cert : Certificate}
    (hj : p.answers[j]? = some cert) : p.step codecHash read (.arrive j) = p.receive j cert := by
  simp [step, hj]

theorem step_download {read : H256 → Certificate} {p : CheckCert} {cert : Certificate}
    (hs : p.shown = some cert) : p.step codecHash read .download = p.save codecHash cert := by
  simp [step, hs]

theorem step_close {read : H256 → Certificate} {p : CheckCert} {cert : Certificate}
    (hs : p.shown = some cert) : p.step codecHash read .close = p.reset := by
  simp [step, hs]

theorem step_close_hidden {read : H256 → Certificate} {p : CheckCert} (hs : p.shown = none) :
    p.step codecHash read .close = p := by
  simp [step, hs]

/-- The user closes the drawer, clicks on the card number `i` and downloads what
comes back for this click. -/
def visit (p : CheckCert) (i : ℕ) : List Action :=
  [.close, .click i, .serve p.queries.length, .arrive p.answers.length, .download]

/-- What one action can do to the page. -/
inductive Effect (codecHash : Certificate → H256) (read : H256 → Certificate) (p : CheckCert) :
    Action → CheckCert → Prop
  | idle (a : Action) : Effect codecHash read p a p
  | request {i : ℕ} {h : H256} (hi : p.hashes[i]? = some h) (hidden : p.shown = none) :
      Effect codecHash read p (.click i) (p.request h)
  | reply {j : ℕ} {h : H256} (hj : p.queries[j]? = some h) :
      Effect codecHash read p (.serve j) (p.reply j (read h))
  | receive {j : ℕ} {cert : Certificate} (hj : p.answers[j]? = some cert) :
      Effect codecHash read p (.arrive j) (p.receive j cert)
  | save {cert : Certificate} (hs : p.shown = some cert) :
      Effect codecHash read p .download (p.save codecHash cert)
  | reset {cert : Certificate} (hs : p.shown = some cert) : Effect codecHash read p .close p.reset

theorem step_effect (codecHash : Certificate → H256) (read : H256 → Certificate) (p : CheckCert)
    (a : Action) :
    Effect codecHash read p a (p.step codecHash read a) := by
  cases a with
  | click i =>
    rcases hi : p.hashes[i]? with - | h
    · simpa [step, hi] using Effect.idle (Action.click i)
    · rcases hs : p.shown with - | cert
      · rw [step_click hi hs]
        exact .request hi hs
      · simpa [step, hi, hs] using Effect.idle (Action.click i)
  | serve j =>
    rcases hj : p.queries[j]? with - | h
    · simpa [step, hj] using Effect.idle (Action.serve j)
    · rw [step_serve hj]
      exact .reply hj
  | arrive j =>
    rcases hj : p.answers[j]? with - | cert
    · simpa [step, hj] using Effect.idle (Action.arrive j)
    · rw [step_arrive hj]
      exact .receive hj
  | download =>
    rcases hs : p.shown with - | cert
    · simpa [step, hs] using Effect.idle Action.download
    · rw [step_download hs]
      exact .save hs
  | close =>
    rcases hs : p.shown with - | cert
    · simpa [step, hs] using Effect.idle Action.close
    · simpa [step, hs] using Effect.reset hs

theorem data_of_shown {p : CheckCert} {cert : Certificate} (h : p.shown = some cert) :
    p.data = some cert := by
  unfold shown at h
  split_ifs at h with hopen
  exact h

/-- `P` of the queries and `Q` of the certificates that come back. -/
structure Holds (P : H256 → Prop) (Q : Certificate → Prop) (p : CheckCert) : Prop where
  queries : ∀ h ∈ p.queries, P h
  answers : ∀ cert ∈ p.answers, Q cert
  data : ∀ cert, p.data = some cert → Q cert

theorem Holds.mono {P P' : H256 → Prop} {Q Q' : Certificate → Prop} {p : CheckCert}
    (h : Holds P Q p) (hP : ∀ k, P k → P' k) (hQ : ∀ cert, Q cert → Q' cert) :
    Holds P' Q' p :=
  ⟨fun k hk => hP k (h.queries k hk), fun c hc => hQ c (h.answers c hc),
    fun c hc => hQ c (h.data c hc)⟩

theorem Holds.request {P : H256 → Prop} {Q : Certificate → Prop} {p : CheckCert}
    (hp : Holds P Q p) {h : H256} (hh : P h) : Holds P Q (p.request h) := by
  refine ⟨?_, hp.answers, hp.data⟩
  intro k hk
  rcases List.mem_append.mp hk with hk | hk
  · exact hp.queries k hk
  · rw [List.mem_singleton.mp hk]
    exact hh

/-- What comes back is what was read for a query, and a query comes from a click. -/
theorem Holds.step {P : H256 → Prop} {Q : Certificate → Prop} {p : CheckCert}
    {read : H256 → Certificate} (hp : Holds P Q p) (hread : ∀ k, P k → Q (read k))
    {a : Action}
    (hclick : ∀ i h, a = .click i → p.hashes[i]? = some h → P h) :
    Holds P Q (p.step codecHash read a) := by
  have heffect := step_effect codecHash read p a
  generalize p.step codecHash read a = p' at heffect ⊢
  cases heffect with
  | idle => exact hp
  | request hi => exact hp.request (hclick _ _ rfl hi)
  | reply hj =>
    refine ⟨fun k hk => hp.queries k (List.mem_of_mem_eraseIdx hk), ?_, hp.data⟩
    intro cert hcert
    rcases List.mem_append.mp hcert with hcert | hcert
    · exact hp.answers cert hcert
    · rw [List.mem_singleton.mp hcert]
      exact hread _ (hp.queries _ (List.mem_of_getElem? hj))
  | receive hj =>
    refine ⟨hp.queries, fun c hc => hp.answers c (List.mem_of_mem_eraseIdx hc), ?_⟩
    intro c hc
    obtain rfl := Option.some.inj hc
    exact hp.answers _ (List.mem_of_getElem? hj)
  | save => exact ⟨hp.queries, hp.answers, hp.data⟩
  | reset =>
    refine ⟨hp.queries, hp.answers, ?_⟩
    intro c hc
    cases hc

/-- The page itself never changes the list. -/
theorem step_hashes (codecHash : Certificate → H256) (read : H256 → Certificate) (p : CheckCert)
    (a : Action) :
    (p.step codecHash read a).hashes = p.hashes := by
  have heffect := step_effect codecHash read p a
  generalize p.step codecHash read a = p' at heffect ⊢
  cases heffect with
  | idle | request | reply | receive | save | reset => rfl

/-- A file is saved while its certificate is shown. -/
theorem saved_step {read : H256 → Certificate} {p : CheckCert} {a : Action} {f : SavedFile}
    (h : f ∈ (p.step codecHash read a).saved) :
    f ∈ p.saved ∨ ∃ cert, p.data = some cert ∧ f = downloadBlob codecHash cert := by
  have heffect := step_effect codecHash read p a
  generalize p.step codecHash read a = p' at heffect h
  cases heffect with
  | idle | request | reply | receive | reset => exact Or.inl h
  | save hs =>
    rcases List.mem_append.mp h with hf | hf
    · exact Or.inl hf
    · exact Or.inr ⟨_, data_of_shown hs, List.mem_singleton.mp hf⟩

end CheckCert

/-! ### The page and the chain -/

/-- How far the effect of the mount is. -/
inductive Loading
  /-- It awaits `certificateCount()`. -/
  | start
  /-- It awaits `certificateArray.multi(..)`, the hashes at these indices. -/
  | counted (ks : List ℕ)
  /-- The hashes have been read and are on their way. -/
  | fetched (hashList : List H256)
  /-- It has called `setHashes`. -/
  | done
  /-- `Array.from` threw. -/
  | failed
deriving DecidableEq

theorem Ledger.count_le_append (L M : List (Submission host A)) :
    (count L).val ≤ (count (L ++ M)).val := by
  rw [val_count, val_count, List.length_append]
  omega

/-- What the effect has read is there; and it fails only on a count that is too
large for an array. -/
def Loading.Within (L : List (Submission host A)) : Loading → Prop
  | .counted ks => ∀ k ∈ ks, (indexKey k).val < (Ledger.count L).val
  | .fetched hashList => ∀ h ∈ hashList, h ∈ L.map Submission.hash
  | .failed => 2 ^ 32 ≤ (Ledger.count L).val
  | _ => True

theorem Loading.Within.append {L : List (Submission host A)} {l : Loading} (h : l.Within L)
    (M : List (Submission host A)) : l.Within (L ++ M) := by
  cases l with
  | start | done => trivial
  | counted ks => exact fun k hk => (h k hk).trans_le (Ledger.count_le_append L M)
  | failed => exact (show 2 ^ 32 ≤ _ from h).trans (Ledger.count_le_append L M)
  | fetched hashList =>
    intro k hk
    rw [List.map_append]
    exact List.mem_append_left _ (h k hk)

/-- The effect does not miss the submissions in `L₀`. -/
def Loading.Covers (L₀ : List (Submission host A)) (hashes : List H256) : Loading → Prop
  | .counted ks => L₀.length < 2 ^ 32 ∧ ∀ k < L₀.length, k ∈ ks
  | .fetched hashList => ∀ sub ∈ L₀, sub.hash ∈ hashList
  | .done => ∀ sub ∈ L₀, sub.hash ∈ hashes
  | _ => True

/-- The chain and one page. -/
structure Viewer (A : Type) where
  chain : State A
  loading : Loading
  page : CheckCert

namespace Viewer

/-- An empty chain and a page that has just been mounted. -/
def init : Viewer A := ⟨.empty, .start, .init⟩

inductive Action (A : Type)
  /-- Anybody calls `add_cert`. -/
  | call (c : Call A)
  /-- The node answers the query for the count, and the effect computes the indices. -/
  | readCount
  /-- The node answers the query for the array. -/
  | readArray
  /-- That answer arrives: `setHashes(hashList)`. -/
  | setHashes
  /-- The user or the node does something on the page. -/
  | page (a : CheckCert.Action)
deriving DecidableEq

/-- One action; where it is not possible nothing changes. -/
def step (host : Host) (codecHash : Certificate → H256) (w : Viewer A) :
    Action A → Unit × Viewer A
  | .call c => ((), { w with chain := (CertStore.step host w.chain c).2 })
  | .readCount =>
    match w.loading, Client.checkCert.request w.chain.certificateCount with
    | .start, some ks => ((), { w with loading := .counted ks })
    | .start, none => ((), { w with loading := .failed })
    | _, _ => ((), w)
  | .readArray =>
    match w.loading with
    | .counted ks =>
      let hashList := ks.map fun k => w.chain.certificateArray.get (indexKey k)
      ((), { w with loading := .fetched hashList })
    | _ => ((), w)
  | .setHashes =>
    match w.loading with
    | .fetched hashList => ((), { w with loading := .done, page.hashes := hashList })
    | _ => ((), w)
  | .page a => ((), { w with page := w.page.step codecHash (fetch w.chain) a })

/-- The chain and the page after a list of actions. -/
def exec (host : Host) (codecHash : Certificate → H256) (w : Viewer A) (as : List (Action A)) :
    Viewer A :=
  Machine.exec (step host codecHash) w as

/-- The calls among a list of actions. -/
def calls (as : List (Action A)) : List (Call A) :=
  as.filterMap fun
    | .call c => some c
    | _ => none

theorem calls_append (as bs : List (Action A)) : calls (as ++ bs) = calls as ++ calls bs :=
  List.filterMap_append

/-- The effect goes on to its end, from wherever it is. -/
def awaited : List (Action A) := [.readCount, .readArray, .setHashes]

/-- What one action can do to the chain and the page. -/
inductive Effect (host : Host) (codecHash : Certificate → H256) (w : Viewer A) :
    Action A → Viewer A → Prop
  | idle {a : Action A} (ha : calls [a] = []) : Effect host codecHash w a w
  | call (c : Call A) :
      Effect host codecHash w (.call c) { w with chain := (CertStore.step host w.chain c).2 }
  | failed (hl : w.loading = .start)
      (hr : Client.checkCert.request w.chain.certificateCount = none) :
      Effect host codecHash w .readCount { w with loading := .failed }
  | counted {ks : List ℕ} (hl : w.loading = .start)
      (hr : Client.checkCert.request w.chain.certificateCount = some ks) :
      Effect host codecHash w .readCount { w with loading := .counted ks }
  | fetched {ks : List ℕ} (hl : w.loading = .counted ks) :
      Effect host codecHash w .readArray { w with
        loading := .fetched (ks.map fun k => w.chain.certificateArray.get (indexKey k)) }
  | listed {hashList : List H256} (hl : w.loading = .fetched hashList) :
      Effect host codecHash w .setHashes { w with loading := .done, page.hashes := hashList }
  | page (b : CheckCert.Action) :
      Effect host codecHash w (.page b) { w with page := w.page.step codecHash (fetch w.chain) b }

theorem step_effect (host : Host) (codecHash : Certificate → H256) (w : Viewer A)
    (a : Action A) :
    Effect host codecHash w a (step host codecHash w a).2 := by
  cases a with
  | call c => exact .call c
  | page b => exact .page b
  | readCount =>
    have hidle : Effect host codecHash w .readCount w := .idle rfl
    rcases hl : w.loading with - | ks | hashList | - | -
    case start =>
      rcases hr : Client.checkCert.request w.chain.certificateCount with - | ks
      · have hfailed : Effect host codecHash w .readCount _ := .failed hl hr
        simpa [step, hl, hr] using hfailed
      · have hcounted : Effect host codecHash w .readCount _ := .counted hl hr
        simpa [step, hl, hr] using hcounted
    all_goals simpa [step, hl] using hidle
  | readArray =>
    have hidle : Effect host codecHash w .readArray w := .idle rfl
    rcases hl : w.loading with - | ks | hashList | - | -
    case counted =>
      have hfetched : Effect host codecHash w .readArray _ := .fetched hl
      simpa [step, hl] using hfetched
    all_goals simpa [step, hl] using hidle
  | setHashes =>
    have hidle : Effect host codecHash w .setHashes w := .idle rfl
    rcases hl : w.loading with - | ks | hashList | - | -
    case fetched =>
      have hlisted : Effect host codecHash w .setHashes _ := .listed hl
      simpa [step, hl] using hlisted
    all_goals simpa [step, hl] using hidle

/-- What `CheckCert` has to read, if it gets that far. -/
theorem request_checkCert {count : U128} {ks : List ℕ}
    (h : Client.checkCert.request count = some ks) :
    count.val < 2 ^ 32 ∧ ks = (List.range count.val).reverse := by
  by_cases hlt : count.val < 2 ^ 32
  · rw [Client.request_eq hlt (fun e => by cases e)] at h
    exact ⟨hlt, (Option.some.inj h).symm⟩
  · -- either there is no such number or no such array
    have hnone : Client.checkCert.request count = none := by
      show (toNumber count >>= fun len => arrayFrom len >>= fun ks => some ks.reverse) = none
      by_cases hnum : count.val < 2 ^ 53
      · have harr : arrayFrom count.val = none := if_neg hlt
        rw [toNumber, if_pos hnum, Option.bind_eq_bind, Option.bind_some, harr]
        rfl
      · rw [toNumber, if_neg hnum]
        rfl
    rw [hnone] at h
    cases h

/-- Only a count that is too large for an array keeps it from that. -/
theorem le_of_request_none {count : U128} (h : Client.checkCert.request count = none) :
    2 ^ 32 ≤ count.val := by
  by_contra hlt
  rw [Client.request_eq (Nat.lt_of_not_le hlt) (fun e => by cases e)] at h
  cases h

/-- The submissions of a list of calls are those of them that pass the checks. -/
theorem call_mem_of_submission {cs : List (Call A)} {sub : Submission host A}
    (h : sub ∈ submissions host cs) : sub.call ∈ cs := by
  have hpass : sub.call ∈ passing host cs := by
    rw [← map_call_submissions]
    exact List.mem_map_of_mem h
  exact (List.mem_filter.mp hpass).1

theorem exists_submission_of_mem {cs : List (Call A)} {c : Call A} (hc : c ∈ cs)
    (hpass : c.ChecksPass host) : ∃ sub ∈ submissions host cs, sub.call = c := by
  have hmem : c ∈ passing host cs := List.mem_filter.mpr ⟨hc, decide_eq_true hpass⟩
  rw [← map_call_submissions] at hmem
  exact List.mem_map.mp hmem

/-! ### What is on the page -/

/-- A listed certificate: the one of a submission in `L`, under a listed hash. -/
def Listed (L : List (Submission host A)) (hashes : List H256) (cert : Certificate) : Prop :=
  cert.hash ∈ hashes ∧ ∃ sub ∈ L, sub.cert = cert

theorem Listed.mono {L M : List (Submission host A)} {hashes : List H256} {cert : Certificate}
    (h : Listed L hashes cert) : Listed (L ++ M) hashes cert := by
  obtain ⟨hmem, sub, hsub, hcert⟩ := h
  exact ⟨hmem, sub, List.mem_append_left _ hsub, hcert⟩

/-- The invariant: the chain is that of the journal `L`, the list comes from it,
and so does everything else, by way of the list. -/
structure Sound (codecHash : Certificate → H256) (L : List (Submission host A)) (w : Viewer A) :
    Prop where
  chain : w.chain = Ledger.state L
  loading : w.loading.Within L
  empty : w.loading ≠ .done → w.page.hashes = []
  hashes : ∀ h ∈ w.page.hashes, h ∈ L.map Submission.hash
  page : w.page.Holds (· ∈ w.page.hashes) (Listed L w.page.hashes)
  saved : ∀ f ∈ w.page.saved, ∃ cert, Listed L w.page.hashes cert ∧ f = downloadBlob codecHash cert

theorem sound_init : Sound codecHash ([] : List (Submission host A)) init := by
  refine ⟨(state_nil host).symm, trivial, fun _ => rfl, ?_, ⟨?_, ?_, ?_⟩, ?_⟩
  · intro h hh
    cases hh
  · intro h hh
    cases hh
  · intro cert hcert
    cases hcert
  · intro cert hcert
    cases hcert
  · intro f hf
    cases hf

/-- The certificate read for a hash of the journal is one of the journal. -/
theorem fetch_listed {L : List (Submission host A)} {h : H256}
    (hL : h ∈ L.map Submission.hash) :
    (fetch (Ledger.state L) h).hash = h ∧ ∃ sub ∈ L, sub.cert = fetch (Ledger.state L) h := by
  obtain ⟨cert, hentry⟩ := StorageMap.containsKey_iff.mp (Ledger.containsKey_table.mpr hL)
  have hget : fetch (Ledger.state L) h = cert := StorageMap.get_of_entry hentry
  obtain ⟨sub, hsub, hhash, hcert⟩ := exists_submission_of_entry hentry
  rw [hget]
  exact ⟨(authentic_of_entry hentry).hash_eq, sub, hsub, hcert⟩

section Soundness

variable {L : List (Submission host A)} {w : Viewer A}

theorem Sound.call (hw : Sound codecHash L w) (c : Call A) :
    Sound codecHash (L ++ submissions host [c])
      { w with chain := (CertStore.step host w.chain c).2 } := by
  refine ⟨?_, hw.loading.append _, hw.empty, ?_, ?_, ?_⟩
  · show run host w.chain [c] = _
    rw [hw.chain, run_state]
  · intro h hh
    rw [List.map_append]
    exact List.mem_append_left _ (hw.hashes h hh)
  · exact hw.page.mono (fun _ hk => hk) fun _ hcert => hcert.mono
  · intro f hf
    obtain ⟨cert, hcert, hfile⟩ := hw.saved f hf
    exact ⟨cert, hcert.mono, hfile⟩

/-- Steps of the effect that do not end it. -/
theorem Sound.load (hw : Sound codecHash L w) {l : Loading} (hl : l.Within L)
    (hempty : w.page.hashes = []) : Sound codecHash L { w with loading := l } :=
  ⟨hw.chain, hl, fun _ => hempty, hw.hashes, hw.page, hw.saved⟩

theorem Sound.counted (hw : Sound codecHash L w) {ks : List ℕ} (hl : w.loading = .start)
    (hr : Client.checkCert.request w.chain.certificateCount = some ks) :
    Sound codecHash L { w with loading := .counted ks } := by
  apply hw.load
  · obtain ⟨hlt, rfl⟩ := request_checkCert hr
    intro k hk
    have hk' : k < w.chain.certificateCount.val := by simpa using hk
    rw [indexKey_val (hk'.le.trans (U128.le_max _))]
    rwa [hw.chain] at hk'
  · apply hw.empty
    rw [hl]
    decide

/-- Below the count there are only hashes of the journal. -/
theorem Sound.fetched (hw : Sound codecHash L w) {ks : List ℕ} (hl : w.loading = .counted ks) :
    Sound codecHash L { w with
      loading := .fetched (ks.map fun k => w.chain.certificateArray.get (indexKey k)) } := by
  have hks := hw.loading
  rw [hl] at hks
  apply hw.load
  · intro h hh
    obtain ⟨k, hk, rfl⟩ := List.mem_map.mp hh
    obtain ⟨sub, hsub, hentry, -⟩ := Ledger.exists_submission (hks k hk)
    rw [hw.chain]
    show (Ledger.array L).get (indexKey k) ∈ _
    rw [StorageMap.get_of_entry hentry]
    exact List.mem_map_of_mem (List.mem_of_getElem? hsub)
  · apply hw.empty
    rw [hl]
    simp

/-- The list is set once, while nothing else is on the page. -/
theorem Sound.listed (hw : Sound codecHash L w) {hashList : List H256}
    (hl : w.loading = .fetched hashList) :
    Sound codecHash L { w with loading := .done, page.hashes := hashList } := by
  have hempty := hw.empty (by rw [hl]; simp)
  have hwithin := hw.loading
  rw [hl] at hwithin
  have hpage := hw.page
  have hsaved := hw.saved
  rw [hempty] at hpage hsaved
  -- with an empty list there was nothing to ask for
  have hnone : ∀ cert, ¬Listed L [] cert := fun cert h => List.not_mem_nil h.1
  refine ⟨hw.chain, trivial, fun h => absurd rfl h, hwithin, ?_, ?_⟩
  · exact ⟨fun k hk => absurd (hpage.queries k hk) List.not_mem_nil,
      fun c hc => absurd (hpage.answers c hc) (hnone c),
      fun c hc => absurd (hpage.data c hc) (hnone c)⟩
  · intro f hf
    obtain ⟨cert, hcert, -⟩ := hsaved f hf
    exact absurd hcert (hnone cert)

/-- The page asks for listed hashes, and is answered with their certificates. -/
theorem Sound.act (hw : Sound codecHash L w) (a : CheckCert.Action) :
    Sound codecHash L { w with page := w.page.step codecHash (fetch w.chain) a } := by
  have hhashes := w.page.step_hashes codecHash (fetch w.chain) a
  have hread : ∀ k ∈ w.page.hashes, Listed L w.page.hashes (fetch w.chain k) := by
    intro k hk
    obtain ⟨hhash, hsub⟩ := fetch_listed (hw.hashes k hk)
    rw [hw.chain]
    exact ⟨hhash.symm ▸ hk, hsub⟩
  have hpage : (w.page.step codecHash (fetch w.chain) a).Holds (· ∈ w.page.hashes)
      (Listed L w.page.hashes) := hw.page.step hread fun i h _ hi => List.mem_of_getElem? hi
  refine ⟨hw.chain, hw.loading, ?_, ?_, ?_, ?_⟩
  · show w.loading ≠ .done → (w.page.step codecHash (fetch w.chain) a).hashes = []
    rw [hhashes]
    exact hw.empty
  · show ∀ h ∈ (w.page.step codecHash (fetch w.chain) a).hashes, _
    rw [hhashes]
    exact hw.hashes
  · show (w.page.step codecHash (fetch w.chain) a).Holds
      (· ∈ (w.page.step codecHash (fetch w.chain) a).hashes)
      (Listed L (w.page.step codecHash (fetch w.chain) a).hashes)
    rw [hhashes]
    exact hpage
  · show ∀ f ∈ (w.page.step codecHash (fetch w.chain) a).saved, ∃ cert,
      Listed L (w.page.step codecHash (fetch w.chain) a).hashes cert ∧
        f = downloadBlob codecHash cert
    rw [hhashes]
    intro f hf
    obtain hf | ⟨cert, hdata, hfile⟩ := CheckCert.saved_step hf
    · exact hw.saved f hf
    · exact ⟨cert, hw.page.data cert hdata, hfile⟩

/-- One action. -/
theorem Sound.step (hw : Sound codecHash L w) (a : Action A) :
    Sound codecHash (L ++ submissions host (calls [a])) (Viewer.step host codecHash w a).2 := by
  have hsame : calls [a] = [] → L ++ submissions host (calls [a]) = L := by
    intro ha
    rw [ha]
    exact List.append_nil L
  have heffect := step_effect host codecHash w a
  generalize (Viewer.step host codecHash w a).2 = w' at heffect ⊢
  cases heffect with
  | idle ha =>
    rw [hsame ha]
    exact hw
  | call c => exact hw.call c
  | failed hl hr =>
    rw [hsame rfl]
    refine hw.load ?_ (hw.empty (by rw [hl]; decide))
    have hcount := le_of_request_none hr
    rw [hw.chain] at hcount
    exact hcount
  | counted hl hr =>
    rw [hsame rfl]
    exact hw.counted hl hr
  | fetched hl =>
    rw [hsame rfl]
    exact hw.fetched hl
  | listed hl =>
    rw [hsame rfl]
    exact hw.listed hl
  | page b =>
    rw [hsame rfl]
    exact hw.act b

end Soundness

/-- **The invariant, over every interleaving.** -/
theorem Sound.exec {L : List (Submission host A)} {w : Viewer A} (hw : Sound codecHash L w)
    (as : List (Action A)) :
    Sound codecHash (L ++ submissions host (calls as)) (exec host codecHash w as) := by
  induction as generalizing L w with
  | nil =>
    show Sound codecHash (L ++ []) w
    rw [List.append_nil]
    exact hw
  | cons a as ih =>
    have hsplit : submissions host (calls ([a] ++ as)) =
        submissions host (calls [a]) ++ submissions host (calls as) := by
      rw [calls_append, submissions, List.filterMap_append]
      rfl
    rw [← List.singleton_append, hsplit, ← List.append_assoc]
    exact ih (hw.step a)

/-- The invariant after the actions `as`, from the beginning. -/
theorem sound_exec (host : Host) (codecHash : Certificate → H256) (as : List (Action A)) :
    Sound codecHash (submissions host (calls as)) (init.exec host codecHash as) := by
  have hw : Sound codecHash ([] ++ submissions host (calls as)) (init.exec host codecHash as) :=
    sound_init.exec as
  rwa [List.nil_append] at hw

/-- **Nothing but authentic certificates reaches the user.**  In every
interleaving of the page with calls of others: a listed hash is the hash of a
call that passed the checks; a certificate in the drawer is authentic, under a
listed hash; a saved file is that of an authentic certificate, so its bytes have a
listed hash, and its name is made of the property `hash` of the certificate; and
two saved files with the same name are the same, unless there are two certificates
with the same property. -/
theorem viewer_safe (host : Host) (codecHash : Certificate → H256) (as : List (Action A)) :
    let page := (init.exec host codecHash as).page
    (∀ h ∈ page.hashes, ∃ c ∈ passing host (calls as), host.blake2_256 c.data = h) ∧
    (∀ cert, page.shown = some cert → cert.hash ∈ page.hashes ∧
      Authentic host cert.hash cert) ∧
    (∀ f ∈ page.saved, host.blake2_256 f.data ∈ page.hashes ∧ f.data.length < 1024 ∧
      f.mimeType = "application/pdf" ∧
      ∃ cert, Authentic host (host.blake2_256 f.data) cert ∧ f.data = cert.data ∧
        f.fileName = fileName (codecHash cert)) ∧
    ∀ f ∈ page.saved, ∀ g ∈ page.saved, f.fileName = g.fileName → f = g ∨
      ∃ cert cert', Authentic host (host.blake2_256 f.data) cert ∧
        Authentic host (host.blake2_256 g.data) cert' ∧ cert ≠ cert' ∧
        codecHash cert = codecHash cert' := by
  intro page
  have hw := sound_exec host codecHash as
  have hauth : ∀ cert, Listed (submissions host (calls as)) page.hashes cert →
      Authentic host cert.hash cert := by
    rintro cert ⟨-, sub, -, rfl⟩
    exact sub.cert_authentic
  -- the bytes of a saved file have the hash of its certificate
  have hsaved : ∀ f ∈ page.saved, ∃ cert, host.blake2_256 f.data = cert.hash ∧
      cert.hash ∈ page.hashes ∧ Authentic host (host.blake2_256 f.data) cert ∧
      f = downloadBlob codecHash cert := by
    intro f hf
    obtain ⟨cert, hcert, rfl⟩ := hw.saved f hf
    have hblake : host.blake2_256 (downloadBlob codecHash cert).data = cert.hash :=
      (hauth cert hcert).blake2_eq
    exact ⟨cert, hblake, hcert.1, hblake.symm ▸ hauth cert hcert, rfl⟩
  refine ⟨?_, ?_, ?_, ?_⟩
  · intro h hh
    obtain ⟨sub, hsub, rfl⟩ := List.mem_map.mp (hw.hashes h hh)
    refine ⟨sub.call, ?_, rfl⟩
    rw [← map_call_submissions]
    exact List.mem_map_of_mem hsub
  · intro cert hshown
    have hcert := hw.page.data cert (CheckCert.data_of_shown hshown)
    exact ⟨hcert.1, hauth cert hcert⟩
  · intro f hf
    obtain ⟨cert, hblake, hlisted, hcert, rfl⟩ := hsaved f hf
    exact ⟨hblake.symm ▸ hlisted, hcert.data_lt, rfl, cert, hcert, rfl, rfl⟩
  · intro f hf g hg hname
    obtain ⟨cert, -, -, hcert, rfl⟩ := hsaved f hf
    obtain ⟨cert', -, -, hcert', rfl⟩ := hsaved g hg
    have hcodec : codecHash cert = codecHash cert' := fileName_injective hname
    by_cases hne : cert = cert'
    · exact Or.inl (congrArg _ hne)
    · exact Or.inr ⟨cert, cert', hcert, hcert', hne, hcodec⟩

/-! ### Stale answers -/

/-- Nothing that the page has asked for, received or kept is for another hash. -/
def Settled (h : H256) (page : CheckCert) : Prop :=
  page.Holds (· = h) fun cert => cert.hash = h

/-- The rest of the world changes the list at most. -/
theorem step_page (host : Host) (codecHash : Certificate → H256) (w : Viewer A) {a : Action A}
    (ha : ∀ b, a ≠ .page b) :
    ∃ hashes, (step host codecHash w a).2.page = { w.page with hashes := hashes } := by
  have heffect := step_effect host codecHash w a
  generalize (step host codecHash w a).2 = w' at heffect ⊢
  cases heffect with
  | idle | call | failed | counted | fetched => exact ⟨w.page.hashes, rfl⟩
  | @listed hashList => exact ⟨hashList, rfl⟩
  | page b => exact absurd rfl (ha b)

/-- Without clicks a settled page stays settled. -/
theorem Settled.step {L : List (Submission host A)} {w : Viewer A} (hw : Sound codecHash L w)
    {h : H256} (hL : h ∈ L.map Submission.hash) (hset : Settled h w.page) {a : Action A}
    (ha : ∀ i, a ≠ .page (.click i)) : Settled h (step host codecHash w a).2.page := by
  by_cases hpage : ∃ b, a = .page b
  · obtain ⟨b, rfl⟩ := hpage
    have hread : ∀ k, k = h → (fetch w.chain k).hash = h := by
      rintro k rfl
      rw [hw.chain]
      exact (fetch_listed hL).1
    exact CheckCert.Holds.step hset hread fun i _ e _ => absurd (congrArg Action.page e) (ha i)
  · obtain ⟨hashes, e⟩ := step_page host codecHash w (not_exists.mp hpage)
    rw [e]
    exact ⟨hset.queries, hset.answers, hset.data⟩

theorem Settled.exec {L : List (Submission host A)} {w : Viewer A} (hw : Sound codecHash L w)
    {h : H256} (hL : h ∈ L.map Submission.hash) (hset : Settled h w.page) {as : List (Action A)}
    (has : ∀ i, .page (.click i) ∉ as) : Settled h (exec host codecHash w as).page := by
  induction as generalizing L w with
  | nil => exact hset
  | cons a as ih =>
    have hL' : h ∈ (L ++ submissions host (calls [a])).map Submission.hash := by
      rw [List.map_append]
      exact List.mem_append_left _ hL
    have ha : ∀ i, a ≠ .page (.click i) := fun i e => has i (e ▸ List.mem_cons_self)
    exact ih (hw.step a) hL' (hset.step hw hL ha) fun i hi => has i (List.mem_cons_of_mem _ hi)

/-- A click on the card of `h`, and then the actions `post`. -/
theorem click_iff_settled {L : List (Submission host A)} {w : Viewer A} (hw : Sound codecHash L w)
    {i : ℕ} {h : H256} (hidden : w.page.shown = none) (hi : w.page.hashes[i]? = some h) :
    (∀ post : List (Action A), (∀ j, .page (.click j) ∉ post) → ∀ cert,
      (exec host codecHash w (.page (.click i) :: post)).page.shown = some cert → cert.hash = h) ↔
    Settled h w.page := by
  have hclick : (Viewer.step host codecHash w (.page (.click i))).2 =
      { w with page := w.page.request h } := by
    show { w with page := w.page.step codecHash (fetch w.chain) (.click i) } = _
    rw [CheckCert.step_click hi hidden]
  have hclicked : Sound codecHash L (Viewer.step host codecHash w (.page (.click i))).2 :=
    hw.act (.click i)
  have hexec : ∀ post, exec host codecHash w (.page (.click i) :: post) =
      exec host codecHash (Viewer.step host codecHash w (.page (.click i))).2 post := fun _ => rfl
  simp only [hexec]
  rw [hclick] at hclicked ⊢
  refine ⟨?_, ?_⟩
  · intro hall
    refine ⟨?_, ?_, ?_⟩
    · -- the query is served, and its answer arrives
      intro k hk
      obtain ⟨j, hj⟩ := List.getElem?_of_mem hk
      have hserve : (w.page.request h).queries[j]? = some k := by
        show (w.page.queries ++ [h])[j]? = some k
        rw [List.getElem?_append_left (List.getElem?_eq_some_iff.mp hj).1, hj]
      have harrive : ((w.page.request h).reply j (fetch w.chain k)).answers[
          w.page.answers.length]? = some (fetch w.chain k) := List.getElem?_concat_length
      have hshown : (exec host codecHash { w with page := w.page.request h }
          [.page (.serve j), .page (.arrive w.page.answers.length)]).page.shown =
          some (fetch w.chain k) := by
        show (((w.page.request h).step codecHash (fetch w.chain) (.serve j)).step codecHash
          (fetch w.chain) (.arrive w.page.answers.length)).shown = _
        rw [CheckCert.step_serve hserve, CheckCert.step_arrive harrive]
        rfl
      have hhash := hall _ (by simp) _ hshown
      have hlisted := hw.hashes k (hw.page.queries k hk)
      rw [hw.chain, (fetch_listed hlisted).1] at hhash
      exact hhash
    · -- the answer arrives
      intro cert hcert
      obtain ⟨j, hj⟩ := List.getElem?_of_mem hcert
      apply hall [.page (.arrive j)] (by simp)
      show ((w.page.request h).step codecHash (fetch w.chain) (.arrive j)).shown = some cert
      rw [CheckCert.step_arrive (p := w.page.request h) hj]
      rfl
    · -- the certificate that is kept is in the drawer at once
      intro cert hdata
      exact hall [] (by simp) cert hdata
  · intro hset post hpost cert hshown
    have hL := hw.hashes h (List.mem_of_getElem? hi)
    have hset' : Settled h (w.page.request h) := CheckCert.Holds.request hset rfl
    exact (hset'.exec hclicked hL hpost).data cert (CheckCert.data_of_shown hshown)

/-- **When a click can only show what was clicked.**  At any point of any
interleaving, with the drawer out of the way, click on the card of the hash `h`
and click on nothing else afterwards.  Whatever else happens, the drawer shows
certificates of `h` only, if and only if no certificate of another hash is kept,
on its way or asked for at the time of the click. -/
theorem click_shows_iff (host : Host) (codecHash : Certificate → H256) (as : List (Action A))
    (i : ℕ) (h : H256)
    (hidden : (init.exec host codecHash as).page.shown = none)
    (hi : (init.exec host codecHash as).page.hashes[i]? = some h) :
    (∀ post : List (Action A), (∀ j, .page (.click j) ∉ post) → ∀ cert,
      (init.exec host codecHash (as ++ .page (.click i) :: post)).page.shown = some cert →
        cert.hash = h) ↔
    (∀ k ∈ (init.exec host codecHash as).page.queries, k = h) ∧
      (∀ cert ∈ (init.exec host codecHash as).page.answers, cert.hash = h) ∧
      ∀ cert, (init.exec host codecHash as).page.data = some cert → cert.hash = h := by
  have hiff := click_iff_settled (sound_exec host codecHash as) hidden hi
  have hexec : ∀ post, (init : Viewer A).exec host codecHash (as ++ .page (.click i) :: post) =
      ((init : Viewer A).exec host codecHash as).exec host codecHash (.page (.click i) :: post) :=
    fun post => Machine.exec_append _ _ _
  simp only [hexec]
  refine hiff.trans ⟨fun hset => ⟨hset.queries, hset.answers, hset.data⟩, ?_⟩
  rintro ⟨hqueries, hanswers, hdata⟩
  exact ⟨hqueries, hanswers, hdata⟩

/-- Two certificates are listed, the newer one first, and their answers cross:
after a click on the older one, while the query for the newer one is still
out, the drawer can show the newer one. -/
theorem click_shows_other :
    let as : List (Action AccountId32) := [.call signedCall, .call ⟨.signed bob, [0], []⟩,
      .readCount, .readArray, .setHashes, .page (.click 0)]
    (init.exec sampleHost sampleCodecHash as).page.hashes = [sampleDigest [0], sampleDigest []] ∧
    ¬∀ post : List (Action AccountId32), (∀ j, .page (.click j) ∉ post) → ∀ cert,
      (init.exec sampleHost sampleCodecHash (as ++ .page (.click 1) :: post)).page.shown =
        some cert → cert.hash = sampleDigest [] := by
  intro as
  refine ⟨by decide, ?_⟩
  intro hall
  obtain ⟨hqueries, -, -⟩ := (click_shows_iff sampleHost sampleCodecHash as 1 (sampleDigest [])
    (by decide) (by decide)).mp hall
  have hne : sampleDigest [0] ≠ sampleDigest [] := by decide
  exact hne (hqueries (sampleDigest [0]) (by decide))

/-! ### A file on its way from the uploader to the reader -/

/-- The submissions of `L₀` came in before the effect read the count. -/
structure Covers (L₀ : List (Submission host A)) (w : Viewer A) : Prop where
  grown : ∃ M, w.chain = Ledger.state (L₀ ++ M)
  loading : w.loading.Covers L₀ w.page.hashes

section Coverage

variable {L₀ : List (Submission host A)} {w : Viewer A}

/-- The count leaves nothing out, since the counter is far from its limit. -/
theorem Covers.counted (hw : Covers L₀ w) {ks : List ℕ}
    (hr : Client.checkCert.request w.chain.certificateCount = some ks) :
    Covers L₀ { w with loading := .counted ks } := by
  refine ⟨hw.grown, ?_⟩
  obtain ⟨M, hM⟩ := hw.grown
  obtain ⟨hlt, rfl⟩ := request_checkCert hr
  have hcount : w.chain.certificateCount.val = min (L₀ ++ M).length U128.max :=
    congrArg (fun st => st.certificateCount.val) hM
  have hmax : 2 ^ 32 ≤ U128.max := by decide
  rw [List.length_append] at hcount
  refine ⟨by omega, ?_⟩
  intro k hk
  rw [List.mem_reverse, List.mem_range]
  omega

/-- The array still has the hashes at their places. -/
theorem Covers.fetched (hw : Covers L₀ w) {ks : List ℕ} (hl : w.loading = .counted ks) :
    Covers L₀ { w with
      loading := .fetched (ks.map fun k => w.chain.certificateArray.get (indexKey k)) } := by
  refine ⟨hw.grown, ?_⟩
  obtain ⟨M, hM⟩ := hw.grown
  have hks := hw.loading
  rw [hl] at hks
  obtain ⟨hlen, hmem⟩ := hks
  intro sub hsub
  obtain ⟨k, hk, rfl⟩ := List.getElem_of_mem hsub
  have hmax : 2 ^ 32 ≤ U128.max := by decide
  have hval : (indexKey k).val = k := indexKey_val (by omega)
  have hentry : (Ledger.array (L₀ ++ M)).entry (indexKey k) = some L₀[k].hash := by
    have hlt : k < U128.max := by omega
    have hget : (L₀ ++ M)[k]? = some L₀[k] := by
      rw [List.getElem?_append_left hk, List.getElem?_eq_getElem hk]
    simp [Ledger.array, hval, hlt, hget]
  refine List.mem_map.mpr ⟨k, hmem k hk, ?_⟩
  rw [hM]
  exact StorageMap.get_of_entry hentry

theorem Covers.step (hw : Covers L₀ w) (a : Action A) :
    Covers L₀ (Viewer.step host codecHash w a).2 := by
  have heffect := step_effect host codecHash w a
  generalize (Viewer.step host codecHash w a).2 = w' at heffect ⊢
  cases heffect with
  | idle => exact hw
  | failed => exact ⟨hw.grown, trivial⟩
  | counted _ hr => exact hw.counted hr
  | fetched hl => exact hw.fetched hl
  | listed hl =>
    have hfetched := hw.loading
    rw [hl] at hfetched
    exact ⟨hw.grown, hfetched⟩
  | call c =>
    obtain ⟨M, hM⟩ := hw.grown
    refine ⟨⟨M ++ submissions host [c], ?_⟩, hw.loading⟩
    show run host w.chain [c] = _
    rw [hM, run_state, List.append_assoc]
  | page b =>
    refine ⟨hw.grown, ?_⟩
    show w.loading.Covers L₀ (w.page.step codecHash (fetch w.chain) b).hashes
    rw [CheckCert.step_hashes]
    exact hw.loading

end Coverage

/-- With a count that fits an array the effect sets the list, if it has not yet. -/
theorem Sound.exec_awaited {L : List (Submission host A)} {w : Viewer A}
    (hw : Sound codecHash L w) (hfew : w.chain.certificateCount.val < 2 ^ 32) :
    (w.exec host codecHash awaited).loading = .done := by
  obtain ⟨chain, loading, page⟩ := w
  cases loading with
  | start =>
    have hreq : Client.checkCert.request chain.certificateCount = some _ :=
      Client.request_eq hfew fun e => by cases e
    simp [Viewer.exec, awaited, Viewer.step, hreq]
  | counted | fetched | done => rfl
  | failed =>
    have hcount : 2 ^ 32 ≤ (Ledger.count L).val := hw.loading
    have hchain : chain = Ledger.state L := hw.chain
    rw [hchain] at hfew
    exact absurd hfew hcount.not_gt

/-- A click on the card of a listed hash brings what the chain has, and it can be
saved, whatever else is under way. -/
theorem exec_visit {w : Viewer A} {i : ℕ} {h : H256} (hi : w.page.hashes[i]? = some h) :
    (w.exec host codecHash ((w.page.visit i).map .page)).page.saved =
      w.page.saved ++ [downloadBlob codecHash (fetch w.chain h)] := by
  obtain ⟨p, hp⟩ : ∃ p, p = w.page.step codecHash (fetch w.chain) .close := ⟨_, rfl⟩
  -- closing the drawer leaves everything else as it is
  obtain ⟨hhashes, hqueries, hanswers, hsaved, hidden⟩ : p.hashes = w.page.hashes ∧
      p.queries = w.page.queries ∧ p.answers = w.page.answers ∧ p.saved = w.page.saved ∧
      p.shown = none := by
    rw [hp]
    rcases hs : w.page.shown with - | cert
    · rw [CheckCert.step_close_hidden hs]
      exact ⟨rfl, rfl, rfl, rfl, hs⟩
    · rw [CheckCert.step_close hs]
      exact ⟨rfl, rfl, rfl, rfl, rfl⟩
  rw [← hhashes] at hi
  have hserve : (p.request h).queries[w.page.queries.length]? = some h := by
    rw [← hqueries]
    exact List.getElem?_concat_length
  have harrive : ((p.request h).reply w.page.queries.length (fetch w.chain h)).answers[
      w.page.answers.length]? = some (fetch w.chain h) := by
    rw [← hanswers]
    exact List.getElem?_concat_length
  show (((((w.page.step codecHash (fetch w.chain) .close).step codecHash (fetch w.chain)
    (.click i)).step codecHash (fetch w.chain) (.serve w.page.queries.length)).step codecHash
    (fetch w.chain) (.arrive w.page.answers.length)).step codecHash (fetch w.chain)
    .download).saved = _
  rw [← hp, CheckCert.step_click hi hidden, CheckCert.step_serve hserve,
    CheckCert.step_arrive harrive, CheckCert.step_download rfl, ← hsaved]
  rfl

/-- What has come in before the effect reads the count is listed when the effect is
through, if the count fits an array. -/
theorem exec_listed (host : Host) (codecHash : Certificate → H256) (pre post : List (Action A))
    (hstart : (init.exec host codecHash pre).loading = .start)
    (hfew : (init.exec host codecHash (pre ++ post)).chain.certificateCount.val < 2 ^ 32) :
    ∀ sub ∈ submissions host (calls pre),
      sub.hash ∈ (init.exec host codecHash (pre ++ post ++ awaited)).page.hashes := by
  have hdone : (init.exec host codecHash (pre ++ post ++ awaited)).loading = .done := by
    rw [exec, Machine.exec_append]
    exact (sound_exec host codecHash (pre ++ post)).exec_awaited hfew
  have hpre : Covers (submissions host (calls pre)) (init.exec host codecHash pre) := by
    refine ⟨⟨[], ?_⟩, ?_⟩
    · rw [List.append_nil]
      exact (sound_exec host codecHash pre).chain
    · rw [hstart]
      trivial
  have hcovers : Covers (submissions host (calls pre))
      (init.exec host codecHash (pre ++ post ++ awaited)) := by
    rw [List.append_assoc, exec, Machine.exec_append]
    exact Machine.invariant_exec (fun _ a h => h.step a) hpre (post ++ awaited)
  have hall := hcovers.loading
  rwa [hdone] at hall

/-- What has come in before the effect reads the count is found, as long as no
call is a collision and the count fits an array: its hash is listed; a certificate
in the drawer under that hash has its data, and so has a saved file whose bytes
have that hash; and there is a card that brings it. -/
theorem submission_viewed (host : Host) (codecHash : Certificate → H256)
    (pre post : List (Action A)) (sub : Submission host A)
    (hsub : sub ∈ submissions host (calls pre))
    (hstart : (init.exec host codecHash pre).loading = .start)
    (hfew : (init.exec host codecHash (pre ++ post)).chain.certificateCount.val < 2 ^ 32)
    (hcoll : ∀ c ∈ calls (pre ++ post), ¬Collides host sub.data c) :
    let w := init.exec host codecHash (pre ++ post ++ awaited)
    sub.hash ∈ w.page.hashes ∧
    (∀ cert, w.page.shown = some cert → cert.hash = sub.hash → download cert = sub.data) ∧
    (∀ f ∈ w.page.saved, host.blake2_256 f.data = sub.hash → f.data = sub.data) ∧
    ∃ i, (w.exec host codecHash ((w.page.visit i).map .page)).page.saved = w.page.saved ++
      [⟨sub.data, fileName (codecHash (fetch w.chain sub.hash)), "application/pdf"⟩] := by
  intro w
  have hcalls : calls (pre ++ post ++ awaited) = calls (pre ++ post) := by
    rw [calls_append]
    exact List.append_nil _
  have hsound : Sound codecHash (submissions host (calls (pre ++ post))) w := by
    rw [← hcalls]
    exact sound_exec host codecHash (pre ++ post ++ awaited)
  -- a certificate from the journal with this hash has this data
  have hdata : ∀ cert, Listed (submissions host (calls (pre ++ post))) w.page.hashes cert →
      cert.hash = sub.hash → cert.data = sub.data := by
    rintro cert ⟨-, other, hother, rfl⟩ hhash
    by_contra hne
    exact hcoll other.call (call_mem_of_submission hother) ⟨other.call_checksPass, hhash, hne⟩
  have hlisted : sub.hash ∈ w.page.hashes :=
    exec_listed host codecHash pre post hstart hfew sub hsub
  refine ⟨hlisted, ?_, ?_, ?_⟩
  · intro cert hshown
    exact hdata cert (hsound.page.data cert (CheckCert.data_of_shown hshown))
  · intro f hf hhash
    obtain ⟨cert, hcert, rfl⟩ := hsound.saved f hf
    obtain ⟨-, other, -, rfl⟩ := id hcert
    exact hdata other.cert hcert hhash
  · obtain ⟨i, hi⟩ := List.getElem?_of_mem hlisted
    obtain ⟨hhash, hfetch⟩ := fetch_listed (hsound.hashes _ hlisted)
    rw [← hsound.chain] at hhash hfetch
    have hbytes := hdata (fetch w.chain sub.hash) ⟨hhash.symm ▸ hlisted, hfetch⟩ hhash
    refine ⟨i, ?_⟩
    rw [exec_visit hi, downloadBlob, download, hbytes]

end Viewer

end CertStore
