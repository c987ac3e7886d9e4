/-
CertStore/Uploader.lean

The page `AddCert.tsx` with several uploads under way.

A drop starts to read a file; when the file has been read, `signsend` builds its
transaction and sends it; a block takes the transaction at some later time, or
never; and the updates of its status come in at any time.  Drops, reads, blocks
and updates of different files interleave with each other and with the calls of
others.

What belongs to a file travels with it: the bytes from the drop to the
transaction, the transaction from there to the chain.  `Tracked` is the invariant
that says so, and `uploads_kept` that no upload is lost, doubled or mixed up with
another.  The toaster does not: `pt` is one variable for all uploads that were
dropped on the same rendering of the page, and each drop overwrites it.  So a
report reaches the toaster that announced the upload exactly if nothing has been
dropped on that rendering in between (`report_reaches_iff`).
-/
import CertStore.Report
import CertStore.Table

namespace CertStore

open Scale

variable {host : Host} {alice bob : KeyringPair}

/-! ### The page -/

/-- A file that is being read, and the rendering that it was dropped on. -/
structure Reading where
  render : ℕ
  arr : List UInt8
deriving DecidableEq

/-- A transaction that was sent, with the bytes it was built from. -/
structure Sent where
  render : ℕ
  arr : List UInt8
  transaction : Transaction
  /-- A block has taken it. -/
  included : Bool

/-- The state of the component.  A rendering has a `pt` of its own, to which the
functions that it made keep referring. -/
structure AddCert where
  /-- The number of the latest rendering. -/
  render : ℕ
  /-- The histories of the toasters, in the order in which they were created. -/
  toasters : List (List ToastAction)
  /-- The `pt` of each rendering: the number of a toaster, unless it is undefined. -/
  pt : ℕ → Option ℕ
  reading : List Reading
  sent : List Sent

namespace AddCert

/-- The component as it is mounted. -/
def init : AddCert := ⟨0, [], fun _ => none, [], []⟩

/-- The page is rendered again, as it is when the connection changes. -/
def rerender (p : AddCert) : AddCert := { p with render := p.render + 1 }

/-- The histories after `f` has happened to the toaster in the `pt` of a
rendering, which is never undefined there (`Wired`). -/
def toastersOn (p : AddCert) (r : ℕ) (f : List ToastAction → List ToastAction) :
    List (List ToastAction) :=
  match p.pt r with
  | some n => p.toasters.modify n f
  | none => p.toasters

/-- `read(e)`: a new toaster, and the first of the files is read.  If there is
none, the reader throws after the message. -/
def read (p : AddCert) (files : List (List UInt8)) : AddCert :=
  { p with
    toasters := p.toasters ++ [[.shown { message := "アップロードしています" } none]]
    pt := Function.update p.pt p.render (some p.toasters.length)
    reading := p.reading ++ (files.take 1).map (⟨p.render, ·⟩) }

/-- `fileReader.onload` of the file number `j`, which calls `signsend`.  Where
`toHex` throws, the first message has been shown. -/
def load (alice bob : KeyringPair) (p : AddCert) (j : ℕ) : AddCert :=
  match p.reading[j]? with
  | none => p
  | some ⟨r, arr⟩ =>
    match signsend alice bob arr with
    | some transaction =>
      { p with
        toasters := p.toastersOn r (· ++ announcements)
        reading := p.reading.eraseIdx j
        sent := p.sent ++ [⟨r, arr, transaction, false⟩] }
    | none =>
      { p with
        toasters := p.toastersOn r (· ++ announcements.take 1)
        reading := p.reading.eraseIdx j }

/-- The callback, with an update for the transaction number `k`. -/
def update (p : AddCert) (k : ℕ) (e : SubmittableResult) : AddCert :=
  match p.sent[k]? with
  | some t => { p with toasters := p.toastersOn t.render fun log => (deliver log e).2 }
  | none => p

/-- What one action of the page, other than a drop, can do to it. -/
inductive Effect (alice bob : KeyringPair) (p : AddCert) : AddCert → Prop
  | idle : Effect alice bob p p
  | rerender : Effect alice bob p p.rerender
  /-- A file has been read and is sent. -/
  | send {j : ℕ} {f : Reading} {transaction : Transaction} (hj : p.reading[j]? = some f)
      (hs : signsend alice bob f.arr = some transaction) :
      Effect alice bob p { p with
        toasters := p.toastersOn f.render (· ++ announcements)
        reading := p.reading.eraseIdx j
        sent := p.sent ++ [⟨f.render, f.arr, transaction, false⟩] }
  /-- A file has been read and has no text. -/
  | fail {j : ℕ} {f : Reading} (hj : p.reading[j]? = some f)
      (hs : signsend alice bob f.arr = none) :
      Effect alice bob p { p with
        toasters := p.toastersOn f.render (· ++ announcements.take 1)
        reading := p.reading.eraseIdx j }
  /-- An update has been reported. -/
  | report {t : Sent} {e : SubmittableResult} (ht : t ∈ p.sent) :
      Effect alice bob p { p with toasters := p.toastersOn t.render (· ++ report e) }

theorem load_effect (p : AddCert) (alice bob : KeyringPair) (j : ℕ) :
    Effect alice bob p (p.load alice bob j) := by
  rcases hj : p.reading[j]? with - | ⟨r, arr⟩
  · simpa [load, hj] using Effect.idle
  · rcases hs : signsend alice bob arr with - | transaction
    · simpa [load, hj, hs] using Effect.fail hj hs
    · simpa [load, hj, hs] using Effect.send hj hs

theorem update_effect (p : AddCert) (alice bob : KeyringPair) (k : ℕ) (e : SubmittableResult) :
    Effect alice bob p (p.update k e) := by
  rcases hk : p.sent[k]? with - | t
  · simpa [update, hk] using Effect.idle
  · have heffect : Effect alice bob p _ := .report (e := e) (List.mem_of_getElem? hk)
    simpa [update, hk, deliver_log] using heffect

end AddCert

/-! ### The page and the chain -/

/-- The calls that the blocks have taken so far, and one page. -/
structure Uploader where
  chain : List (Call AccountId32)
  page : AddCert

namespace Uploader

/-- An empty chain and a page that has just been mounted. -/
def init : Uploader := ⟨[], .init⟩

inductive Action
  /-- A block takes somebody else's call. -/
  | call (c : Call AccountId32)
  /-- The page is rendered again. -/
  | rerender
  /-- Files are dropped on the page. -/
  | drop (files : List (List UInt8))
  /-- The file number `j` of those that are being read has been read. -/
  | load (j : ℕ)
  /-- A block takes the transaction number `k`, signed by Alice. -/
  | block (k : ℕ)
  /-- An update of the status of the transaction number `k`. -/
  | update (k : ℕ) (e : SubmittableResult)

/-- A block takes the transaction number `k`, which it can do once. -/
def take (alice : KeyringPair) (w : Uploader) (k : ℕ) : Uploader :=
  match w.page.sent[k]? with
  | none => w
  | some t =>
    match t.included, t.transaction.call (.signed alice.address) with
    | false, some c =>
      { w with
        chain := w.chain ++ [c]
        page.sent := w.page.sent.set k { t with included := true } }
    | _, _ => w

/-- One action; where it is not possible nothing changes. -/
def step (alice bob : KeyringPair) (w : Uploader) : Action → Unit × Uploader
  | .call c => ((), { w with chain := w.chain ++ [c] })
  | .rerender => ((), { w with page := w.page.rerender })
  | .drop files => ((), { w with page := w.page.read files })
  | .load j => ((), { w with page := w.page.load alice bob j })
  | .block k => ((), w.take alice k)
  | .update k e => ((), { w with page := w.page.update k e })

/-- The chain and the page after a list of actions. -/
def exec (alice bob : KeyringPair) (w : Uploader) (as : List Action) : Uploader :=
  Machine.exec (step alice bob) w as

/-- The calls of others among a list of actions. -/
def calls (as : List Action) : List (Call AccountId32) :=
  as.filterMap fun
    | .call c => some c
    | _ => none

/-- The files that are read: of each drop the first one. -/
def dropped (as : List Action) : List (List UInt8) :=
  as.flatMap fun
    | .drop files => files.take 1
    | _ => []

/-- What one action can do to the chain and the page. -/
inductive Effect (alice bob : KeyringPair) (w : Uploader) : Action → Uploader → Prop
  | call (c : Call AccountId32) :
      Effect alice bob w (.call c) { w with chain := w.chain ++ [c] }
  | drop (files : List (List UInt8)) :
      Effect alice bob w (.drop files) { w with page := w.page.read files }
  /-- The page goes on by itself. -/
  | act {a : Action} {p : AddCert} (hp : AddCert.Effect alice bob w.page p)
      (hcalls : calls [a] = []) (hdrop : ∀ files, a ≠ .drop files) :
      Effect alice bob w a { w with page := p }
  /-- A block takes a transaction that no block has taken before. -/
  | mark {k : ℕ} {t : Sent} {c : Call AccountId32} (hk : w.page.sent[k]? = some t)
      (hnew : t.included = false) (hc : t.transaction.call (.signed alice.address) = some c) :
      Effect alice bob w (.block k) { w with
        chain := w.chain ++ [c]
        page.sent := w.page.sent.set k { t with included := true } }

theorem step_effect (alice bob : KeyringPair) (w : Uploader) (a : Action) :
    Effect alice bob w a (step alice bob w a).2 := by
  cases a with
  | call c => exact .call c
  | drop files => exact .drop files
  | rerender => exact .act .rerender rfl (by rintro _ ⟨⟩)
  | load j => exact .act (w.page.load_effect alice bob j) rfl (by rintro _ ⟨⟩)
  | update k e => exact .act (w.page.update_effect alice bob k e) rfl (by rintro _ ⟨⟩)
  | block k =>
    have hidle : Effect alice bob w (.block k) w := .act .idle rfl (by rintro _ ⟨⟩)
    show Effect alice bob w (.block k) (w.take alice k)
    rcases hk : w.page.sent[k]? with - | t
    · simpa [take, hk] using hidle
    · rcases hnew : t.included with - | -
      · rcases hc : t.transaction.call (.signed alice.address : Origin AccountId32) with - | c
        · simpa [take, hk, hnew, hc] using hidle
        · have hmark : Effect alice bob w (.block k) _ := .mark hk hnew hc
          simpa [take, hk, hnew, hc] using hmark
      · simpa [take, hk, hnew] using hidle

/-! ### No upload is lost, doubled or mixed up -/

/-- The bytes fit into a text. -/
def Sendable (arr : List UInt8) : Bool := decide (arr.length < 2 ^ 32)

/-- The call that the chain gets for a file. -/
def uploadCall (alice bob : KeyringPair) (arr : List UInt8) : Call AccountId32 :=
  ⟨.signed alice.address, arr, [⟨alice.sign arr, alice.address⟩, ⟨bob.sign arr, bob.address⟩]⟩

/-- The files that the blocks have taken. -/
def included (sent : List Sent) : List (List UInt8) :=
  (sent.filter (·.included)).map Sent.arr

/-- The invariant, for the files `fs` that are read and the calls `cs` of
others: such a file is still being read or was sent, once; what was sent was
built from its own bytes; and the chain has the calls of others and one call for
each transaction that was taken. -/
structure Tracked (alice bob : KeyringPair) (fs : List (List UInt8))
    (cs : List (Call AccountId32)) (w : Uploader) : Prop where
  files : (fs.filter Sendable).Perm
    ((w.page.reading.map Reading.arr).filter Sendable ++ w.page.sent.map Sent.arr)
  built : ∀ t ∈ w.page.sent, signsend alice bob t.arr = some t.transaction
  chain : w.chain.Perm (cs ++ (included w.page.sent).map (uploadCall alice bob))

theorem tracked_init : Tracked alice bob [] [] init := by
  refine ⟨.nil, ?_, .nil⟩
  intro t ht
  cases ht

/-- A transaction is built only for a file that fits, and it is the call for it. -/
theorem call_of_signsend {arr : List UInt8} {t : Transaction}
    (h : signsend alice bob arr = some t) :
    Sendable arr = true ∧
      t.call (.signed alice.address) = some (uploadCall alice bob arr) := by
  by_cases hlen : arr.length < 2 ^ 32
  · have hcall : (signsend alice bob arr).bind (fun t => t.call (.signed alice.address)) =
        some (uploadCall alice bob arr) := signsend_call hlen _
    rw [h] at hcall
    exact ⟨decide_eq_true hlen, hcall⟩
  · rw [signsend, toHex_eq_none (Nat.le_of_not_lt hlen)] at h
    cases h

theorem signsend_ne_none {arr : List UInt8} (h : Sendable arr = true) :
    signsend alice bob arr ≠ none := by
  have hcall : (signsend alice bob arr).bind (fun t => t.call (.root : Origin AccountId32)) =
      some _ := signsend_call (of_decide_eq_true h) _
  intro hnone
  rw [hnone] at hcall
  cases hcall

/-- What is added to a list comes before the rest of it. -/
theorem perm_append_middle {α : Type} {l a b : List α} (h : l.Perm (a ++ b)) (c : List α) :
    (l ++ c).Perm (a ++ c ++ b) := by
  refine (h.append_right c).trans ?_
  rw [List.append_assoc, List.append_assoc]
  exact List.perm_append_comm.append_left a

/-- An element of a list, taken out. -/
theorem perm_cons_eraseIdx {α : Type} {l : List α} {i : ℕ} {a : α} (h : l[i]? = some a) :
    l.Perm (a :: l.eraseIdx i) := by
  obtain ⟨hlt, rfl⟩ := List.getElem?_eq_some_iff.mp h
  exact (List.getElem_cons_eraseIdx_perm hlt).symm

/-- The transaction that a block takes is marked, and nothing else is. -/
theorem included_set {sent : List Sent} {k : ℕ} {t : Sent} (hk : sent[k]? = some t)
    (hnew : t.included = false) :
    (included (sent.set k { t with included := true })).Perm (included sent ++ [t.arr]) := by
  obtain ⟨hlt, -⟩ := List.getElem?_eq_some_iff.mp hk
  have hset := List.set_perm_cons_eraseIdx hlt { t with included := true }
  have hrest : (included sent).Perm (included (sent.eraseIdx k)) := by
    have hperm := ((perm_cons_eraseIdx hk).filter (·.included)).map Sent.arr
    rwa [List.filter_cons_of_neg (by simp [hnew])] at hperm
  have hmarked : (included (sent.set k { t with included := true })).Perm
      (t.arr :: included (sent.eraseIdx k)) := (hset.filter _).map _
  refine hmarked.trans ((hrest.symm.cons t.arr).trans ?_)
  exact (List.perm_append_singleton t.arr (included sent)).symm

theorem map_arr_set {sent : List Sent} {k : ℕ} {t : Sent} (hk : sent[k]? = some t) {u : Sent}
    (harr : u.arr = t.arr) : (sent.set k u).map Sent.arr = sent.map Sent.arr := by
  obtain ⟨hlt, hget⟩ := List.getElem?_eq_some_iff.mp hk
  apply List.ext_getElem?
  intro i
  rw [List.getElem?_map, List.getElem?_map, List.getElem?_set]
  split_ifs with hi
  · subst hi
    rw [hk]
    exact congrArg some harr
  · rfl

section Tracked

variable {fs : List (List UInt8)} {cs : List (Call AccountId32)} {w : Uploader}

theorem Tracked.call (h : Tracked alice bob fs cs w) (c : Call AccountId32) :
    Tracked alice bob fs (cs ++ [c]) { w with chain := w.chain ++ [c] } :=
  ⟨h.files, h.built, perm_append_middle h.chain [c]⟩

theorem Tracked.drop (h : Tracked alice bob fs cs w) (files : List (List UInt8)) :
    Tracked alice bob (fs ++ files.take 1) cs { w with page := w.page.read files } := by
  refine ⟨?_, h.built, h.chain⟩
  have hreading : (w.page.read files).reading.map Reading.arr =
      w.page.reading.map Reading.arr ++ files.take 1 := by
    show (w.page.reading ++ (files.take 1).map (Reading.mk w.page.render)).map Reading.arr = _
    rw [List.map_append, List.map_map]
    exact congrArg _ (List.map_id _)
  show ((fs ++ files.take 1).filter Sendable).Perm
    (((w.page.read files).reading.map Reading.arr).filter Sendable ++ w.page.sent.map Sent.arr)
  rw [hreading, List.filter_append, List.filter_append]
  exact perm_append_middle h.files _

/-- The page itself takes a file from the list of those that are read to the list
of those that are sent, unless it has no text. -/
theorem Tracked.act (h : Tracked alice bob fs cs w) {p : AddCert}
    (heffect : AddCert.Effect alice bob w.page p) :
    Tracked alice bob fs cs { w with page := p } := by
  cases heffect with
  | idle => exact h
  | rerender => exact ⟨h.files, h.built, h.chain⟩
  | report ht => exact ⟨h.files, h.built, h.chain⟩
  | @fail j f hj hs =>
    have hno : ¬Sendable f.arr = true := fun hyes => signsend_ne_none hyes hs
    have hperm := ((perm_cons_eraseIdx hj).map Reading.arr).filter Sendable
    rw [List.map_cons, List.filter_cons_of_neg hno] at hperm
    exact ⟨h.files.trans (hperm.append_right _), h.built, h.chain⟩
  | @send j f transaction hj hs =>
    have hperm := ((perm_cons_eraseIdx hj).map Reading.arr).filter Sendable
    rw [List.map_cons, List.filter_cons_of_pos (call_of_signsend hs).1] at hperm
    refine ⟨?_, ?_, ?_⟩
    · show (fs.filter Sendable).Perm (((w.page.reading.eraseIdx j).map Reading.arr).filter Sendable
        ++ (w.page.sent ++ [(⟨f.render, f.arr, transaction, false⟩ : Sent)]).map Sent.arr)
      rw [List.map_append, ← List.append_assoc]
      exact (h.files.trans (hperm.append_right _)).trans (List.perm_append_singleton f.arr _).symm
    · intro t ht
      rcases List.mem_append.mp ht with ht | ht
      · exact h.built t ht
      · rw [List.mem_singleton.mp ht]
        exact hs
    · -- nothing is on the chain yet
      have hincluded : included (w.page.sent ++ [(⟨f.render, f.arr, transaction, false⟩ : Sent)]) =
          included w.page.sent := by simp [included]
      show w.chain.Perm (cs ++ (included (w.page.sent ++ [_])).map _)
      rw [hincluded]
      exact h.chain

theorem Tracked.mark (h : Tracked alice bob fs cs w) {k : ℕ} {t : Sent} {c : Call AccountId32}
    (hk : w.page.sent[k]? = some t) (hnew : t.included = false)
    (hc : t.transaction.call (.signed alice.address) = some c) :
    Tracked alice bob fs cs { w with
      chain := w.chain ++ [c]
      page.sent := w.page.sent.set k { t with included := true } } := by
  have hs := h.built t (List.mem_of_getElem? hk)
  obtain rfl : c = uploadCall alice bob t.arr :=
    Option.some.inj (hc.symm.trans (call_of_signsend hs).2)
  refine ⟨?_, ?_, ?_⟩
  · show (fs.filter Sendable).Perm (_ ++ (w.page.sent.set k _).map Sent.arr)
    have hmap := map_arr_set hk (u := { t with included := true }) rfl
    rw [hmap]
    exact h.files
  · intro u hu
    rcases List.mem_or_eq_of_mem_set hu with hu | rfl
    · exact h.built u hu
    · exact hs
  · have hset := ((included_set hk hnew).map (uploadCall alice bob)).append_left cs
    rw [List.map_append, ← List.append_assoc] at hset
    exact (h.chain.append_right _).trans hset.symm

/-- One action. -/
theorem Tracked.step (h : Tracked alice bob fs cs w) (a : Action) :
    Tracked alice bob (fs ++ dropped [a]) (cs ++ calls [a]) (Uploader.step alice bob w a).2 := by
  have heffect := step_effect alice bob w a
  generalize (Uploader.step alice bob w a).2 = w' at heffect ⊢
  cases heffect with
  | call c => simpa [dropped, calls] using h.call c
  | drop files => simpa [dropped, calls] using h.drop files
  | mark hk hnew hc => simpa [dropped, calls] using h.mark hk hnew hc
  | act hp hcalls hdrop =>
    have hnothing : dropped [a] = [] := by
      cases a with
      | drop files => exact absurd rfl (hdrop files)
      | call | rerender | load | block | update => rfl
    rw [hcalls, hnothing, List.append_nil, List.append_nil]
    exact h.act hp

theorem Tracked.exec (h : Tracked alice bob fs cs w) (as : List Action) :
    Tracked alice bob (fs ++ dropped as) (cs ++ calls as) (w.exec alice bob as) := by
  induction as generalizing fs cs w with
  | nil => simpa [dropped, calls, Uploader.exec] using h
  | cons a as ih =>
    have hdropped : dropped (a :: as) = dropped [a] ++ dropped as := by
      rw [dropped, dropped, dropped, ← List.flatMap_append]
      rfl
    have hcalls : calls (a :: as) = calls [a] ++ calls as := List.filterMap_append (l := [a])
    rw [hdropped, hcalls, ← List.append_assoc, ← List.append_assoc]
    exact ih (h.step a)

end Tracked

theorem tracked_exec (alice bob : KeyringPair) (as : List Action) :
    Tracked alice bob (dropped as) (calls as) (init.exec alice bob as) :=
  tracked_init.exec as

section

variable {fs : List (List UInt8)} {cs : List (Call AccountId32)} {w : Uploader}

/-- What was sent had been read. -/
theorem Tracked.mem_of_sent (h : Tracked alice bob fs cs w) {t : Sent} (ht : t ∈ w.page.sent) :
    t.arr ∈ fs := by
  have hsent : t.arr ∈ w.page.sent.map Sent.arr := List.mem_map_of_mem ht
  have hmem := h.files.symm.subset (List.mem_append_right _ hsent)
  exact (List.mem_filter.mp hmem).1

/-- What a block has taken is on the chain. -/
theorem Tracked.mem_chain (h : Tracked alice bob fs cs w) {arr : List UInt8}
    (harr : arr ∈ included w.page.sent) : uploadCall alice bob arr ∈ w.chain :=
  h.chain.symm.subset (List.mem_append_right _ (List.mem_map_of_mem harr))

/-- An action brings a call of others to the chain, or the call for a file. -/
theorem Tracked.mem_step (h : Tracked alice bob fs cs w) (a : Action) {c : Call AccountId32}
    (hc : c ∈ (Uploader.step alice bob w a).2.chain) :
    c ∈ w.chain ∨ c ∈ calls [a] ∨ ∃ arr ∈ fs, c = uploadCall alice bob arr := by
  have heffect := step_effect alice bob w a
  generalize (Uploader.step alice bob w a).2 = w' at heffect hc
  cases heffect with
  | act | drop => exact Or.inl hc
  | call d =>
    rcases List.mem_append.mp hc with hc | hc
    · exact Or.inl hc
    · exact Or.inr (Or.inl hc)
  | @mark k t d hk _ hd =>
    rcases List.mem_append.mp hc with hc | hc
    · exact Or.inl hc
    · obtain rfl := List.mem_singleton.mp hc
      have ht := List.mem_of_getElem? hk
      have hcall := (call_of_signsend (h.built t ht)).2
      exact Or.inr (Or.inr ⟨t.arr, h.mem_of_sent ht, Option.some.inj (hd.symm.trans hcall)⟩)

end

/-- Two key pairs of `sampleHost`. -/
def alicePair : KeyringPair := ⟨CertStore.alice, sampleSign CertStore.alice⟩

def bobPair : KeyringPair := ⟨CertStore.bob, sampleSign CertStore.bob⟩

/-- The variables refer to toasters, and a file is only read with one in the
`pt` of its rendering. -/
structure Wired (p : AddCert) : Prop where
  pt : ∀ r n, p.pt r = some n → n < p.toasters.length
  reading : ∀ f ∈ p.reading, p.pt f.render ≠ none

theorem length_toastersOn (p : AddCert) (r : ℕ) (f : List ToastAction → List ToastAction) :
    (p.toastersOn r f).length = p.toasters.length := by
  unfold AddCert.toastersOn
  rcases p.pt r with - | n
  · rfl
  · exact List.length_modify _ _ _

/-- The messages reach the toaster in the `pt` of the rendering. -/
theorem toastersOn_self {p : AddCert} {r n : ℕ} {log : List ToastAction}
    (hpt : p.pt r = some n) (hn : p.toasters[n]? = some log)
    (f : List ToastAction → List ToastAction) : (p.toastersOn r f)[n]? = some (f log) := by
  rw [AddCert.toastersOn, hpt]
  show (p.toasters.modify n f)[n]? = _
  rw [List.getElem?_modify_eq, hn]
  rfl

/-- They reach no other one. -/
theorem toastersOn_of_ne {p : AddCert} {r n : ℕ} (hpt : p.pt r ≠ some n)
    (f : List ToastAction → List ToastAction) : (p.toastersOn r f)[n]? = p.toasters[n]? := by
  unfold AddCert.toastersOn
  rcases hm : p.pt r with - | m
  · rfl
  · have hne : m ≠ n := fun e => hpt (e ▸ hm)
    show (p.toasters.modify m f)[n]? = _
    rw [List.getElem?_modify_ne _ _ hne]

theorem Wired.drop {p : AddCert} (h : Wired p) (files : List (List UInt8)) :
    Wired (p.read files) := by
  have hlen : (p.read files).toasters.length = p.toasters.length + 1 := List.length_append
  refine ⟨?_, ?_⟩
  · intro r n hpt
    rw [hlen]
    by_cases hr : r = p.render
    · subst hr
      have hself : (p.read files).pt p.render = some p.toasters.length :=
        Function.update_self _ _ _
      rw [hself] at hpt
      obtain rfl := Option.some.inj hpt
      exact Nat.lt_succ_self _
    · have hne : (p.read files).pt r = p.pt r := Function.update_of_ne hr _ _
      rw [hne] at hpt
      exact (h.pt r n hpt).trans (Nat.lt_succ_self _)
  · intro f hf
    show Function.update p.pt p.render (some p.toasters.length) f.render ≠ none
    by_cases hr : f.render = p.render
    · rw [hr, Function.update_self]
      exact Option.some_ne_none _
    · rw [Function.update_of_ne hr]
      rcases List.mem_append.mp hf with hf | hf
      · exact h.reading f hf
      · obtain ⟨arr, -, rfl⟩ := List.mem_map.mp hf
        exact absurd rfl hr

theorem Wired.effect {p p' : AddCert} (h : Wired p) (heffect : AddCert.Effect alice bob p p') :
    Wired p' := by
  cases heffect with
  | idle => exact h
  | rerender => exact ⟨h.pt, h.reading⟩
  | send | fail =>
    refine ⟨?_, fun f hf => h.reading f (List.mem_of_mem_eraseIdx hf)⟩
    intro r n hpt
    exact (h.pt r n hpt).trans_eq (length_toastersOn _ _ _).symm
  | report =>
    refine ⟨?_, h.reading⟩
    intro r n hpt
    exact (h.pt r n hpt).trans_eq (length_toastersOn _ _ _).symm

/-- What every action leaves of the page: what the toasters have shown, and the
transactions, with the rendering that each of them belongs to. -/
structure Extends (p p' : AddCert) : Prop where
  toasters : ∀ (n : ℕ) (log : List ToastAction), p.toasters[n]? = some log →
    ∃ added : List ToastAction, p'.toasters[n]? = some (log ++ added)
  sent : ∀ (k : ℕ) (t : Sent), p.sent[k]? = some t →
    ∃ t' : Sent, p'.sent[k]? = some t' ∧ t'.render = t.render

theorem Extends.refl (p : AddCert) : Extends p p := by
  refine ⟨?_, fun k t ht => ⟨t, ht, rfl⟩⟩
  intro n log hn
  exact ⟨[], by rw [hn, List.append_nil]⟩

theorem Extends.trans {p p' p'' : AddCert} (h : Extends p p') (h' : Extends p' p'') :
    Extends p p'' := by
  refine ⟨?_, ?_⟩
  · intro n log hn
    obtain ⟨added, hadded⟩ := h.toasters n log hn
    obtain ⟨more, hmore⟩ := h'.toasters n _ hadded
    exact ⟨added ++ more, by rw [hmore, List.append_assoc]⟩
  · intro k t ht
    obtain ⟨u, hu, hrender⟩ := h.sent k t ht
    obtain ⟨v, hv, hrender'⟩ := h'.sent k u hu
    exact ⟨v, hv, hrender'.trans hrender⟩

/-- Messages are added to at most one toaster. -/
theorem toastersOn_extends (p : AddCert) (r : ℕ) (added : List ToastAction) {n : ℕ}
    {log : List ToastAction} (hn : p.toasters[n]? = some log) :
    ∃ more, (p.toastersOn r (· ++ added))[n]? = some (log ++ more) := by
  by_cases hpt : p.pt r = some n
  · exact ⟨added, toastersOn_self hpt hn _⟩
  · exact ⟨[], by rw [toastersOn_of_ne hpt, hn, List.append_nil]⟩

theorem effect_extends {p p' : AddCert} (h : AddCert.Effect alice bob p p') : Extends p p' := by
  cases h with
  | idle => exact Extends.refl p
  | rerender => exact ⟨(Extends.refl p).toasters, (Extends.refl p).sent⟩
  | fail | report =>
    exact ⟨fun n log hn => toastersOn_extends _ _ _ hn, (Extends.refl p).sent⟩
  | send =>
    refine ⟨fun n log hn => toastersOn_extends _ _ _ hn, ?_⟩
    intro k t ht
    exact ⟨t, (List.getElem?_append_left (List.getElem?_eq_some_iff.mp ht).1).trans ht, rfl⟩

/-- Of the actions only a drop changes a `pt`. -/
theorem effect_pt {p p' : AddCert} (h : AddCert.Effect alice bob p p') : p'.pt = p.pt := by
  cases h <;> rfl

theorem step_wired (alice bob : KeyringPair) {w : Uploader} (h : Wired w.page) (a : Action) :
    Wired (step alice bob w a).2.page := by
  have heffect := step_effect alice bob w a
  generalize (step alice bob w a).2 = w' at heffect ⊢
  cases heffect with
  | call => exact h
  | drop files => exact h.drop files
  | act hp => exact h.effect hp
  | mark => exact ⟨h.pt, h.reading⟩

theorem step_extends (alice bob : KeyringPair) (w : Uploader) (a : Action) :
    Extends w.page (step alice bob w a).2.page := by
  have heffect := step_effect alice bob w a
  generalize (step alice bob w a).2 = w' at heffect ⊢
  cases heffect with
  | call => exact Extends.refl w.page
  | act hp => exact effect_extends hp
  | drop files =>
    -- a new toaster behind the others
    refine ⟨?_, (Extends.refl w.page).sent⟩
    intro n log hn
    refine ⟨[], ?_⟩
    show (w.page.toasters ++ [_])[n]? = _
    rw [List.getElem?_append_left (List.getElem?_eq_some_iff.mp hn).1, hn, List.append_nil]
  | @mark i u c hi hnew hc =>
    -- the transaction is marked, and keeps its rendering
    refine ⟨(Extends.refl w.page).toasters, ?_⟩
    intro k t ht
    obtain ⟨hlt, -⟩ := List.getElem?_eq_some_iff.mp ht
    by_cases hik : i = k
    · subst hik
      obtain rfl := Option.some.inj (hi.symm.trans ht)
      exact ⟨_, List.getElem?_set_self hlt, rfl⟩
    · exact ⟨t, (List.getElem?_set_ne hik).trans ht, rfl⟩

/-- Nothing is dropped on the rendering `r`. -/
def NotDroppedOn (r : ℕ) (w : Uploader) (a : Action) : Prop :=
  ∀ files, a = .drop files → w.page.render ≠ r

/-- The `pt` of a rendering stays, unless something is dropped on it. -/
theorem step_pt (alice bob : KeyringPair) {r : ℕ} {w : Uploader} {a : Action}
    (h : NotDroppedOn r w a) : (step alice bob w a).2.page.pt r = w.page.pt r := by
  have heffect := step_effect alice bob w a
  generalize (step alice bob w a).2 = w' at heffect ⊢
  cases heffect with
  | call | mark => rfl
  | drop files => exact Function.update_of_ne (h files rfl).symm _ _
  | act hp => exact congrFun (effect_pt hp) r

/-- A drop overwrites it with a new toaster. -/
theorem step_pt_of_dropped (alice bob : KeyringPair) {r : ℕ} {w : Uploader} {a : Action}
    (h : ¬NotDroppedOn r w a) :
    (step alice bob w a).2.page.pt r = some w.page.toasters.length := by
  unfold NotDroppedOn at h
  push Not at h
  obtain ⟨files, rfl, rfl⟩ := h
  exact Function.update_self _ _ _

/-- The `pt` of the rendering `r` is the toaster number `n` or a later one. -/
def PtFrom (r n : ℕ) (w : Uploader) : Prop :=
  Wired w.page ∧ ∃ m, n ≤ m ∧ w.page.pt r = some m

theorem PtFrom.step {r n : ℕ} {w : Uploader} (h : PtFrom r n w) (alice bob : KeyringPair)
    (a : Action) :
    PtFrom r n (Uploader.step alice bob w a).2 := by
  obtain ⟨hw, m, hm, hpt⟩ := h
  refine ⟨step_wired alice bob hw a, ?_⟩
  by_cases ha : NotDroppedOn r w a
  · exact ⟨m, hm, (step_pt alice bob ha).trans hpt⟩
  · exact ⟨_, hm.trans (hw.pt r m hpt).le, step_pt_of_dropped alice bob ha⟩

/-- **The variable of a rendering.**  After a run it still holds the same toaster
if and only if nothing has been dropped on this rendering.  The induction is on
the run; once overwritten, `pt` never comes back. -/
theorem pt_exec_iff (alice bob : KeyringPair) {r n : ℕ} {w : Uploader} (hw : Wired w.page)
    (hpt : w.page.pt r = some n) (as : List Action) :
    (w.exec alice bob as).page.pt r = some n ↔
      Machine.Along (step alice bob) (NotDroppedOn r) w as := by
  induction as generalizing w with
  | nil => exact ⟨fun _ => trivial, fun _ => hpt⟩
  | cons a as ih =>
    rw [Machine.along_cons]
    by_cases ha : NotDroppedOn r w a
    · have hrest := ih (step_wired alice bob hw a) ((step_pt alice bob ha).trans hpt)
      exact ⟨fun h => ⟨ha, hrest.mp h⟩, fun h => hrest.mpr h.2⟩
    · have hfrom : PtFrom r w.page.toasters.length (step alice bob w a).2 :=
        ⟨step_wired alice bob hw a, _, le_rfl, step_pt_of_dropped alice bob ha⟩
      obtain ⟨-, m, hm, hpt'⟩ := Machine.invariant_exec (I := PtFrom r w.page.toasters.length)
        (fun _ b h => h.step alice bob b) hfrom as
      refine ⟨?_, fun h => absurd h.1 ha⟩
      intro h
      obtain rfl := Option.some.inj (hpt'.symm.trans h)
      exact absurd (hw.pt r m hpt) hm.not_gt

theorem extends_exec (alice bob : KeyringPair) (w : Uploader) (as : List Action) :
    Extends w.page (w.exec alice bob as).page :=
  Machine.invariant_exec (I := fun w' : Uploader => Extends w.page w'.page)
    (fun w' a h => h.trans (step_extends alice bob w' a)) (Extends.refl w.page) as

theorem wired_exec (alice bob : KeyringPair) (as : List Action) :
    Wired (init.exec alice bob as).page := by
  refine Machine.invariant_exec (I := fun w : Uploader => Wired w.page)
    (fun w a h => step_wired alice bob h a) ⟨?_, ?_⟩ as
  · intro r n hpt
    cases hpt
  · intro f hf
    cases hf

theorem report_ne_nil {e : SubmittableResult} (he : e.isError = true ∨ e.isFinalized = true) :
    report e ≠ [] := by
  unfold report
  split_ifs with herr hfin
  · exact List.cons_ne_nil _ _
  · exact List.cons_ne_nil _ _
  · exact List.cons_ne_nil _ _
  · exact absurd he (by simp [herr, hfin])

/-- The upload of a file that has been read: it is announced on the toaster in
the `pt` of its rendering, and its transaction is the next one. -/
theorem load_announced (alice bob : KeyringPair) {p : AddCert} (h : Wired p) {j : ℕ}
    {f : Reading} (hj : p.reading[j]? = some f) (hlen : f.arr.length < 2 ^ 32) :
    ∃ n log, p.pt f.render = some n ∧ (p.load alice bob j).pt f.render = some n ∧
      (p.load alice bob j).toasters[n]? = some (log ++ announcements) ∧
      ∃ t : Sent, (p.load alice bob j).sent[p.sent.length]? = some t ∧ t.render = f.render := by
  obtain ⟨n, hpt⟩ := Option.ne_none_iff_exists'.mp (h.reading f (List.mem_of_getElem? hj))
  obtain ⟨log, hlog⟩ : ∃ log, p.toasters[n]? = some log :=
    ⟨_, List.getElem?_eq_getElem (h.pt _ _ hpt)⟩
  have hsend : signsend alice bob f.arr ≠ none := signsend_ne_none (decide_eq_true hlen)
  obtain ⟨transaction, hs⟩ := Option.ne_none_iff_exists'.mp hsend
  have hload : p.load alice bob j = { p with
      toasters := p.toastersOn f.render (· ++ announcements)
      reading := p.reading.eraseIdx j
      sent := p.sent ++ [⟨f.render, f.arr, transaction, false⟩] } := by
    simp only [AddCert.load, hj, hs]
  rw [hload]
  exact ⟨n, log, hpt, hpt, toastersOn_self hpt hlog _, _, List.getElem?_concat_length, rfl⟩

/-- **Where a report is shown.**  Let the file number `j` have been read and its
upload be announced, on the toaster number `n`.  Later, an update that ends its
transaction is reported on that toaster if and only if nothing has been dropped
since on the rendering that the file was dropped on; otherwise the toaster stays
as it is. -/
theorem report_reaches_iff (alice bob : KeyringPair) (pre as : List Action) (j : ℕ) (f : Reading)
    (hj : (init.exec alice bob pre).page.reading[j]? = some f) (hlen : f.arr.length < 2 ^ 32)
    (e : SubmittableResult) (he : e.isError = true ∨ e.isFinalized = true) :
    let k := (init.exec alice bob pre).page.sent.length
    let w₁ := init.exec alice bob (pre ++ [.load j])
    let w := w₁.exec alice bob as
    ∃ n log, announcements <:+: log ∧ w₁.page.pt f.render = some n ∧
      w.page.toasters[n]? = some log ∧
      ((w.exec alice bob [.update k e]).page.toasters[n]? = some (log ++ report e) ↔
        Machine.Along (step alice bob) (NotDroppedOn f.render) w₁ as) ∧
      ((w.exec alice bob [.update k e]).page.toasters[n]? = some log ↔
        ¬Machine.Along (step alice bob) (NotDroppedOn f.render) w₁ as) := by
  intro k w₁ w
  have hw₁ : w₁.page = (init.exec alice bob pre).page.load alice bob j :=
    congrArg Uploader.page (Machine.exec_concat init pre (.load j))
  obtain ⟨n, log, -, hpt, hlog, t, ht, hrender⟩ :=
    load_announced alice bob (wired_exec alice bob pre) hj hlen
  rw [← hw₁] at hpt hlog ht
  -- the run from there to the update
  have hextends : Extends w₁.page w.page := extends_exec alice bob w₁ as
  obtain ⟨added, hadded⟩ := hextends.toasters n _ hlog
  obtain ⟨u, hu, hrender'⟩ := hextends.sent k t ht
  have hiff : w.page.pt f.render = some n ↔
      Machine.Along (step alice bob) (NotDroppedOn f.render) w₁ as :=
    pt_exec_iff alice bob (wired_exec alice bob (pre ++ [.load j])) hpt as
  -- the update itself
  have hupdate : (w.exec alice bob [.update k e]).page.toasters =
      w.page.toastersOn f.render (· ++ report e) := by
    show (w.page.update k e).toasters = _
    rw [AddCert.update, hu]
    simp only [deliver_log, hrender'.trans hrender]
  have hne : ∀ l : List ToastAction, l ++ report e ≠ l :=
    fun l h => report_ne_nil he (List.append_right_eq_self.mp h)
  refine ⟨n, log ++ announcements ++ added, ⟨log, added, rfl⟩, hpt, hadded, ?_⟩
  rw [hupdate, ← hiff]
  by_cases hstill : w.page.pt f.render = some n
  · rw [toastersOn_self hstill hadded]
    refine ⟨⟨fun _ => hstill, fun _ => rfl⟩, ?_⟩
    exact ⟨fun h => absurd (Option.some.inj h) (hne _), fun h => absurd hstill h⟩
  · rw [toastersOn_of_ne hstill, hadded]
    refine ⟨⟨fun h => absurd (Option.some.inj h).symm (hne _), fun h => absurd h hstill⟩, ?_⟩
    exact ⟨fun _ => hstill, fun _ => rfl⟩

/-- The toaster of the first file is left with its announcements, since a second
file was dropped before the first transaction was finalized. -/
theorem report_reaches_lost :
    ∃ (n : ℕ) (log : List ToastAction), announcements <:+: log ∧
      (init.exec alicePair bobPair [.drop [[0]], .load 0, .drop [[]],
        .block 0, .update 0 (.finalized [])]).page.toasters[n]? = some log := by
  obtain ⟨n, log, hlog, -, -, -, hlost⟩ := report_reaches_iff alicePair bobPair
    [.drop [[0]]] [.drop [[]], .block 0] 0 ⟨0, [0]⟩ (by decide) (by decide) (.finalized [])
    (Or.inr rfl)
  refine ⟨n, log, hlog, ?_⟩
  apply hlost.mpr
  intro h
  exact h.1 [[]] rfl rfl

end Uploader

end CertStore
