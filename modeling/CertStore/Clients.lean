/-
CertStore/Clients.lean

The reading clients, `CheckCert.tsx` and `getcert` of `signer.js`, next to
writers on one growing chain.

A client reads the counter, then the array at indices computed from it, then
certificates by hash.  Each read is an action of its own, and calls of
`add_cert` by anybody may stand between any two of them: an interleaving is a
list of actions, and a list of actions is a run of the machine `World.step`.
The batched query `certificateArray.multi` is the case in which no call stands
between the reads of the indices.

The invariant of a client that has read the count is `Consistent`: the chain
has grown out of the one it read the count from, and what it has read is what
that chain listed, one index for each read so far.  Two facts about growing
journals carry it, that the array below an old counter does not change
(`Ledger.array_entry_append`) and that the hashes listed there stay keys of the
table (`Ledger.exists_entry_append`).
-/
import CertStore.Table
import CertStore.Index

namespace CertStore

open Scale

variable {A : Type} {host : Host}

/-! ### What the clients ask for -/

/-- A `u128` as a JavaScript number.  From `2 ^ 53` on the conversion rounds,
which is outside the model. -/
def toNumber (n : U128) : Option ℕ := if n.val < 2 ^ 53 then some n.val else none

/-- `Array.from({ length: len }, (v, k) => k)`, a `RangeError` from `2 ^ 32` on. -/
def arrayFrom (len : ℕ) : Option (List ℕ) := if len < 2 ^ 32 then some (List.range len) else none

/-- A JavaScript index as the key of a query. -/
def indexKey (k : ℕ) : U128 := ⟨k % 2 ^ 128, Nat.mod_lt k (by decide)⟩

theorem indexKey_val {k : ℕ} (h : k ≤ U128.max) : (indexKey k).val = k :=
  Nat.mod_eq_of_lt (Nat.lt_succ_of_le h)

/-- The two clients. -/
inductive Client
  | checkCert
  | getcert
deriving DecidableEq

/-- The indices that a client reads after it has read the count. -/
def Client.request : Client → U128 → Option (List ℕ)
  -- `Array.from({ length: len }, (v, k) => k).reverse()`
  | .checkCert, count => do
    let len ← toNumber count
    let ks ← arrayFrom len
    return ks.reverse
  -- `(await certificateCount()) - 1`, which is no index for an empty array
  | .getcert, count => do
    let n ← toNumber count
    if n = 0 then none else some [n - 1]

/-- The indices that a client should read when the count is `n`. -/
def Client.indices : Client → ℕ → List ℕ
  | .checkCert, n => (List.range n).reverse
  | .getcert, n => [n - 1]

/-- Below `2 ^ 32` the clients compute the indices they should read. -/
theorem Client.request_eq {client : Client} {count : U128} (h : count.val < 2 ^ 32)
    (hone : client = .getcert → 1 ≤ count.val) :
    client.request count = some (client.indices count.val) := by
  have hnum : toNumber count = some count.val := if_pos (by omega)
  cases client with
  | checkCert =>
    have harr : arrayFrom count.val = some (List.range count.val) := if_pos h
    show (toNumber count >>= fun len => arrayFrom len >>= fun ks => some ks.reverse) = _
    rw [hnum, Option.bind_eq_bind, Option.bind_some, harr]
    rfl
  | getcert =>
    have hne : count.val ≠ 0 := by
      have := hone rfl
      omega
    show (toNumber count >>= fun n => if n = 0 then none else some [n - 1]) = _
    rw [hnum, Option.bind_eq_bind, Option.bind_some]
    exact if_neg hne

theorem Client.lt_of_mem_indices {client : Client} {n k : ℕ}
    (hone : client = .getcert → 1 ≤ n) (hk : k ∈ client.indices n) : k < n := by
  cases client with
  | checkCert => simpa [indices] using hk
  | getcert =>
    have hn := hone rfl
    have hk' : k = n - 1 := by simpa [indices] using hk
    omega

/-! ### Interleavings -/

/-- How far the client is: it has not read the count yet, or it has the hashes
it read and the indices still to read. -/
inductive Phase
  | start
  | listing (todo : List ℕ) (hashes : List H256)
deriving DecidableEq

/-- The chain and one client. -/
structure World (A : Type) where
  chain : State A
  phase : Phase

/-- An empty chain and a client that has not started. -/
def World.init : World A := ⟨.empty, .start⟩

inductive Action (A : Type)
  /-- Anybody calls `add_cert`. -/
  | call (c : Call A)
  /-- The client reads `certificateCount()`. -/
  | readCount
  /-- The client reads `certificateArray(k)` for the next index `k`. -/
  | readIndex
  /-- The client reads `certificates(h)` for a hash that it obtained. -/
  | fetch (h : H256)

/-- What an action returns to whoever took it. -/
inductive Reply
  | result (r : DispatchResult)
  | count (n : U128)
  | hash (h : H256)
  | certificate (cert : Certificate)
deriving DecidableEq

/-- One action; where it is not possible there is no reply and no change. -/
def World.step (host : Host) (client : Client) (w : World A) :
    Action A → Option Reply × World A
  | .call c =>
    let (r, chain) := CertStore.step host w.chain c
    (some (.result r), { w with chain := chain })
  | .readCount =>
    let count := w.chain.certificateCount
    match w.phase, client.request count with
    | .start, some ks => (some (.count count), { w with phase := .listing ks [] })
    | _, _ => (none, w)
  | .readIndex =>
    match w.phase with
    | .listing (k :: todo) hashes =>
      let h := w.chain.certificateArray.get (indexKey k)
      (some (.hash h), { w with phase := .listing todo (hashes ++ [h]) })
    | _ => (none, w)
  | .fetch h =>
    match w.phase with
    | .listing _ hashes =>
      if h ∈ hashes then (some (.certificate (w.chain.cert h)), w) else (none, w)
    | .start => (none, w)

/-- The world after a list of actions. -/
def World.exec (host : Host) (client : Client) (w : World A) (as : List (Action A)) : World A :=
  Machine.exec (World.step host client) w as

/-- The calls among a list of actions. -/
def calls (as : List (Action A)) : List (Call A) :=
  as.filterMap fun
    | .call c => some c
    | _ => none

/-- The action asks for an entry of the array. -/
def Action.isReadIndex : Action A → Bool
  | .readIndex => true
  | _ => false

/-- How many entries of the array a list of actions asks for. -/
def indexReads (as : List (Action A)) : ℕ := as.countP Action.isReadIndex

/-- The chain sees a step only if it is a call. -/
theorem World.step_chain (client : Client) (w : World A) (a : Action A) :
    (w.step host client a).2.chain = run host w.chain (calls [a]) := by
  cases a with
  | call c => rfl
  | readCount =>
    show (w.step host client .readCount).2.chain = w.chain
    rcases hp : w.phase with - | ⟨todo, hashes⟩ <;>
      rcases hr : client.request w.chain.certificateCount with - | ks <;>
        simp [World.step, hp, hr]
  | readIndex =>
    show (w.step host client .readIndex).2.chain = w.chain
    rcases hp : w.phase with - | ⟨_ | ⟨k, todo⟩, hashes⟩ <;> simp [World.step, hp]
  | fetch h =>
    show (w.step host client (.fetch h)).2.chain = w.chain
    rcases hp : w.phase with - | ⟨todo, hashes⟩
    · simp [World.step, hp]
    · by_cases hmem : h ∈ hashes <;> simp [World.step, hp, hmem]

/-- The chain sees the calls among the actions and nothing else. -/
theorem World.exec_chain (client : Client) (w : World A) (as : List (Action A)) :
    (w.exec host client as).chain = run host w.chain (calls as) := by
  induction as generalizing w with
  | nil => rfl
  | cons a as ih =>
    have hcalls : calls (a :: as) = calls [a] ++ calls as := by
      rw [calls, calls, calls, ← List.filterMap_append]
      rfl
    show ((w.step host client a).2.exec host client as).chain = _
    rw [ih, World.step_chain, hcalls, run, run, run, Machine.exec_append]

/-! ### Consistent reads -/

/-- The client read the count from the chain of the journal `L`, had `ks` to read
and has asked `m` times since.  The chain has grown, and what has been read is
what stood there. -/
structure Consistent (L : List (Submission host A)) (ks : List ℕ) (m : ℕ) (w : World A) :
    Prop where
  grown : ∃ M, w.chain = Ledger.state (L ++ M)
  phase : w.phase =
    .listing (ks.drop m) ((ks.take m).map fun k => (Ledger.array L).get (indexKey k))

/-- The next index is read from an array that agrees with the old one. -/
theorem Consistent.readIndex {L : List (Submission host A)} {ks : List ℕ} {m : ℕ} {w : World A}
    (hks : ∀ k ∈ ks, (indexKey k).val < (Ledger.count L).val) (client : Client)
    (hw : Consistent L ks m w) :
    (w.step host client .readIndex).2.phase = .listing (ks.drop (m + 1))
      ((ks.take (m + 1)).map fun k => (Ledger.array L).get (indexKey k)) := by
  obtain ⟨M, hM⟩ := hw.grown
  rcases Nat.lt_or_ge m ks.length with hlt | hge
  · have hphase := hw.phase
    rw [List.drop_eq_getElem_cons hlt] at hphase
    have hget : w.chain.certificateArray.get (indexKey ks[m]) =
        (Ledger.array L).get (indexKey ks[m]) := by
      rw [hM]
      exact StorageMap.get_congr (Ledger.array_entry_append (hks _ (List.getElem_mem hlt)) M)
    rw [List.take_succ_eq_append_getElem hlt, List.map_append]
    simp only [World.step, hphase, hget, List.map_cons, List.map_nil]
  · -- there is nothing left to read
    have hphase := hw.phase
    rw [List.drop_of_length_le hge, List.take_of_length_le hge] at hphase
    rw [List.drop_of_length_le (by omega), List.take_of_length_le (by omega)]
    simp [World.step, hphase]

theorem Consistent.step {L : List (Submission host A)} {ks : List ℕ} {m : ℕ} {w : World A}
    (hks : ∀ k ∈ ks, (indexKey k).val < (Ledger.count L).val) (client : Client) (a : Action A)
    (hw : Consistent L ks m w) :
    Consistent L ks (m + indexReads [a]) (w.step host client a).2 := by
  refine ⟨?_, ?_⟩
  · obtain ⟨M, hM⟩ := hw.grown
    refine ⟨M ++ submissions host (calls [a]), ?_⟩
    rw [World.step_chain, hM, run_state, List.append_assoc]
  · cases a with
    | call c => exact hw.phase
    | readCount =>
      have hsame : (w.step host client .readCount).2 = w := by simp [World.step, hw.phase]
      rw [hsame]
      exact hw.phase
    | readIndex => exact hw.readIndex hks client
    | fetch h =>
      have hsame : (w.step host client (.fetch h)).2 = w := by
        simp only [World.step, hw.phase]
        split_ifs <;> rfl
      rw [hsame]
      exact hw.phase

theorem Consistent.exec {L : List (Submission host A)} {ks : List ℕ} {m : ℕ} {w : World A}
    (hks : ∀ k ∈ ks, (indexKey k).val < (Ledger.count L).val) (client : Client)
    (hw : Consistent L ks m w) (as : List (Action A)) :
    Consistent L ks (m + indexReads as) (w.exec host client as) := by
  induction as generalizing m w with
  | nil => exact hw
  | cons a as ih =>
    have hreads : indexReads (a :: as) = indexReads [a] + indexReads as := by
      rw [← List.singleton_append, indexReads, List.countP_append]
      rfl
    rw [hreads, ← Nat.add_assoc]
    exact ih (hw.step hks client a)

/-- A certificate that a consistent client reads is a stored one, and the client
can read the certificate of each hash that it has. -/
theorem Consistent.fetch {L : List (Submission host A)} {ks : List ℕ} {m : ℕ} {w : World A}
    (hks : ∀ k ∈ ks, (indexKey k).val < (Ledger.count L).val) (client : Client)
    (hw : Consistent L ks m w) {h : H256}
    (hh : h ∈ (ks.take m).map fun k => (Ledger.array L).get (indexKey k)) :
    ∃ cert, (w.step host client (.fetch h)).1 = some (.certificate cert) ∧
      w.chain.certificates.entry h = some cert ∧ Authentic host h cert := by
  obtain ⟨M, hM⟩ := hw.grown
  obtain ⟨k, hk, rfl⟩ := List.mem_map.mp hh
  obtain ⟨cert, hentry⟩ := Ledger.exists_entry_append (hks k (List.mem_of_mem_take hk)) M
  have hstored : w.chain.certificates.entry ((Ledger.array L).get (indexKey k)) = some cert := by
    rw [hM]
    exact hentry
  have hcert : w.chain.cert ((Ledger.array L).get (indexKey k)) = cert :=
    StorageMap.get_of_entry hstored
  refine ⟨cert, ?_, hstored, authentic_of_entry hentry⟩
  simp only [World.step, hw.phase, if_pos hh, hcert]

/-- It gets a reply for no other hash. -/
theorem Consistent.mem_of_fetch {L : List (Submission host A)} {ks : List ℕ} {m : ℕ}
    {w : World A} {client : Client} (hw : Consistent L ks m w) {h : H256} {r : Reply}
    (hreply : (w.step host client (.fetch h)).1 = some r) :
    h ∈ (ks.take m).map fun k => (Ledger.array L).get (indexKey k) := by
  by_contra hmem
  simp only [World.step, hw.phase, if_neg hmem] at hreply
  cases hreply

/-- The indices that a client computes from a count lie below it. -/
theorem Client.indexKey_lt {client : Client} {count : U128}
    (hone : client = .getcert → 1 ≤ count.val) :
    ∀ k ∈ client.indices count.val, (indexKey k).val < count.val := by
  intro k hk
  have hlt := Client.lt_of_mem_indices hone hk
  rwa [indexKey_val (hlt.le.trans (U128.le_max _))]

/-- The invariant from the count on. -/
theorem consistent_exec {L : List (Submission host A)} {w : World A} {client : Client}
    (hchain : w.chain = Ledger.state L) (hstart : w.phase = .start)
    (hn : (Ledger.count L).val < 2 ^ 32)
    (hone : client = .getcert → 1 ≤ (Ledger.count L).val) (post : List (Action A)) :
    Consistent L (client.indices (Ledger.count L).val) (indexReads post)
      (w.exec host client (.readCount :: post)) := by
  have hreq : client.request w.chain.certificateCount =
      some (client.indices (Ledger.count L).val) := by
    rw [hchain]
    exact Client.request_eq hn hone
  have hread : Consistent L (client.indices (Ledger.count L).val) 0
      (w.step host client .readCount).2 := by
    refine ⟨⟨[], ?_⟩, ?_⟩
    · rw [World.step_chain, List.append_nil]
      exact hchain
    · simp only [World.step, hstart, hreq]
      rfl
  have hexec := hread.exec (Client.indexKey_lt hone) client post
  rwa [Nat.zero_add] at hexec

/-- The entries of the array at the time of the count are the hashes of the
accepted calls. -/
theorem getElem?_accepted {cs : List (Call A)} {k : ℕ}
    (hk : k < (Ledger.count (submissions host cs)).val) :
    ∃ c, (accepted host cs)[k]? = some c ∧
      (Ledger.array (submissions host cs)).entry (indexKey k) =
        some (host.blake2_256 c.data) := by
  have hval : (indexKey k).val = k := indexKey_val (hk.le.trans (U128.le_max _))
  obtain ⟨sub, hsub, hentry, -⟩ := Ledger.exists_submission (hval.symm ▸ hk)
  rw [hval] at hsub
  refine ⟨sub.call, ?_, hentry⟩
  rw [accepted_eq, ← map_call_submissions,
    List.getElem?_take_of_lt (hk.trans_le (U128.le_max _)), List.getElem?_map, hsub]
  rfl

/-- What the client is after, given the hashes of the accepted calls: all of them,
the newest first, or the last one. -/
def Client.wanted : Client → List H256 → List H256
  | .checkCert, hashes => hashes.reverse
  | .getcert, hashes => hashes.getLast?.toList

/-- That is what stands at its indices. -/
theorem Client.map_indices {client : Client} {hashes : List H256} {get : ℕ → H256} {n : ℕ}
    (hn : hashes.length = n) (hget : ∀ k < n, hashes[k]? = some (get k))
    (hone : client = .getcert → 1 ≤ n) :
    (client.indices n).map get = client.wanted hashes := by
  subst hn
  cases client with
  | checkCert =>
    have hrange : (List.range hashes.length).map get = hashes := by
      apply List.ext_getElem?
      intro k
      rcases Nat.lt_or_ge k hashes.length with hk | hk
      · rw [List.getElem?_map, List.getElem?_range hk, hget k hk]
        rfl
      · rw [List.getElem?_eq_none hk, List.getElem?_eq_none (by simpa using hk)]
    show (List.range hashes.length).reverse.map get = hashes.reverse
    rw [List.map_reverse, hrange]
  | getcert =>
    have hlen := hone rfl
    show [get (hashes.length - 1)] = hashes.getLast?.toList
    rw [List.getLast?_eq_getElem?, hget _ (by omega)]
    rfl

/-- **Consistent reads.**  Let a client read the count, `n < 2 ^ 32`, after the
actions `pre`, and let `post` be any interleaving of its further reads with
calls of others.  The count is the number of calls accepted by then.  Each read of
an index gives the next one of the entries that the array held at the time of the
count, in the order `n - 1, ..., 0` for `CheckCert` and at `n - 1` for `getcert`,
and these are the hashes of the accepted calls; so after as many reads as there
are indices the client has what it is after.  It can read the certificate of every
hash that it has obtained, and every certificate it reads is stored and
authentic. -/
theorem reads_consistent (host : Host) (client : Client) (pre post : List (Action A))
    (hstart : (World.init.exec host client pre).phase = .start)
    (hn : (World.init.exec host client pre).chain.certificateCount.val < 2 ^ 32)
    (hone : client = .getcert →
      1 ≤ (World.init.exec host client pre).chain.certificateCount.val) :
    let w₀ := World.init.exec host client pre
    let n := w₀.chain.certificateCount.val
    let ks := client.indices n
    let w := w₀.exec host client (.readCount :: post)
    let obtained := (ks.take (indexReads post)).map fun k =>
      w₀.chain.certificateArray.get (indexKey k)
    (accepted host (calls pre)).length = n ∧
    w.phase = .listing (ks.drop (indexReads post)) obtained ∧
    (∀ k ∈ ks, ∃ c, (accepted host (calls pre))[k]? = some c ∧
      w₀.chain.certificateArray.entry (indexKey k) = some (host.blake2_256 c.data)) ∧
    (ks.length ≤ indexReads post → w.phase = .listing [] (client.wanted
      ((accepted host (calls pre)).map fun c => host.blake2_256 c.data))) ∧
    (∀ h ∈ obtained, ∃ cert, (w.step host client (.fetch h)).1 = some (.certificate cert)) ∧
    (∀ h cert, (w.step host client (.fetch h)).1 = some (.certificate cert) →
      w.chain.certificates.entry h = some cert ∧ Authentic host h cert) := by
  intro w₀ n ks w obtained
  obtain ⟨L, hL⟩ : ∃ L, L = submissions host (calls pre) := ⟨_, rfl⟩
  have hchain : w₀.chain = Ledger.state L := by
    rw [hL, ← run_empty]
    exact World.exec_chain client World.init pre
  have hcount : w₀.chain.certificateCount = Ledger.count L :=
    congrArg State.certificateCount hchain
  have hw : Consistent L ks (indexReads post) w := by
    rw [hcount] at hn hone
    show Consistent L (client.indices w₀.chain.certificateCount.val) _ _
    rw [hcount]
    exact consistent_exec hchain hstart hn hone post
  have hks : ∀ k ∈ ks, (indexKey k).val < (Ledger.count L).val := by
    rw [← hcount]
    exact Client.indexKey_lt hone
  have hobtained : obtained = (ks.take (indexReads post)).map fun k =>
      (Ledger.array L).get (indexKey k) := by
    show (ks.take (indexReads post)).map (fun k => w₀.chain.certificateArray.get _) = _
    rw [hchain]
    rfl
  have hphase : w.phase = .listing (ks.drop (indexReads post)) obtained := by
    rw [hobtained]
    exact hw.phase
  have hlength : (accepted host (calls pre)).length = n := by
    rw [length_accepted, ← hL, ← hcount]
  have hentries : ∀ k < n, ∃ c, (accepted host (calls pre))[k]? = some c ∧
      w₀.chain.certificateArray.entry (indexKey k) = some (host.blake2_256 c.data) := by
    intro k hk
    rw [← hlength, length_accepted] at hk
    rw [hchain, hL]
    exact getElem?_accepted hk
  refine ⟨hlength, hphase, ?_, ?_, ?_, ?_⟩
  · exact fun k hk => hentries k (Client.lt_of_mem_indices hone hk)
  · -- all indices have been read
    intro hall
    have hwanted : ks.map (fun k => w₀.chain.certificateArray.get (indexKey k)) =
        client.wanted ((accepted host (calls pre)).map fun c => host.blake2_256 c.data) := by
      refine Client.map_indices (by rw [List.length_map, hlength]) ?_ hone
      intro k hk
      obtain ⟨c, hc, hentry⟩ := hentries k hk
      rw [List.getElem?_map, hc, StorageMap.get_of_entry hentry]
      rfl
    rw [hphase, List.drop_of_length_le hall, ← hwanted]
    show Phase.listing [] ((ks.take (indexReads post)).map _) = _
    rw [List.take_of_length_le hall]
  · intro h hh
    obtain ⟨cert, hreply, -⟩ := hw.fetch hks client (hobtained ▸ hh)
    exact ⟨cert, hreply⟩
  · intro h cert hreply
    obtain ⟨cert', hreply', hstored⟩ := hw.fetch hks client (hw.mem_of_fetch hreply)
    rw [hreply] at hreply'
    obtain rfl : cert = cert' := Reply.certificate.inj (Option.some.inj hreply')
    exact hstored

/-- `CheckCert` reads the count and one hash, the same data comes in again
without its signature, and then the client reads the certificate. -/
theorem reads_consistent_overwritten :
    let w₀ := World.init.exec sampleHost .checkCert [.call signedCall]
    let w := w₀.exec sampleHost .checkCert [.readCount, .readIndex, .call unsignedCall]
    w.phase = .listing [] [sampleDigest []] ∧
      w.chain.certificates.entry (sampleDigest []) = some ⟨[], sampleDigest [], []⟩ ∧
      Authentic sampleHost (sampleDigest []) ⟨[], sampleDigest [], []⟩ := by
  intro w₀ w
  obtain ⟨-, -, -, hall, -, hfetch⟩ := reads_consistent sampleHost .checkCert [.call signedCall]
    [.readIndex, .call unsignedCall] (by decide) (by decide) (by decide)
  exact ⟨(hall (by decide)).trans (by decide), hfetch _ _ (by decide)⟩

end CertStore
