/-
CertStore/Site.lean

All the pages of the application in front of one chain.

Any number of upload pages and of viewer pages are open at the same time, next to
those who call the chain in other ways.  What the pages share is the chain:
`uploader_exec` and `viewer_exec` say that in a run of the whole each page does
what it does alone, over its own actions and over the calls that the others bring
to the chain.  So the invariants of a single page hold in the whole.

The two results are about the two ends of the way of a file.  `site_provenance`
says where everything comes from that a viewer page lists, shows or saves;
`dropped_saved` that a file which was dropped on one page can be saved from
another one, as it was.
-/
import CertStore.Uploader
import CertStore.Viewer

namespace CertStore

open Scale

/-! ### A page among calls of others -/

/-- The chain of an upload page only grows. -/
theorem Uploader.step_chain (alice bob : KeyringPair) (w : Uploader) (a : Uploader.Action) :
    ∃ cs, (Uploader.step alice bob w a).2.chain = w.chain ++ cs := by
  have heffect := Uploader.step_effect alice bob w a
  generalize (Uploader.step alice bob w a).2 = w' at heffect ⊢
  cases heffect with
  | call c => exact ⟨[c], rfl⟩
  | @mark _ _ c => exact ⟨[c], rfl⟩
  | drop | act => exact ⟨[], (List.append_nil _).symm⟩

/-- Calls of others leave an upload page alone. -/
theorem Uploader.exec_calls (alice bob : KeyringPair) (w : Uploader)
    (cs : List (Call AccountId32)) :
    w.exec alice bob (cs.map .call) = { w with chain := w.chain ++ cs } := by
  induction cs generalizing w with
  | nil =>
    show w = { w with chain := w.chain ++ [] }
    rw [List.append_nil]
  | cons c cs ih =>
    show Uploader.exec alice bob { w with chain := w.chain ++ [c] } (cs.map .call) = _
    rw [ih, List.append_assoc]
    rfl

theorem Viewer.step_chain (host : Host) (codecHash : Certificate → H256) (w : Viewer AccountId32)
    (a : Viewer.Action AccountId32) :
    (Viewer.step host codecHash w a).2.chain = run host w.chain (Viewer.calls [a]) := by
  have heffect := Viewer.step_effect host codecHash w a
  generalize (Viewer.step host codecHash w a).2 = w' at heffect ⊢
  cases heffect with
  | idle ha =>
    rw [ha]
    rfl
  | call | failed | counted | fetched | listed | page => rfl

/-- Calls leave a viewer page alone. -/
theorem Viewer.exec_calls (host : Host) (codecHash : Certificate → H256) (w : Viewer AccountId32)
    (cs : List (Call AccountId32)) :
    w.exec host codecHash (cs.map .call) = { w with chain := run host w.chain cs } := by
  induction cs generalizing w with
  | nil => rfl
  | cons c cs ih =>
    show Viewer.exec host codecHash { w with chain := (CertStore.step host w.chain c).2 }
      (cs.map .call) = _
    rw [ih]
    rfl

theorem Viewer.calls_map (cs : List (Call AccountId32)) : Viewer.calls (cs.map .call) = cs := by
  induction cs with
  | nil => rfl
  | cons c cs ih =>
    show Viewer.calls ([.call c] ++ cs.map .call) = _
    rw [Viewer.calls_append, ih]
    rfl

/-! ### The site -/

/-- What the pages and the chain run with: the host functions of the runtime, the
property `hash` of the client's codec, and the key pairs of the upload pages. -/
structure Env where
  host : Host
  codecHash : Certificate → H256
  alice : KeyringPair
  bob : KeyringPair

variable {env : Env}

/-- A viewer page, without the chain in front of which it stands. -/
structure Reader where
  loading : Loading
  page : CheckCert

/-- The calls that the blocks have taken so far, and the pages. -/
structure Site where
  chain : List (Call AccountId32)
  uploaders : ℕ → AddCert
  readers : ℕ → Reader

namespace Site

/-- An empty chain, and pages that have just been mounted. -/
def init : Site := ⟨[], fun _ => .init, fun _ => ⟨.start, .init⟩⟩

/-- The upload page number `i`, with the chain. -/
def uploader (w : Site) (i : ℕ) : Uploader := ⟨w.chain, w.uploaders i⟩

/-- The viewer page number `j`, with the storage behind the chain. -/
def viewer (env : Env) (w : Site) (j : ℕ) : Viewer AccountId32 :=
  ⟨run env.host .empty w.chain, (w.readers j).loading, (w.readers j).page⟩

/-- An action of one page.  A call of those who use no page may stand with any. -/
inductive Action
  | upload (i : ℕ) (a : Uploader.Action)
  | view (j : ℕ) (a : Viewer.Action AccountId32)

def step (env : Env) (w : Site) : Action → Unit × Site
  | .upload i a =>
    let u := (Uploader.step env.alice env.bob (w.uploader i) a).2
    ((), { w with chain := u.chain, uploaders := Function.update w.uploaders i u.page })
  | .view j a =>
    let v := (Viewer.step env.host env.codecHash (w.viewer env j) a).2
    ((), { w with
      chain := w.chain ++ Viewer.calls [a]
      readers := Function.update w.readers j ⟨v.loading, v.page⟩ })

/-- The chain and the pages after a list of actions. -/
def exec (env : Env) (w : Site) (as : List Action) : Site :=
  Machine.exec (step env) w as

/-- The calls of those who use no page. -/
def calls (as : List Action) : List (Call AccountId32) :=
  as.flatMap fun
    | .upload _ a => Uploader.calls [a]
    | .view _ a => Viewer.calls [a]

/-- The files that are read, on whichever page they were dropped. -/
def dropped (as : List Action) : List (List UInt8) :=
  as.flatMap fun
    | .upload _ a => Uploader.dropped [a]
    | .view _ _ => []

theorem calls_append (as bs : List Action) : calls (as ++ bs) = calls as ++ calls bs :=
  List.flatMap_append

theorem dropped_append (as bs : List Action) : dropped (as ++ bs) = dropped as ++ dropped bs :=
  List.flatMap_append

/-! ### What a page sees of the others -/

/-- The calls that an action brings to the chain. -/
def added (env : Env) (w : Site) (a : Action) :
    List (Call AccountId32) :=
  (step env w a).2.chain.drop w.chain.length

theorem chain_step (env : Env) (w : Site) (a : Action) :
    (step env w a).2.chain = w.chain ++ added env w a := by
  have hgrown : ∃ cs, (step env w a).2.chain = w.chain ++ cs := by
    cases a with
    | upload i a => exact Uploader.step_chain env.alice env.bob (w.uploader i) a
    | view j a => exact ⟨_, rfl⟩
  obtain ⟨cs, hcs⟩ := hgrown
  rw [added, hcs, List.drop_left]

/-- The upload page number `i` sees its own actions, and the calls of others. -/
def uploaderView (env : Env) (i : ℕ) (w : Site) (a : Action) :
    List Uploader.Action :=
  match a with
  | .upload k b => if k = i then [b] else (added env w a).map .call
  | .view _ _ => (added env w a).map .call

/-- The viewer page number `j` sees its own actions, and the calls of others. -/
def viewerView (env : Env) (j : ℕ) (w : Site) (a : Action) :
    List (Viewer.Action AccountId32) :=
  match a with
  | .view k b => if k = j then [b] else (added env w a).map .call
  | .upload _ _ => (added env w a).map .call

theorem uploader_step (env : Env) (i : ℕ) (w : Site) (a : Action) :
    (step env w a).2.uploader i =
      (w.uploader i).exec env.alice env.bob (uploaderView env i w a) := by
  have hothers : (step env w a).2.uploaders i = w.uploaders i →
      (step env w a).2.uploader i =
        (w.uploader i).exec env.alice env.bob ((added env w a).map .call) := by
    intro hpage
    rw [Uploader.exec_calls, uploader, hpage, chain_step]
    rfl
  cases a with
  | upload k b =>
    by_cases hk : k = i
    · subst hk
      rw [uploaderView, if_pos rfl]
      show Uploader.mk _ (Function.update w.uploaders k _ k) = _
      rw [Function.update_self]
      rfl
    · rw [uploaderView, if_neg hk]
      exact hothers (Function.update_of_ne (Ne.symm hk) _ _)
  | view k b => exact hothers rfl

theorem viewer_step (env : Env) (j : ℕ) (w : Site) (a : Action) :
    (step env w a).2.viewer env j =
      (w.viewer env j).exec env.host env.codecHash (viewerView env j w a) := by
  have hrun : run env.host .empty (step env w a).2.chain =
      run env.host (run env.host .empty w.chain) (added env w a) := by
    rw [chain_step]
    exact Machine.exec_append _ _ _
  have hothers : (step env w a).2.readers j = w.readers j →
      (step env w a).2.viewer env j =
        (w.viewer env j).exec env.host env.codecHash ((added env w a).map .call) := by
    intro hpage
    rw [Viewer.exec_calls, viewer, hpage, hrun]
    rfl
  cases a with
  | view k b =>
    by_cases hk : k = j
    · subst hk
      have hadded : added env w (.view k b) = Viewer.calls [b] := List.drop_left
      have hchain := Viewer.step_chain env.host env.codecHash (w.viewer env k) b
      rw [hadded] at hrun
      rw [viewerView, if_pos rfl, viewer, hrun]
      show Viewer.mk (run env.host (w.viewer env k).chain _)
        (Function.update w.readers k _ k).loading (Function.update w.readers k _ k).page = _
      rw [← hchain, Function.update_self]
      rfl
    · rw [viewerView, if_neg hk]
      exact hothers (Function.update_of_ne (Ne.symm hk) _ _)
  | upload k b => exact hothers rfl

/-- What the upload page number `i` sees of a run. -/
def seenByUploader (env : Env) (i : ℕ) (w : Site) (as : List Action) :
    List Uploader.Action :=
  Machine.seen (step env) (uploaderView env i) w as

/-- What the viewer page number `j` sees of a run. -/
def seenByViewer (env : Env) (j : ℕ) (w : Site) (as : List Action) :
    List (Viewer.Action AccountId32) :=
  Machine.seen (step env) (viewerView env j) w as

/-- Each upload page does what it does alone. -/
theorem uploader_exec (env : Env) (i : ℕ) (w : Site)
    (as : List Action) :
    (w.exec env as).uploader i =
      (w.uploader i).exec env.alice env.bob (seenByUploader env i w as) :=
  Machine.exec_component (uploader · i) (uploader_step env i) w as

/-- And so does each viewer page. -/
theorem viewer_exec (env : Env) (j : ℕ) (w : Site)
    (as : List Action) :
    (w.exec env as).viewer env j =
      (w.viewer env j).exec env.host env.codecHash (seenByViewer env j w as) :=
  Machine.exec_component (viewer env · j) (viewer_step env j) w as

/-- The viewer page sees every call that comes to the chain. -/
theorem chain_exec (env : Env) (j : ℕ) (w : Site) (as : List Action) :
    (w.exec env as).chain =
      w.chain ++ Viewer.calls (seenByViewer env j w as) := by
  have hview : ∀ (w : Site) (a : Action),
      Viewer.calls (viewerView env j w a) = added env w a := by
    intro w a
    cases a with
    | upload k b => exact Viewer.calls_map _
    | view k b =>
      by_cases hk : k = j
      · rw [viewerView, if_pos hk]
        exact List.drop_left.symm
      · rw [viewerView, if_neg hk]
        exact Viewer.calls_map _
  induction as generalizing w with
  | nil => exact (List.append_nil _).symm
  | cons a as ih =>
    show (Site.exec env (step env w a).2 as).chain = w.chain ++
      Viewer.calls (viewerView env j w a ++ seenByViewer env j _ as)
    rw [ih, chain_step, Viewer.calls_append, hview, List.append_assoc]

/-- It sees its own actions as they are. -/
theorem seen_own (env : Env) (j : ℕ) (w : Site)
    (as : List (Viewer.Action AccountId32)) :
    seenByViewer env j w (as.map (.view j)) = as := by
  induction as generalizing w with
  | nil => rfl
  | cons a as ih =>
    show viewerView env j w (.view j a) ++ seenByViewer env j _ _ = _
    rw [viewerView, if_pos rfl, ih]
    rfl

/-- What an upload page reads was dropped. -/
theorem mem_dropped_of_seen {i : ℕ} {w : Site} {as : List Action} {f : List UInt8}
    (hf : f ∈ Uploader.dropped (seenByUploader env i w as)) : f ∈ dropped as := by
  have hcalls : ∀ cs : List (Call AccountId32),
      f ∉ Uploader.dropped (cs.map Uploader.Action.call) := by
    intro cs hmem
    obtain ⟨a, ha, hfa⟩ := List.mem_flatMap.mp hmem
    obtain ⟨c, -, rfl⟩ := List.mem_map.mp ha
    cases hfa
  induction as generalizing w with
  | nil => cases hf
  | cons a as ih =>
    rw [← List.singleton_append, dropped_append]
    have hf' : f ∈ Uploader.dropped (uploaderView env i w a ++
        seenByUploader env i (step env w a).2 as) := hf
    rw [Uploader.dropped, List.flatMap_append] at hf'
    rcases List.mem_append.mp hf' with hown | hrest
    · refine List.mem_append_left _ ?_
      cases a with
      | view k b => exact absurd hown (hcalls _)
      | upload k b =>
        by_cases hk : k = i
        · rw [uploaderView, if_pos hk] at hown
          simpa [dropped, Uploader.dropped] using hown
        · rw [uploaderView, if_neg hk] at hown
          exact absurd hown (hcalls _)
    · exact List.mem_append_right _ (ih hrest)

/-! ### Where everything comes from -/

/-- The invariant of an upload page, in the whole. -/
theorem tracked (env : Env) (i : ℕ) (as : List Action) :
    ∃ fs cs, Uploader.Tracked env.alice env.bob fs cs ((init.exec env as).uploader i) ∧
      fs ⊆ dropped as := by
  rw [uploader_exec]
  exact ⟨_, _, Uploader.tracked_exec env.alice env.bob _, fun f hf => mem_dropped_of_seen hf⟩

/-- A call on the chain is one of those who use no page, or the call for a file
that was dropped. -/
theorem mem_chain {as : List Action} {c : Call AccountId32}
    (hc : c ∈ (init.exec env as).chain) :
    c ∈ calls as ∨ ∃ arr ∈ dropped as, c = Uploader.uploadCall env.alice env.bob arr := by
  induction as using List.reverseRecOn with
  | nil => cases hc
  | append_singleton as a ih =>
    rw [calls_append, dropped_append]
    -- before the last action, or by it
    have hlast : c ∈ (init.exec env as).chain ∨ c ∈ calls [a] ∨
        ∃ arr ∈ dropped as, c = Uploader.uploadCall env.alice env.bob arr := by
      rw [exec, Machine.exec_concat] at hc
      cases a with
      | upload i a =>
        obtain ⟨fs, cs, htracked, hfs⟩ := tracked env i as
        rcases htracked.mem_step a hc with hc | hc | ⟨arr, harr, rfl⟩
        · exact Or.inl hc
        · exact Or.inr (Or.inl (by simpa [calls] using hc))
        · exact Or.inr (Or.inr ⟨arr, hfs harr, rfl⟩)
      | view j a =>
        rcases List.mem_append.mp hc with hc | hc
        · exact Or.inl hc
        · exact Or.inr (Or.inl (by simpa [calls] using hc))
    have hbefore : ∀ arr ∈ dropped as, arr ∈ dropped as ++ dropped [a] :=
      fun arr harr => List.mem_append_left _ harr
    rcases hlast with hc | hc | ⟨arr, harr, rfl⟩
    · rcases ih hc with hc | ⟨arr, harr, rfl⟩
      · exact Or.inl (List.mem_append_left _ hc)
      · exact Or.inr ⟨arr, hbefore arr harr, rfl⟩
    · exact Or.inl (List.mem_append_right _ hc)
    · exact Or.inr ⟨arr, hbefore arr harr, rfl⟩

/-- What a block has taken from an upload page comes to every viewer page. -/
theorem uploadCall_seen {as : List Action} {i : ℕ} {arr : List UInt8}
    (harr : arr ∈ Uploader.included ((init.exec env as).uploaders i).sent) (j : ℕ) :
    Uploader.uploadCall env.alice env.bob arr ∈ Viewer.calls (seenByViewer env j init as) := by
  obtain ⟨fs, cs, htracked, -⟩ := tracked env i as
  have hmem : Uploader.uploadCall env.alice env.bob arr ∈ (init.exec env as).chain :=
    htracked.mem_chain harr
  rw [chain_exec env j init as] at hmem
  exact hmem

/-- If neither a file nor a call of others has the hash of `arr` for other data,
nothing that a viewer page sees is a collision. -/
theorem seen_not_collides {as : List Action} {arr : List UInt8}
    (hfiles : ∀ f ∈ dropped as, env.host.blake2_256 f = env.host.blake2_256 arr → f = arr)
    (hothers : ∀ c ∈ calls as, ¬Collides env.host arr c) (j : ℕ) :
    ∀ c ∈ Viewer.calls (seenByViewer env j init as), ¬Collides env.host arr c := by
  intro c hc
  have hmem : c ∈ (init.exec env as).chain := by
    rw [chain_exec env j init as]
    exact List.mem_append_right _ hc
  rcases mem_chain hmem with hother | ⟨f, hf, rfl⟩
  · exact hothers c hother
  · rintro ⟨-, hhash, hne⟩
    exact hne (hfiles f hf hhash)

/-- **A file that was dropped on one page is saved from another.**  Let a block
have taken the transaction for a file of legal size that was dropped on the
upload page number `i`, before the viewer page number `j` has read the count, and
let there be fewer than `2 ^ 32` certificates after any further interleaving.  If no
other file that is read and no other call that passes the checks has the same hash,
the hash is listed as soon as the effect of that page is through; a certificate in
the drawer under that hash has the bytes of the file, and so has a saved file whose
bytes have that hash; and whatever is under way on the page, there is a card that
brings the file. -/
theorem dropped_saved (env : Env) (pre post : List Action) (i j : ℕ) (arr : List UInt8)
    (halice : env.alice.Genuine env.host) (hbob : env.bob.Genuine env.host)
    (hlen : arr.length < 1024)
    (harr : arr ∈ Uploader.included ((init.exec env pre).uploaders i).sent)
    (hstart : ((init.exec env pre).readers j).loading = .start)
    (hfew : ((init.exec env (pre ++ post)).viewer env j).chain.certificateCount.val < 2 ^ 32)
    (hfiles : ∀ f ∈ dropped (pre ++ post),
      env.host.blake2_256 f = env.host.blake2_256 arr → f = arr)
    (hothers : ∀ c ∈ calls (pre ++ post), ¬Collides env.host arr c) :
    let w := init.exec env (pre ++ post ++ Viewer.awaited.map (.view j))
    let page := (w.readers j).page
    let hash := env.host.blake2_256 arr
    hash ∈ page.hashes ∧
    (∀ cert, page.shown = some cert → cert.hash = hash → download cert = arr) ∧
    (∀ f ∈ page.saved, env.host.blake2_256 f.data = hash → f.data = arr) ∧
    ∃ k, ((w.exec env (((page.visit k).map .page).map (.view j))).readers j).page.saved =
      page.saved ++ [⟨arr, fileName (env.codecHash (fetch (w.viewer env j).chain hash)),
        "application/pdf"⟩] := by
  intro w page hash
  -- what the viewer page sees of the parts of the run
  obtain ⟨pre', hpre⟩ : ∃ pre', pre' = seenByViewer env j init pre := ⟨_, rfl⟩
  obtain ⟨post', hpost⟩ : ∃ post', post' =
      seenByViewer env j (init.exec env pre) post := ⟨_, rfl⟩
  have happend : ∀ as bs, seenByViewer env j init (as ++ bs) =
      seenByViewer env j init as ++ seenByViewer env j (init.exec env as) bs :=
    fun as bs => Machine.seen_append _ _ _ _
  have hseen : seenByViewer env j init (pre ++ post) = pre' ++ post' := by
    rw [happend, hpre, hpost]
  have hexec_pre : (init.exec env pre).viewer env j =
      Viewer.init.exec env.host env.codecHash pre' := hpre ▸ viewer_exec env j init pre
  have hexec : (init.exec env (pre ++ post)).viewer env j =
      Viewer.init.exec env.host env.codecHash (pre' ++ post') :=
    hseen ▸ viewer_exec env j init (pre ++ post)
  have hviewer : w.viewer env j =
      Viewer.init.exec env.host env.codecHash (pre' ++ post' ++ Viewer.awaited) := by
    have hawaited := viewer_exec env j init (pre ++ post ++ Viewer.awaited.map (.view j))
    rw [happend, hseen, seen_own] at hawaited
    exact hawaited
  -- the call for the file is there before the count is read
  have hpass : (Uploader.uploadCall env.alice env.bob arr).ChecksPass env.host :=
    (upload halice hbob hlen env.alice.address).call_checksPass
  obtain ⟨sub, hsub, hsubcall⟩ :=
    Viewer.exists_submission_of_mem (hpre ▸ uploadCall_seen harr j) hpass
  obtain rfl : sub.data = arr := congrArg Call.data hsubcall
  have hcoll : ∀ c ∈ Viewer.calls (pre' ++ post'), ¬Collides env.host sub.data c :=
    hseen ▸ seen_not_collides hfiles hothers j
  have hstart' : (Viewer.init.exec env.host env.codecHash pre').loading = .start := by
    rw [← hexec_pre]
    exact hstart
  rw [hexec] at hfew
  obtain ⟨hlisted, hshown, hsaved, k, hk⟩ :=
    Viewer.submission_viewed env.host env.codecHash pre' post' sub hsub hstart' hfew hcoll
  rw [← hviewer] at hlisted hshown hsaved hk
  refine ⟨hlisted, hshown, hsaved, k, ?_⟩
  -- the actions on the page are seen as they are
  have hlater := viewer_exec env j w (((page.visit k).map .page).map (.view j))
  rw [seen_own] at hlater
  exact (congrArg (fun v => v.page.saved) hlater).trans hk

/-- Two files are dropped on two pages, and their uploads cross; the first one is
saved from a third page, which has read the count in between. -/
theorem dropped_saved_two :
    let env : Env := ⟨sampleHost, sampleCodecHash, Uploader.alicePair, Uploader.bobPair⟩
    let pre : List Action := [.upload 0 (.drop [[0]]), .upload 1 (.drop [[]]),
      .upload 1 (.load 0), .upload 0 (.load 0), .upload 0 (.block 0)]
    let post : List Action := [.view 0 .readCount, .upload 1 (.block 0), .view 1 .readCount,
      .upload 1 (.call unsignedCall), .view 0 .readArray, .view 0 .setHashes]
    let w := init.exec env (pre ++ post ++ Viewer.awaited.map (.view 0))
    let page := (w.readers 0).page
    ∃ k, ((w.exec env (((page.visit k).map .page).map (.view 0))).readers 0).page.saved =
      [⟨[0], fileName (sampleCodecHash ⟨[0], sampleDigest [0],
        [⟨sampleSign alice [0], alice⟩, ⟨sampleSign bob [0], bob⟩]⟩), "application/pdf"⟩] := by
  intro env pre post w page
  have halice : Uploader.alicePair.Genuine sampleHost := fun msg => decide_eq_true rfl
  have hbob : Uploader.bobPair.Genuine sampleHost := fun msg => decide_eq_true rfl
  obtain ⟨-, -, -, k, hk⟩ := dropped_saved env pre post 0 0 [0] halice hbob (by decide)
    (by decide) (by decide) (by decide +kernel) (by decide) (by decide)
  exact ⟨k, hk.trans (by decide +kernel)⟩

end Site

end CertStore
