import SwordFS.Vfs.Properties.HandleSteps

/-!
# Close と reclaim の fence

受け付けた書き込みと、その後で始まった Flush とを突き合わせる。

最後でない Close は Flush をしない。覆われていない書き込みは、後で閉じる descriptor が残っていれば、その
Close が Flush する。残っているのが開く途中か Flush を始めた Close の参照だけなら、失われる。
-/

namespace SwordFS.Vfs

open List Infra Metadata Chunk Function

/-! ## 書き込みと Flush の突き合わせ -/

/-- 受け付けた書き込み -/
structure AcceptedWrite where
  /-- 書き込んだ thread の番号 -/
  id : Nat
  /-- 書き込んだ descriptor -/
  fd : Nat
deriving DecidableEq, Repr

/-- 実行を外から見て溜めるもの -/
structure Coverage where
  /-- 後から始まった Flush がまだ一つも返っていない書き込み -/
  uncovered : List AcceptedWrite := []
  /-- 各 thread の Flush が始まったときに覆われていなかった書き込み -/
  started : Nat → List AcceptedWrite := fun _ => []

def Pc.flushReturns (pc pc' : Pc) : Bool :=
  match pc.flushing, pc'.flushing with
  | some (.handle ..), none => true
  | _, _ => false

namespace Coverage

/-- 起きたことを溜める。成功した Flush は覆い、失敗した Flush はその失敗を返している -/
def watch (g : Coverage) (S : System) : HandleLabel → Coverage
  | .call (.flush _) =>
    { g with started := update g.started S.threads.length g.uncovered }
  | .call _ => g
  | .ran i pc pc' => match pc with
    | .writeFinish fd _ _ _ => { g with uncovered := ⟨i, fd⟩ :: g.uncovered }
    | .closePrepare _ =>
      if pc' = .done .ok then g else { g with started := update g.started i g.uncovered }
    | _ =>
      if pc.flushReturns pc' then
        { g with uncovered := g.uncovered.filter (· ∉ g.started i) }
      else g

end Coverage

def Pc.preparesClose : Pc → Bool
  | .closePrepare _ => true
  | _ => false

/-- thread `i` のほかに、これから `PrepareClose` を行う descriptor がある -/
def System.ClosesLater (S : System) (i : Nat) : Prop :=
  S.fds ≠ [] ∨ ∃ pc ∈ S.threads.eraseIdx i, pc.preparesClose = true

instance (S : System) (i : Nat) : Decidable (S.ClosesLater i) := by
  unfold System.ClosesLater
  infer_instance

/--
覆われていない書き込みがあるまま Flush を省く Close（`PrepareClose` が `open_count_` を 1 でないと見た）は、
後で閉じる descriptor を残している
-/
def LeavesCloser (t : Taken System HandleLabel Coverage) : Prop :=
  match t.label with
  | .ran i (.closePrepare _) _ => t.before.inode.openCount ≠ 1 → t.seen.uncovered ≠ [] →
    t.before.ClosesLater i
  | _ => True

instance : DecidablePred LeavesCloser := fun t => by
  unfold LeavesCloser
  split <;> infer_instance

/-! ## 反例 -/

/-- `i` 番目の thread を、失敗なく `n` 動作進める -/
def HandleEvent.runs (i n : Nat) : List HandleEvent := List.replicate n (.run i {})

/--
descriptor 0 の最後の Close が Flush を始めた後で、descriptor 3 が開き、書き、閉じる。
閉じる時点では参照が二つあるので Flush をしない。
-/
def closeRace : List HandleEvent := List.flatten [
  .call (.open { writable := true }) :: HandleEvent.runs 0 4,
  .call (.write 0 0 1 false) :: HandleEvent.runs 1 5,
  -- 最後の Close が Flush の対象を決める
  .call (.close 0) :: HandleEvent.runs 2 5,
  .call (.open { writable := true }) :: HandleEvent.runs 3 4,
  .call (.write 3 4 1 false) :: HandleEvent.runs 4 5,
  .call (.close 3) :: HandleEvent.runs 5 1,
  -- 最後の Close の Flush が終わり、参照を手放す
  [.run 2 { move := .freeze 0 }, .run 2 { move := .complete 0 }, .run 2 { move := .finish }],
  HandleEvent.runs 2 1]

/-- 参照が 0 になり、誰も失敗を返していないのに、二つ目の書き込みはどの Flush にも覆われていない -/
theorem close_loses_write :
    let r := System.runWith Coverage.watch 4 ({}, {}) closeRace
    r.1.inode.openCount = 0 ∧ ⟨4, 3⟩ ∈ r.2.uncovered ∧ (∀ pc ∈ r.1.threads, pc = .done .ok) ∧
      r.1.inode.pendingWrites = [1] := by
  decide +kernel

/-! ## 参照の数 -/

/-- 最後の Close の中の Flush なら、閉じる descriptor -/
def FlushFor.closesFd : FlushFor → Option Nat
  | .handle fd true => some fd
  | _ => none

/-- 閉じる途中の descriptor。Flush が返るまで -/
def Pc.closesFd : Pc → Option Nat
  | .closePrepare fd => some fd
  | .flushMutex fd closing | .flushLock fd closing => (FlushFor.handle fd closing).closesFd
  | .flushBarrier k | .flushPending k _ | .flushChunks k .. => k.closesFd
  | _ => none

/-- descriptor の参照を一つ持つところ。開く途中か、閉じる途中 -/
def Pc.holdsRef : Pc → Bool
  | .openSnapshot _ | .openMeta .. | .openReconcile .. | .openTruncate _ | .openRelease _
  | .createdInit | .closeRelease _ => true
  | pc => pc.closesFd.isSome

variable {pc pc' : Pc} {fd i : Nat}

theorem Pc.holdsRef_of_closesFd (h : pc.closesFd = some fd) : pc.holdsRef = true := by
  unfold holdsRef
  split <;> simp [h]

/-- 参照を持つ thread と開いている descriptor の数が、`open_count_` に等しい -/
def System.RefsCounted (S : System) : Prop :=
  S.inode.openCount = S.fds.length + S.threads.countP Pc.holdsRef

theorem FlushFor.holdsRef_resume (k : FlushFor) (r : Option Status) :
    (k.resume r).holdsRef = (Pc.flushBarrier k).holdsRef := by
  rcases k with ⟨fd, _ | _⟩ | f <;> cases r <;> rfl

variable {s s' : SharedInode}

/-- 一動作の前後の `open_count_`。開いた descriptor は参照を引き継ぐ -/
theorem Moves.openCount (h : Moves l s pc s' pc') (hpos : pc.holdsRef = true → 0 < s.openCount) :
    s'.openCount + pc.holdsRef.toNat = s.openCount + pc'.holdsRef.toNat +
      (if pc.opens ∧ pc' = .done .ok then 1 else 0) := by
  cases h
  case abort e ha =>
    cases pc <;> first | rfl | cases ha
  case flushUnsafe k e => rw [FlushFor.holdsRef_resume]; rfl
  case flushed k b => rw [FlushFor.holdsRef_resume]; rfl
  case flushFailed k b e => rw [FlushFor.holdsRef_resume]; rfl
  case openRelease e => exact Nat.sub_add_cancel (hpos rfl)
  case closeEarly fd hne => exact Nat.sub_add_cancel (hpos rfl)
  case closeRelease r => exact Nat.sub_add_cancel (hpos rfl)
  case writeFinish fd stop append nonempty => cases nonempty <;> rfl
  all_goals rfl

theorem Moves.fence (h : Moves l s pc s' pc') (hs : s.reclaimStarted = true → s.openCount = 0) :
    s'.reclaimStarted = true → s'.openCount = 0 := by
  cases h
  case acquire hfree => simp [hfree]
  case acquireCreated hfree => simp [hfree]
  case openRelease => exact fun hr => by simp [hs hr]
  case closeEarly => exact fun hr => by simp [hs hr]
  case closeRelease => exact fun hr => by simp [hs hr]
  case claim hzero => exact fun _ => hzero
  case reclaimFinish => exact nofun
  case writeFinish fd stop append nonempty => cases nonempty <;> exact hs
  all_goals exact hs

theorem Moves.usesFd (h : Moves l s pc s' pc') (hfd : pc'.usesFd = some fd) :
    pc.usesFd = some fd := by
  cases h
  case flushUnsafe k e => rcases k with ⟨_, _ | _⟩ | f <;> cases hfd
  case flushed k b => rcases k with ⟨_, _ | _⟩ | f <;> cases hfd
  case flushFailed k b e => rcases k with ⟨_, _ | _⟩ | f <;> cases hfd
  all_goals first | exact hfd | cases hfd

/-! ## 覆われていない書き込み -/

/-- 覆われていない書き込みがあれば、descriptor が開いているか、その書き込みを覆う Close の途中にある -/
structure CoverageInv (clean : Prop) (S : System) (g : Coverage) : Prop where
  count : S.RefsCounted
  fence : S.inode.reclaimStarted = true → S.inode.openCount = 0
  users : S.AllThreads fun _ pc => ∀ fd, pc.usesFd = some fd → fd ∈ S.fds
  covered : clean → ∀ w ∈ g.uncovered, S.fds ≠ [] ∨ ∃ (i : Nat) (pc : Pc) (fd : Nat),
    S.threads[i]? = some pc ∧ pc.closesFd = some fd ∧ (pc = .closePrepare fd ∨ w ∈ g.started i)

variable {S : System}

theorem System.RefsCounted.start (h : S.RefsCounted) (hc : S.enabled c = true) :
    (S.start c).RefsCounted := by
  show S.inode.openCount = _ + (S.threads ++ [c.entry]).countP Pc.holdsRef
  rw [h, countP_append]
  cases c with
  | close fd =>
    have hfd : fd ∈ S.fds := by
      simp only [enabled, Bool.and_eq_true] at hc
      simpa using hc.1
    have hlen := length_erase_of_mem hfd
    have hpos := length_pos_of_mem hfd
    show _ = (S.fds.erase fd).length + (_ + 1)
    omega
  | _ => rfl

theorem System.RefsCounted.pos (h : S.RefsCounted) (hi : S.threads[i]? = some pc)
    (hpc : pc.holdsRef = true) : 0 < S.inode.openCount := by
  have hcount : 0 < S.threads.countP Pc.holdsRef :=
    countP_pos_iff.mpr ⟨pc, mem_of_getElem? hi, hpc⟩
  rw [h]
  omega

theorem System.RefsCounted.advance (h : S.RefsCounted) (hi : S.threads[i]? = some pc)
    (hm : Moves (S.locks i) S.inode pc s pc') : (S.advance i s pc pc').RefsCounted := by
  have hmove := hm.openCount (h.pos hi)
  obtain ⟨hlt, rfl⟩ := List.getElem?_eq_some_iff.mp hi
  have hset : (S.threads.set i pc').countP Pc.holdsRef + (S.threads[i].holdsRef).toNat =
      S.threads.countP Pc.holdsRef + pc'.holdsRef.toNat := by
    have hpos : S.threads[i].holdsRef = true → 0 < S.threads.countP Pc.holdsRef :=
      fun hb => countP_pos_iff.mpr ⟨_, getElem_mem hlt, hb⟩
    rw [countP_set hlt]
    cases hb : S.threads[i].holdsRef with
    | false => cases pc'.holdsRef <;> simp
    | true =>
      have hone := hpos hb
      cases pc'.holdsRef <;> simp <;> omega
  show s.openCount = _ + (S.threads.set i pc').countP Pc.holdsRef
  have hfds : (S.advance i s S.threads[i] pc').fds.length = S.fds.length +
      (if S.threads[i].opens ∧ pc' = .done .ok then 1 else 0) := by
    simp only [System.advance]
    split <;> rfl
  rw [RefsCounted] at h
  omega

theorem FlushFor.eq_of_closesFd {k : FlushFor} (h : k.closesFd = some fd) :
    k = .handle fd true := by
  rcases k with ⟨_, _ | _⟩ | f <;> cases h
  rfl

theorem System.fds_subset_advance : S.fds ⊆ (S.advance i s pc pc').fds := by
  intro fd hfd
  simp only [System.advance]
  split
  · exact mem_cons_of_mem _ hfd
  · exact hfd

namespace CoverageInv

variable {S : System} {g : Coverage} {i fd : Nat} {s : SharedInode} {pc pc' : Pc}
  {w : AcceptedWrite}

/-- 覆われていない書き込みは、前からのものか、いま受け付けたもの -/
theorem uncovered_watch (hw : w ∈ (g.watch S (.ran i pc pc')).uncovered) :
    w ∈ g.uncovered ∨ pc.usesFd = some w.fd := by
  simp only [Coverage.watch] at hw
  split at hw
  next fd _ _ _ =>
    rcases mem_cons.mp hw with rfl | hw
    · exact .inr rfl
    · exact .inl hw
  next => split at hw <;> exact .inl hw
  next =>
    split at hw
    · exact .inl (mem_filter.mp hw).1
    · exact .inl hw

theorem started_watch (hj : j ≠ i) : (g.watch S (.ran i pc pc')).started j = g.started j := by
  simp only [Coverage.watch]
  split
  next => rfl
  next =>
    split
    · rfl
    · exact update_of_ne hj _ _
  next => split <;> rfl

/-- 閉じる途中の descriptor の書き込みは、Flush が返るまでその Flush に控えられている -/
theorem watch_closing (hm : Moves l S.inode pc s pc')
    (hcl : pc.closesFd = some fd) (hor : pc = .closePrepare fd ∨ w ∈ g.started i)
    (hleaves : LeavesCloser ⟨S, g, .ran i pc pc', S.advance i s pc pc'⟩)
    (hw : w ∈ (g.watch S (.ran i pc pc')).uncovered) :
    S.ClosesLater i ∨
      pc'.closesFd = some fd ∧ w ∈ (g.watch S (.ran i pc pc')).started i := by
  cases hm
  case closeLast fd hone =>
    refine .inr ⟨hcl, ?_⟩
    show w ∈ update g.started i g.uncovered i
    rw [update_self]
    exact hw
  case closeEarly fd hmany => exact .inl (hleaves hmany (ne_nil_of_mem hw))
  case flushMutex fd closing hl => exact .inr ⟨hcl, hor.resolve_left nofun⟩
  case flushLock fd closing hl => exact .inr ⟨hcl, hor.resolve_left nofun⟩
  case abort e ha =>
    have hnone : pc.closesFd = none := by cases pc <;> first | rfl | cases ha
    simp [hnone] at hcl
  all_goals
    first
      | cases hcl
      | (obtain rfl := FlushFor.eq_of_closesFd hcl
         have hstarted := hor.resolve_left nofun
         first
           | exact .inr ⟨hcl, hstarted⟩
           | exact absurd hstarted (by simpa using (mem_filter.mp hw).2))

end CoverageInv

variable {g : Coverage}

section

variable {clean : Prop} (h : CoverageInv clean S g)
include h

/-- 呼び出しの開始は、覆われていない書き込みの行き先を保つ -/
theorem CoverageInv.start (hc : S.enabled c = true) :
    CoverageInv clean (S.start c) (g.watch S (.call c)) := by
  refine ⟨h.count.start hc, h.fence, ?_, ?_⟩
  · refine System.AllThreads.start h.users c (fun i pc hi hpc fd hfd => ?_) fun fd hfd => ?_
    · have hmem := hpc fd hfd
      cases c with
      | close fd' =>
        simp only [System.enabled, Bool.and_eq_true, all_eq_true, decide_eq_true_eq] at hc
        refine (mem_erase_of_ne ?_).mpr hmem
        rintro rfl
        exact hc.2 pc (mem_of_getElem? hi) hfd
      | _ => exact hmem
    · have hmem : ∀ fd', S.fds.contains fd' = true → fd' ∈ S.fds := by simp
      cases c <;> cases hfd <;> exact hmem _ hc
  · intro hclean w hw
    have hold : w ∈ g.uncovered := by cases c <;> exact hw
    -- 進行中の Close が控えた書き込みは、新しい thread の控えに上書きされない
    have hstarted : ∀ (j : Nat) (pc : Pc), S.threads[j]? = some pc →
        (g.watch S (.call c)).started j = g.started j := by
      intro j pc hj
      have hlt := (List.getElem?_eq_some_iff.mp hj).1
      cases c with
      | flush fd => exact update_of_ne hlt.ne _ _
      | _ => rfl
    have hthread : ∀ (j : Nat) (pc : Pc), S.threads[j]? = some pc →
        (S.start c).threads[j]? = some pc := by
      intro j pc hj
      show (S.threads ++ [c.entry])[j]? = some pc
      rw [getElem?_append_left (List.getElem?_eq_some_iff.mp hj).1]
      exact hj
    rcases h.covered hclean w hold with hfd | ⟨j, q, fd, hj, hcl, hor⟩
    · cases c with
      | close fd =>
        exact .inr ⟨S.threads.length, .closePrepare fd, fd, by simp [System.start, Call.entry], rfl,
          .inl rfl⟩
      | _ => exact .inl hfd
    · refine .inr ⟨j, q, fd, hthread j q hj, hcl, ?_⟩
      rw [hstarted j q hj]
      exact hor

theorem CoverageInv.advance (hi : S.threads[i]? = some pc) (hm : Moves (S.locks i) S.inode pc s pc')
    (hleaves : clean → LeavesCloser ⟨S, g, .ran i pc pc', S.advance i s pc pc'⟩) :
    CoverageInv clean (S.advance i s pc pc') (g.watch S (.ran i pc pc')) := by
  refine ⟨h.count.advance hi hm, hm.fence h.fence, ?_, ?_⟩
  · refine System.AllThreads.advance h.users
      (fun j q _ _ hq fd hfd => System.fds_subset_advance (hq fd hfd)) ?_
    intro fd hfd
    exact System.fds_subset_advance (h.users i pc hi fd (hm.usesFd hfd))
  · intro hclean w hw
    have hopen : S.fds ≠ [] → (S.advance i s pc pc').fds ≠ [] := fun hne hnil =>
      hne (subset_nil.mp (hnil ▸ System.fds_subset_advance))
    have hother : ∀ (j : Nat) (q : Pc), j ≠ i → S.threads[j]? = some q →
        (S.advance i s pc pc').threads[j]? = some q := by
      intro j q hji hj
      show (S.threads.set i pc')[j]? = some q
      rw [getElem?_set_ne (Ne.symm hji)]
      exact hj
    rcases uncovered_watch hw with hold | hnew
    · rcases h.covered hclean w hold with hfd | ⟨j, q, fd, hj, hcl, hor⟩
      · exact .inl (hopen hfd)
      · by_cases hji : j = i
        · subst hji
          obtain rfl : pc = q := Option.some.inj (hi.symm.trans hj)
          rcases watch_closing hm hcl hor (hleaves hclean) hw with (hfd | ⟨q, hq, hprep⟩) | hnext
          · exact .inl (hopen hfd)
          · obtain ⟨k, hk, hq⟩ := mem_eraseIdx_iff_getElem?.mp hq
            unfold Pc.preparesClose at hprep
            split at hprep
            next => exact .inr ⟨k, _, _, hother k _ hk hq, rfl, .inl rfl⟩
            next => cases hprep
          · exact .inr ⟨j, pc', fd, by simp [System.advance, (List.getElem?_eq_some_iff.mp hi).1],
              hnext.1, .inr hnext.2⟩
        · refine .inr ⟨j, q, fd, hother j q hji hj, hcl, ?_⟩
          rw [started_watch hji]
          exact hor
    · exact .inl (hopen (ne_nil_of_mem (h.users i pc hi _ hnew)))

theorem CoverageInv.step (hleaves : clean → LeavesCloser ⟨S, g, label, S'⟩)
    (hs : S.step cs ev = some (label, S')) : CoverageInv clean S' (g.watch S label) := by
  rcases System.step_cases hs with ⟨c, -, rfl, hc, rfl⟩ | ⟨i, pc, s, pc', rfl, hi, hm, rfl⟩
  · exact h.start hc
  · exact h.advance hi hm hleaves

/-- 参照が無ければ、開いた descriptor も、参照を持つ thread も無い -/
theorem CoverageInv.closed (hzero : S.inode.openCount = 0) :
    S.fds = [] ∧ ∀ pc ∈ S.threads, pc.holdsRef = false := by
  have hcount := h.count
  rw [System.RefsCounted, hzero] at hcount
  refine ⟨length_eq_zero_iff.mp (by omega), fun pc hpc => ?_⟩
  have hnone : S.threads.countP Pc.holdsRef = 0 := by omega
  simpa using countP_eq_zero.mp hnone pc hpc

end

/--
Flush を省いた Close がどれも、覆われていない書き込みを後で閉じる descriptor に任せていれば、
`open_count_` が 0 になったとき、受け付けた書き込みはすべて覆われている。
fence を持つ間は、いつでも、開いた descriptor も、開く途中の descriptor も無い。
-/
theorem close_covers (chunkSize size : Nat) (flags : InodeFlag) (evs : List HandleEvent) :
    let r := System.runWith Coverage.watch chunkSize (.fresh size flags, {}) evs
    ((∀ t ∈ steps (System.step chunkSize) Coverage.watch (.fresh size flags, {}) evs,
        LeavesCloser t) → r.1.inode.openCount = 0 → r.2.uncovered = []) ∧
      (r.1.inode.reclaimStarted = true →
        r.1.fds = [] ∧ ∀ pc ∈ r.1.threads, pc.holdsRef = false) := by
  intro r
  let clean := ∀ t ∈ steps (System.step chunkSize) Coverage.watch (.fresh size flags, {}) evs,
    LeavesCloser t
  have hinit : CoverageInv clean (.fresh size flags) {} :=
    ⟨rfl, nofun, System.allThreads_fresh, fun _ => forall_mem_nil _⟩
  have h : CoverageInv clean r.1 r.2 :=
    runWith_of_steps (P := fun t => clean → LeavesCloser t) _ _
      (fun S g ev label S' hl hI hs => hI.step hl hs) _ (fun t ht hclean => hclean t ht) hinit
  clear_value r
  refine ⟨fun hclean hzero => ?_, fun hfence => h.closed (h.fence hfence)⟩
  obtain ⟨hfds, hrefs⟩ := h.closed hzero
  refine eq_nil_iff_forall_not_mem.mpr fun w hw => ?_
  rcases h.covered hclean w hw with hfd | ⟨i, pc, fd, hi, hcl, -⟩
  · exact hfd hfds
  · have href := hrefs pc (mem_of_getElem? hi)
    rw [Pc.holdsRef_of_closesFd hcl] at href
    cases href

/-- 二つの descriptor で書き、先の Close は Flush を省き、後の Close がまとめて Flush して、reclaim に入る -/
def closeInTurn : List HandleEvent := List.flatten [
  .call (.open { writable := true }) :: HandleEvent.runs 0 4,
  .call (.open { writable := true }) :: HandleEvent.runs 1 4,
  .call (.write 0 0 1 false) :: HandleEvent.runs 2 5,
  .call (.write 1 4 1 false) :: HandleEvent.runs 3 5,
  .call (.close 0) :: HandleEvent.runs 4 1,
  .call (.close 1) :: HandleEvent.runs 5 5,
  [.run 5 { move := .freeze 0 }, .run 5 { move := .freeze 0 }, .run 5 { move := .complete 0 },
    .run 5 { move := .complete 0 }, .run 5 { move := .finish }, .run 5 {}],
  .call .reclaim :: HandleEvent.runs 6 1]

theorem close_covers_in_turn :
    let r := System.runWith Coverage.watch 4 (.fresh 0 {}, {}) closeInTurn
    r.1.threads[4]? = some (.done .ok) ∧ r.2.uncovered = [] ∧ r.1.fds = [] :=
  have h := close_covers 4 0 {} closeInTurn
  ⟨by decide +kernel, h.1 (by decide +kernel) (by decide +kernel), (h.2 (by decide +kernel)).1⟩

end SwordFS.Vfs
