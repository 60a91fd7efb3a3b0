import SwordFS.Vfs.Properties.HandleSteps

/-!
# 見える大きさ

大きさの変更の間の一つの期間で、`GetAttr` の返す大きさと `Read` の使う大きさを挟む。

* `SizeGhost` — 始まった書き込みの末尾の最大、返った書き込みの末尾の最大、各呼び出しの始まりでの後者
* `SizeInv` — 手元の三つの値（`authoritative_size_`、`live_size_`、epoch）、metadata の EOF、
  chunk に残る書き込みの関係

`GetAttr` は lock の外で metadata を読む。その間に大きさの状態が動けば `size_state_epoch_` が進むので、
古い値が新しい値を消すことはない。
-/

namespace SwordFS.Vfs

open Infra Metadata Chunk Function

/-! ## 期間の中で見たもの -/

structure SizeGhost where
  /-- 始まった書き込みの末尾の最大 -/
  started : Nat := 0
  /-- 返った書き込みの末尾の最大 -/
  returned : Nat := 0
  /-- 各 thread が始まったときの `returned` -/
  floor : Nat → Nat := fun _ => 0

def SizeGhost.watch (g : SizeGhost) (S : System) : HandleLabel → SizeGhost
  | .call (.write _ off len _) => { g with started := max g.started (off + len) }
  | .call .getAttr | .call .read =>
    { g with floor := update g.floor S.threads.length g.returned }
  | .call _ => g
  -- 長さ 0 の書き込みは file を伸ばさない
  | .ran _ (.writeFinish _ stop _ nonempty) _ =>
    { g with returned := if nonempty then max g.returned stop else g.returned }
  | .ran .. => g

/-! ## 覆われた位置 -/

namespace SharedInode

/-- 位置 `e` まで、EOF か chunk に残る書き込みが届いている -/
def Covers (s : SharedInode) (e : Nat) : Prop :=
  e ≤ s.metaSize ∨ ∃ idx, e ≤ (s.chunk idx).tail

def FlushCovers (s : SharedInode) (todo inFlight : List Nat) (e : Nat) : Prop :=
  e ≤ s.metaSize ∨ (∃ idx ∈ todo, e ≤ (s.chunk idx).tail) ∨
    ∃ idx ∈ inFlight, e ≤ (s.chunk idx).frozen.getD 0

variable {s s' : SharedInode} {e : Nat}

theorem Covers.mono (h : s.Covers e) (he : e' ≤ e) : s.Covers e' :=
  h.imp he.trans fun ⟨idx, hidx⟩ => ⟨idx, he.trans hidx⟩

variable {idx : Nat}

theorem Covers.accept (h : s.Covers e) : (s.setChunk idx ((s.chunk idx).accept next)).Covers e := by
  refine h.imp_right fun ⟨j, hj⟩ => ⟨j, ?_⟩
  by_cases he : j = idx
  · subst he
    rw [chunk_setChunk_self, ChunkTail.tail_accept]
    exact le_max_of_le_left hj
  · rw [chunk_setChunk_ne he]
    exact hj

theorem Covers.freeze (h : s.Covers e) : (s.setChunk idx (s.chunk idx).freeze).Covers e := by
  refine h.imp_right fun ⟨j, hj⟩ => ⟨j, ?_⟩
  by_cases he : j = idx
  · subst he
    rw [chunk_setChunk_self, ChunkTail.tail_freeze]
    exact hj
  · rw [chunk_setChunk_ne he]
    exact hj

theorem metaSize_publishUpTo (idx stop : Nat) : s.metaSize ≤ (s.publishUpTo idx stop).metaSize :=
  le_max_left _ _

theorem metaSize_publishChunk (idx : Nat) : s.metaSize ≤ (s.publishChunk idx).metaSize :=
  le_max_left _ _

/-- 公開し終えた chunk の末尾は、EOF か、その後で受け付けた書き込みにある -/
theorem tail_publishChunk (h : e ≤ (s.chunk j).tail) :
    e ≤ (s.publishChunk idx).metaSize ∨ e ≤ ((s.publishChunk idx).chunk j).tail := by
  by_cases he : j = idx
  · subst he
    have hself : (s.publishChunk j).chunk j = { s.chunk j with frozen := none } :=
      chunk_setChunk_self
    rw [hself]
    rcases le_max_iff.mp h with ha | hf
    · exact .inr (le_max_of_le_left ha)
    · exact .inl (le_max_of_le_right hf)
  · have hother : (s.publishChunk idx).chunk j = s.chunk j := chunk_setChunk_ne he
    rw [hother]
    exact .inr h

theorem Covers.publishUpTo (h : s.Covers e) : (s.publishUpTo idx stop).Covers e :=
  h.imp (fun he => he.trans (metaSize_publishUpTo idx stop)) id

theorem Covers.publishChunk (h : s.Covers e) : (s.publishChunk idx).Covers e := by
  rcases h with h | ⟨j, hj⟩
  · exact .inl (h.trans (metaSize_publishChunk idx))
  · exact (tail_publishChunk hj).imp_right fun hj => ⟨j, hj⟩

theorem FlushCovers.of_covers (h : s.Covers e) : s.FlushCovers s.pendingWrites [] e := by
  rcases h with h | ⟨idx, hidx⟩
  · exact .inl h
  · by_cases hp : (s.chunk idx).hasPendingWrites = true
    · exact .inr (.inl ⟨idx, mem_pendingWrites hp, hidx⟩)
    · have hzero : (s.chunk idx).tail = 0 := by
        simp_all [ChunkTail.hasPendingWrites, ChunkTail.tail]
      exact .inl (by omega)

theorem FlushCovers.freeze (h : s.FlushCovers todo inFlight e) (hn : todo[n]? = some idx) :
    (s.setChunk idx (s.chunk idx).freeze).FlushCovers (todo.eraseIdx n) (idx :: inFlight) e := by
  rcases h with h | ⟨j, hj, hle⟩ | ⟨j, hj, hle⟩
  · exact .inl h
  · by_cases he : j = idx
    · subst he
      refine .inr (.inr ⟨j, List.mem_cons_self, ?_⟩)
      rw [chunk_setChunk_self, ChunkTail.frozen_freeze]
      exact hle
    · refine .inr (.inl ⟨j, mem_eraseIdx_of_ne hn hj he, ?_⟩)
      rw [chunk_setChunk_ne he]
      exact hle
  · refine .inr (.inr ⟨j, List.mem_cons_of_mem _ hj, ?_⟩)
    by_cases he : j = idx
    · subst he
      rw [chunk_setChunk_self, ChunkTail.frozen_freeze]
      exact le_max_of_le_right hle
    · rw [chunk_setChunk_ne he]
      exact hle

theorem FlushCovers.publish (h : s.FlushCovers todo inFlight e) (hn : inFlight[n]? = some idx) :
    (s.publishChunk idx).FlushCovers todo (inFlight.eraseIdx n) e := by
  rcases h with h | ⟨j, hj, hle⟩ | ⟨j, hj, hle⟩
  · exact .inl (h.trans (metaSize_publishChunk idx))
  · exact (tail_publishChunk hle).imp_right fun hle => .inl ⟨j, hj, hle⟩
  · by_cases he : j = idx
    · subst he
      exact .inl (le_max_of_le_right hle)
    · have hother : (s.publishChunk idx).chunk j = s.chunk j := chunk_setChunk_ne he
      refine .inr (.inr ⟨j, mem_eraseIdx_of_ne hn hj he, ?_⟩)
      rw [hother]
      exact hle

end SharedInode

/-! ## 不変条件 -/

/-- Flush の控えについての条件 -/
structure BarrierOk (s : SharedInode) (g : SizeGhost) (b : Barrier) : Prop where
  epoch : b.epoch ≤ s.writeEpoch
  started : b.live.getD 0 ≤ g.started
  known : b.live.isSome = true → s.authoritativeSize.isSome = true
  /-- 書き込みがその後で返っていなければ、控えはいまの値 -/
  live : s.writeEpoch = b.epoch → s.liveSize = b.live

/-- thread ごとの条件。`M` は期間の始めの EOF -/
def SizeLocal (M : Nat) (s : SharedInode) (g : SizeGhost) : Pc → Prop
  | .openAcquire a | .openSnapshot a | .openMeta a _ => a.trunc = false
  | .openReconcile a _ size _ => a.trunc = false ∧
      (s.authoritativeSize = none → M ≤ size ∧ size ≤ s.metaSize)
  | .openTruncate _ | .createdAcquire | .createdInit => False
  | .writeLock _ off len _ | .writeCheck _ off len _ =>
    s.authoritativeSize.isSome = true ∧ off + len ≤ g.started
  | .writeLoop _ cursor stop _ nonempty => s.authoritativeSize.isSome = true ∧ stop ≤ g.started ∧
      (nonempty = true → cursor < stop ∨ s.Covers cursor)
  | .writeFinish _ stop _ nonempty => s.authoritativeSize.isSome = true ∧ stop ≤ g.started ∧
      (nonempty = true → s.Covers stop)
  | .readMerge size => M ≤ size ∧ size ≤ s.metaSize
  | .attrMeta epoch => epoch ≤ s.sizeStateEpoch
  | .attrMerge epoch size => M ≤ size ∧ size ≤ s.metaSize ∧ epoch ≤ s.sizeStateEpoch ∧
      (s.sizeStateEpoch = epoch → g.returned ≤ max size (s.liveSize.getD 0))
  | .closeRelease r | .reclaimFinish r => ∀ n, r ≠ .size n
  | .flushPending _ b => BarrierOk s g b
  | .flushChunks _ b todo inFlight error => BarrierOk s g b ∧
      (error = none → s.writeEpoch = b.epoch → s.FlushCovers todo inFlight g.returned)
  | _ => True

/-- 共有状態の条件 -/
structure SizeShared (M : Nat) (s : SharedInode) (g : SizeGhost) : Prop where
  low : M ≤ s.metaSize
  lowAuthoritative : ∀ a, s.authoritativeSize = some a → M ≤ a
  liveKnown : s.liveSize.isSome = true → s.authoritativeSize.isSome = true
  /-- 返った書き込みは手元の大きさに入っている -/
  seen : g.returned ≤ max (s.authoritativeSize.getD 0) (s.liveSize.getD 0)
  /-- 返った書き込みは、EOF に入っているか、`live_size_` に残っている -/
  kept : g.returned ≤ max s.metaSize (s.liveSize.getD 0)
  covers : s.Covers g.returned
  highAuthoritative : s.authoritativeSize.getD 0 ≤ max s.metaSize g.started
  highLive : s.liveSize.getD 0 ≤ g.started

structure SizeInv (M : Nat) (S : System) (g : SizeGhost) : Prop where
  exclusion : S.Exclusion
  shared : SizeShared M S.inode g
  fds : S.fds ≠ [] → S.inode.authoritativeSize.isSome = true
  floor : ∀ i, g.floor i ≤ g.returned
  threads : S.AllThreads fun _ pc => SizeLocal M S.inode g pc

/-! ## 一動作が大きさに対して行うこと -/

/-- どの動作でも成り立つこと -/
structure SizeStep (s s' : SharedInode) (g g' : SizeGhost) : Prop where
  metaSize : s.metaSize ≤ s'.metaSize
  known : s.authoritativeSize.isSome = true → s'.authoritativeSize.isSome = true
  sizeEpoch : s.sizeStateEpoch ≤ s'.sizeStateEpoch
  writeEpoch : s.writeEpoch ≤ s'.writeEpoch
  started : g.started ≤ g'.started
  covers : ∀ e, s.Covers e → s'.Covers e
  /-- `size_state_epoch_` が動かなければ、`live_size_` も返った書き込みも変わらない -/
  sizeQuiet : s'.sizeStateEpoch = s.sizeStateEpoch →
    s'.liveSize = s.liveSize ∧ g'.returned = g.returned
  writeQuiet : s'.writeEpoch = s.writeEpoch → g'.returned = g.returned

/-- Flush の外の動作では、chunk の末尾は伸びるだけで、凍らせたものは変わらない -/
structure ChunkStep (s s' : SharedInode) : Prop where
  tail : ∀ idx, (s.chunk idx).tail ≤ (s'.chunk idx).tail
  frozen : ∀ idx, (s'.chunk idx).frozen = (s.chunk idx).frozen
  live : s'.writeEpoch = s.writeEpoch → s'.liveSize = s.liveSize

variable {s : SharedInode} {g : SizeGhost}

theorem SizeStep.rfl : SizeStep s s g g :=
  ⟨le_rfl, id, le_rfl, le_rfl, le_rfl, fun _ => id, fun _ => ⟨Eq.refl _, Eq.refl _⟩,
    fun _ => Eq.refl _⟩

theorem ChunkStep.rfl : ChunkStep s s :=
  ⟨fun _ => le_rfl, fun _ => Eq.refl _, fun _ => Eq.refl _⟩

section

variable {M : Nat} {s s' : SharedInode} {g g' : SizeGhost}

theorem BarrierOk.stable (h : BarrierOk s g b) (hs : SizeStep s s' g g')
    (hc : ChunkStep s s') : BarrierOk s' g' b where
  epoch := h.epoch.trans hs.writeEpoch
  started := h.started.trans hs.started
  known := fun hb => hs.known (h.known hb)
  live := fun he => by
    have hle := h.epoch
    have hmono := hs.writeEpoch
    rw [hc.live (by omega)]
    exact h.live (by omega)

theorem SharedInode.FlushCovers.stable (h : s.FlushCovers todo inFlight e)
    (hmeta : s.metaSize ≤ s'.metaSize) (hc : ChunkStep s s') : s'.FlushCovers todo inFlight e := by
  rcases h with h | ⟨idx, hidx, hle⟩ | ⟨idx, hidx, hle⟩
  · exact .inl (h.trans hmeta)
  · exact .inr (.inl ⟨idx, hidx, hle.trans (hc.tail idx)⟩)
  · exact .inr (.inr ⟨idx, hidx, by rw [hc.frozen]; exact hle⟩)

variable {pc pc' : Pc}

theorem SizeLocal.stable (h : SizeLocal M s g pc) (hs : SizeStep s s' g g')
    (hc : pc.flushing.isSome = true → ChunkStep s s') : SizeLocal M s' g' pc := by
  have hnone : s'.authoritativeSize = none → s.authoritativeSize = none := by
    intro he
    by_contra hne
    simpa [he] using hs.known (Option.isSome_iff_ne_none.mpr hne)
  cases pc with
  | openReconcile a epoch size flags =>
    exact h.imp_right fun hsize he => (hsize (hnone he)).imp_right fun hle => hle.trans hs.metaSize
  | writeLock fd off len append => exact ⟨hs.known h.1, h.2.trans hs.started⟩
  | writeCheck fd off len append => exact ⟨hs.known h.1, h.2.trans hs.started⟩
  | writeLoop fd cursor stop append nonempty =>
    exact ⟨hs.known h.1, h.2.1.trans hs.started, fun hn => (h.2.2 hn).imp_right (hs.covers _)⟩
  | writeFinish fd stop append nonempty =>
    exact ⟨hs.known h.1, h.2.1.trans hs.started, fun hn => hs.covers _ (h.2.2 hn)⟩
  | readMerge size => exact ⟨h.1, h.2.trans hs.metaSize⟩
  | attrMeta epoch => exact h.trans hs.sizeEpoch
  | attrMerge epoch size =>
    obtain ⟨hlow, hhigh, hepoch, hquiet⟩ := h
    refine ⟨hlow, hhigh.trans hs.metaSize, hepoch.trans hs.sizeEpoch, fun he => ?_⟩
    have hmono := hs.sizeEpoch
    obtain ⟨hlive, hret⟩ := hs.sizeQuiet (by omega)
    rw [hlive, hret]
    exact hquiet (by omega)
  | flushPending k b => exact BarrierOk.stable h hs (hc rfl)
  | flushChunks k b todo inFlight error =>
    refine ⟨h.1.stable hs (hc rfl), fun herr he => ?_⟩
    have hle := h.1.epoch
    have hmono := hs.writeEpoch
    rw [hs.writeQuiet (by omega)]
    exact (h.2 herr (by omega)).stable hs.metaSize (hc rfl)
  | _ => exact h

theorem SizeGhost.watch_abort (h : pc.abortable = true) : g.watch S (.ran i pc pc') = g := by
  cases pc <;> first | rfl | cases h

theorem SizeGhost.floor_watch : (g.watch S (.ran i pc pc')).floor = g.floor := by
  cases pc <;> rfl

theorem SizeGhost.returned_watch : g.returned ≤ (g.watch S (.ran i pc pc')).returned := by
  cases pc with
  | writeFinish fd stop append nonempty =>
    cases nonempty
    · exact le_rfl
    · exact le_max_left _ _
  | _ => exact le_rfl

theorem SizeStep.initializeSize (s : SharedInode) (g : SizeGhost) (size : Nat) :
    SizeStep s (s.initializeSize size) g g where
  metaSize := le_rfl
  known _ := Eq.refl _
  sizeEpoch := by
    show s.sizeStateEpoch ≤ if s.authoritativeSize.isSome then _ else _
    split
    · exact le_rfl
    · exact Nat.le_succ _
  writeEpoch := le_rfl
  started := le_rfl
  covers _ := id
  sizeQuiet _ := ⟨Eq.refl _, Eq.refl _⟩
  writeQuiet _ := Eq.refl _

theorem SizeStep.finishFlush (hb : BarrierOk s g b) :
    SizeStep s (s.finishFlush b) g g where
  metaSize := le_rfl
  known hk := by
    dsimp only [SharedInode.finishFlush]
    split
    · exact Eq.refl _
    · exact hk
  sizeEpoch := by
    show s.sizeStateEpoch ≤ if b.live.isSome then _ else _
    split
    · exact Nat.le_succ _
    · exact le_rfl
  writeEpoch := le_rfl
  started := le_rfl
  covers _ := id
  sizeQuiet he := by
    refine ⟨?_, Eq.refl _⟩
    -- `size_state_epoch_` が動かないのは、控えた `live_size_` が空のときだけである
    have hempty : b.live = none := by
      by_contra hne
      have hsome := Option.isSome_iff_ne_none.mpr hne
      simp [SharedInode.finishFlush, hsome] at he
    show (if s.writeEpoch = b.epoch then none else s.liveSize) = s.liveSize
    split
    next heq => rw [hb.live heq, hempty]
    next => exact Eq.refl _
  writeQuiet _ := Eq.refl _

variable {l : Locks} {S : System} {i : Nat} {pc pc' : Pc}

theorem Moves.sizeStep (hm : Moves l s pc s' pc') (hpc : SizeLocal M s g pc) :
    SizeStep s s' g (g.watch S (.ran i pc pc')) := by
  cases hm
  case abort e ha =>
    rw [SizeGhost.watch_abort ha]
    exact .rfl
  case reconcile a epoch size flags hpolicy =>
    exact { SizeStep.initializeSize s g size with }
  case reconcileTrunc a epoch size flags htrunc hpolicy =>
    exact { SizeStep.initializeSize s g size with }
  case truncate => cases hpc
  case initCreated => cases hpc
  case readMerge size => exact .initializeSize s g size
  case acceptPart fd cursor stop append nonempty idx next hnext =>
    exact { SizeStep.rfl (s := s) (g := g) with covers := fun _ he => he.accept }
  case freeze =>
    exact { SizeStep.rfl (s := s) (g := g) with covers := fun _ he => he.freeze }
  case publishPart idx stop =>
    exact { SizeStep.rfl (s := s) (g := g) with
      metaSize := SharedInode.metaSize_publishUpTo idx stop
      covers := fun _ he => he.publishUpTo }
  case publish idx hn =>
    exact { SizeStep.rfl (s := s) (g := g) with
      metaSize := SharedInode.metaSize_publishChunk idx
      covers := fun _ he => he.publishChunk }
  case flushed k b => exact .finishFlush hpc.1
  case attrMerge epoch size =>
    refine { SizeStep.rfl (s := s) (g := g) with known := fun hk => ?_ }
    show Option.isSome (if _ then _ else _) = true
    split
    · exact Eq.refl _
    · exact hk
  case writeFinish fd stop append nonempty =>
    cases nonempty with
    | false => exact .rfl
    | true =>
      refine { SizeStep.rfl (s := s) (g := g) with
        sizeEpoch := Nat.le_succ _, writeEpoch := Nat.le_succ _
        sizeQuiet := fun he => absurd he (Nat.succ_ne_self _)
        writeQuiet := fun he => absurd he (Nat.succ_ne_self _) }
  all_goals exact { SizeStep.rfl (s := s) (g := g) with }

theorem Moves.chunkStep (hm : Moves l s pc s' pc') (hpc : SizeLocal M s g pc)
    (hflush : pc.flushing = none) : ChunkStep s s' := by
  cases hm
  case truncate => cases hpc
  case acceptPart fd cursor stop append nonempty idx next hnext =>
    refine { ChunkStep.rfl (s := s) with tail := fun j => ?_, frozen := fun j => ?_ }
    · by_cases he : j = idx
      · subst he
        rw [SharedInode.chunk_setChunk_self, ChunkTail.tail_accept]
        exact le_max_left _ _
      · rw [SharedInode.chunk_setChunk_ne he]
    · by_cases he : j = idx
      · subst he
        rw [SharedInode.chunk_setChunk_self]
        rfl
      · rw [SharedInode.chunk_setChunk_ne he]
  case writeFinish fd stop append nonempty =>
    cases nonempty with
    | false => exact .rfl
    | true =>
      exact { ChunkStep.rfl (s := s) with live := fun he => absurd he (Nat.succ_ne_self _) }
  all_goals
    first
      | exact { ChunkStep.rfl (s := s) with }
      | cases hflush

/-! ## 共有状態の条件 -/

section

variable (h : SizeShared M s g)
include h

theorem SizeShared.initializeSize
    (hsize : s.authoritativeSize = none → M ≤ size ∧ size ≤ s.metaSize) :
    SizeShared M (s.initializeSize size) g := by
  cases ha : s.authoritativeSize with
  | some a =>
    have hself : (s.initializeSize size).authoritativeSize = s.authoritativeSize := by
      simp [SharedInode.initializeSize, ha]
    exact { h with
      lowAuthoritative := by rw [hself]; exact h.lowAuthoritative
      liveKnown := by rw [hself]; exact h.liveKnown
      seen := by rw [hself]; exact h.seen
      highAuthoritative := by rw [hself]; exact h.highAuthoritative }
  | none =>
    have hself : (s.initializeSize size).authoritativeSize = some size := by
      simp [SharedInode.initializeSize, ha]
    have hseen := h.seen
    rw [ha] at hseen
    refine { h with
      lowAuthoritative := fun a he => ?_
      liveKnown := fun _ => Eq.refl _
      seen := ?_
      highAuthoritative := ?_ }
    · rw [hself] at he
      cases he
      exact (hsize ha).1
    · rw [hself]
      exact hseen.trans (max_le_max (Nat.zero_le _) le_rfl)
    · rw [hself]
      exact le_max_of_le_left (hsize ha).2

theorem SizeShared.mergeAttr
    (hpc : SizeLocal M s g (.attrMerge epoch size)) : SizeShared M (s.mergeAttr epoch size) g := by
  obtain ⟨hlow, hhigh, -, hquiet⟩ := hpc
  by_cases he : s.sizeStateEpoch = epoch
  · have hself : (s.mergeAttr epoch size).authoritativeSize = some size := if_pos he
    refine { h with
      lowAuthoritative := fun a ha => ?_
      liveKnown := fun _ => by rw [hself]; rfl
      seen := by rw [hself]; exact hquiet he
      highAuthoritative := by rw [hself]; exact le_max_of_le_left hhigh }
    rw [hself] at ha
    cases ha
    exact hlow
  · have hself : (s.mergeAttr epoch size).authoritativeSize = s.authoritativeSize := if_neg he
    exact { h with
      lowAuthoritative := by rw [hself]; exact h.lowAuthoritative
      liveKnown := by rw [hself]; exact h.liveKnown
      seen := by rw [hself]; exact h.seen
      highAuthoritative := by rw [hself]; exact h.highAuthoritative }

theorem SizeShared.acceptWrite (hknown : s.authoritativeSize.isSome = true)
    (hstop : stop ≤ g.started) (hcovers : s.Covers stop) :
    SizeShared M (s.acceptWrite stop) { g with returned := max g.returned stop } where
  low := h.low
  lowAuthoritative := h.lowAuthoritative
  liveKnown _ := hknown
  seen := by
    have hseen := h.seen
    simp only [SharedInode.acceptWrite, Option.getD_some]
    omega
  kept := by
    have hkept := h.kept
    simp only [SharedInode.acceptWrite, Option.getD_some]
    omega
  covers := by
    rcases max_choice g.returned stop with he | he
    · rw [he]; exact h.covers
    · rw [he]; exact hcovers
  highAuthoritative := h.highAuthoritative
  highLive := max_le h.highLive hstop

theorem SizeShared.finishFlush (hb : BarrierOk s g b)
    (hcovers : s.writeEpoch = b.epoch → s.FlushCovers [] [] g.returned) :
    SizeShared M (s.finishFlush b) g := by
  -- 控えの後で書き込みが返っていなければ、返った書き込みはすべて EOF に入っている
  have hmeta : s.writeEpoch = b.epoch → g.returned ≤ s.metaSize := by
    intro he
    rcases hcovers he with hc | ⟨idx, hidx, -⟩ | ⟨idx, hidx, -⟩
    · exact hc
    · cases hidx
    · cases hidx
  have hseen := h.seen
  have hkept := h.kept
  have hlive : (s.finishFlush b).liveSize = if s.writeEpoch = b.epoch then none else s.liveSize :=
    Eq.refl _
  cases hl : b.live with
  | none =>
    have hself : (s.finishFlush b).authoritativeSize = s.authoritativeSize := by
      simp [SharedInode.finishFlush, hl]
    have hsame : (s.finishFlush b).liveSize = s.liveSize := by
      rw [hlive]
      split
      next he => rw [hb.live he, hl]
      next => exact Eq.refl _
    exact {
      low := h.low
      lowAuthoritative := by rw [hself]; exact h.lowAuthoritative
      liveKnown := by rw [hself, hsame]; exact h.liveKnown
      seen := by rw [hself, hsame]; exact hseen
      kept := by rw [hsame]; exact hkept
      covers := h.covers
      highAuthoritative := by rw [hself]; exact h.highAuthoritative
      highLive := by rw [hsame]; exact h.highLive }
  | some n =>
    have hself : (s.finishFlush b).authoritativeSize =
        some (max (s.authoritativeSize.getD 0) n) := by
      simp [SharedInode.finishFlush, hl]
    have hn : n ≤ g.started := by simpa [hl] using hb.started
    obtain ⟨a, ha⟩ := Option.isSome_iff_exists.mp (hb.known (by simp [hl]))
    refine {
      low := h.low
      lowAuthoritative := fun a' he => ?_
      liveKnown := fun _ => by rw [hself]; rfl
      seen := ?_
      kept := ?_
      covers := h.covers
      highAuthoritative := ?_
      highLive := ?_ }
    · rw [hself, ha] at he
      cases he
      exact le_max_of_le_left (h.lowAuthoritative a ha)
    · rw [hself, hlive]
      split
      next he =>
        rw [hb.live he, hl] at hseen
        exact le_max_of_le_left hseen
      next =>
        simp only [Option.getD_some]
        omega
    · rw [hlive]
      split
      next he => exact le_max_of_le_left (hmeta he)
      next => exact hkept
    · rw [hself]
      have hhigh := h.highAuthoritative
      simp only [Option.getD_some]
      show _ ≤ max s.metaSize g.started
      omega
    · rw [hlive]
      split
      · exact Nat.zero_le _
      · exact h.highLive

theorem SizeShared.publish (hmeta : s.metaSize ≤ s'.metaSize)
    (hauth : s'.authoritativeSize = s.authoritativeSize) (hlive : s'.liveSize = s.liveSize)
    (hcovers : s'.Covers g.returned) : SizeShared M s' g where
  low := h.low.trans hmeta
  lowAuthoritative := by rw [hauth]; exact h.lowAuthoritative
  liveKnown := by rw [hauth, hlive]; exact h.liveKnown
  seen := by rw [hauth, hlive]; exact h.seen
  kept := by rw [hlive]; exact h.kept.trans (max_le_max hmeta le_rfl)
  covers := hcovers
  highAuthoritative := by rw [hauth]; exact h.highAuthoritative.trans (max_le_max hmeta le_rfl)
  highLive := by rw [hlive]; exact h.highLive

theorem SizeShared.moved (hm : Moves l s pc s' pc')
    (hpc : SizeLocal M s g pc) : SizeShared M s' (g.watch S (.ran i pc pc')) := by
  cases hm
  case abort e ha =>
    rw [SizeGhost.watch_abort ha]
    exact h
  case reconcile a epoch size flags hpolicy => exact { h.initializeSize hpc.2 with }
  case reconcileTrunc a epoch size flags htrunc hpolicy => exact { h.initializeSize hpc.2 with }
  case truncate => cases hpc
  case initCreated => cases hpc
  case readMerge size => exact h.initializeSize fun _ => hpc
  case attrMerge epoch size => exact h.mergeAttr hpc
  case writeFinish fd stop append nonempty =>
    cases nonempty with
    | false => exact h
    | true => exact h.acceptWrite hpc.1 hpc.2.1 (hpc.2.2 rfl)
  case acceptPart fd cursor stop append nonempty idx next hnext =>
    exact h.publish le_rfl (Eq.refl _) (Eq.refl _) h.covers.accept
  case freeze => exact h.publish le_rfl (Eq.refl _) (Eq.refl _) h.covers.freeze
  case publishPart idx stop =>
    exact h.publish (SharedInode.metaSize_publishUpTo idx stop) (Eq.refl _) (Eq.refl _)
      h.covers.publishUpTo
  case publish idx hn =>
    exact h.publish (SharedInode.metaSize_publishChunk idx) (Eq.refl _) (Eq.refl _)
      h.covers.publishChunk
  case flushed k b => exact h.finishFlush hpc.1 (hpc.2 rfl)
  all_goals exact { h with }

end

/-! ## thread ごとの条件 -/

theorem SizeLocal.moved (h : SizeShared M s g) (hm : Moves l s pc s' pc')
    (hpc : SizeLocal M s g pc) : SizeLocal M s' (g.watch S (.ran i pc pc')) pc' := by
  cases hm
  case abort => trivial
  case acquire => exact hpc
  case snapshot => exact hpc
  case sample => exact ⟨hpc, fun _ => ⟨h.low, le_rfl⟩⟩
  case reconcileTrunc htrunc hpolicy => simp [hpc.1] at htrunc
  case acquireCreated => exact hpc
  case writeLock => exact hpc
  case admitWrite hstop hlen =>
    refine ⟨hpc.1, hstop ▸ hpc.2, fun hn => .inl ?_⟩
    have hpos := hlen hn
    omega
  case acceptPart fd cursor stop append nonempty idx next hnext =>
    refine ⟨hpc.1, hpc.2.1, fun _ => .inr (.inr ⟨idx, ?_⟩)⟩
    rw [SharedInode.chunk_setChunk_self, ChunkTail.tail_accept]
    exact le_max_right _ _
  case accepted fd cursor stop append nonempty hge =>
    refine ⟨hpc.1, hpc.2.1, fun hn => ?_⟩
    rcases hpc.2.2 hn with hlt | hcovers
    · omega
    · exact hcovers.mono hge
  case readMeta => exact ⟨h.low, le_rfl⟩
  case attrEpoch => exact le_refl s.sizeStateEpoch
  case attrMeta epoch => exact ⟨h.low, le_rfl, hpc, fun _ => h.kept⟩
  case barrier k => exact ⟨le_rfl, h.highLive, h.liveKnown, fun _ => Eq.refl _⟩
  case pending k b => exact ⟨hpc, fun _ _ => .of_covers h.covers⟩
  case freeze k b todo inFlight error n idx hn =>
    exact ⟨{ hpc.1 with }, fun herr he => (hpc.2 herr he).freeze hn⟩
  case publishPart k b todo inFlight error idx stop =>
    refine ⟨{ hpc.1 with }, fun herr he => ?_⟩
    exact (hpc.2 herr he).stable (SharedInode.metaSize_publishUpTo idx stop)
      { ChunkStep.rfl (s := s) with }
  case publish k b todo inFlight error n idx hn =>
    exact ⟨{ hpc.1 with }, fun herr he => (hpc.2 herr he).publish hn⟩
  case chunkFailed k b todo inFlight error n e =>
    refine ⟨hpc.1, fun herr => ?_⟩
    cases error <;> cases herr
  case flushUnsafe k e => rcases k with ⟨_, _ | _⟩ | f <;> first | trivial | exact nofun
  case flushed k b => rcases k with ⟨_, _ | _⟩ | f <;> first | trivial | exact nofun
  case flushFailed k b e => rcases k with ⟨_, _ | _⟩ | f <;> first | trivial | exact nofun
  case reclaimed r hr => exact hr
  all_goals trivial

theorem SizeShared.result (h : SizeShared M s g) (hm : Moves l s pc s' pc')
    (hpc : SizeLocal M s g pc) (hn : pc' = .done (.size n)) :
    M ≤ n ∧ g.returned ≤ n ∧ n ≤ max s.metaSize g.started := by
  have hseen := h.seen
  have hlive := h.highLive
  have hauth := h.highAuthoritative
  cases hm
  case readCached a ha =>
    cases hn
    have hlow := h.lowAuthoritative a ha
    rw [ha] at hseen hauth
    simp only [FileReadWriter.visibleSize, Option.getD_some] at *
    omega
  case readMerge size =>
    cases hn
    have hinit := h.initializeSize fun _ => hpc
    have hlow := hinit.lowAuthoritative _ (Eq.refl _)
    have hseen' := hinit.seen
    have hauth' := hinit.highAuthoritative
    simp only [FileReadWriter.visibleSize, SharedInode.initializeSize, Option.getD_some] at *
    omega
  case attrMerge epoch size =>
    cases hn
    obtain ⟨hlow, hhigh, -, hquiet⟩ := hpc
    simp only [SharedInode.mergedSize]
    split
    next he =>
      have hret := hquiet he
      omega
    next => omega
  case closeRelease r =>
    cases hn
    exact absurd rfl (hpc n)
  case reclaimFinish r =>
    cases hn
    exact absurd rfl (hpc n)
  case flushUnsafe k e => rcases k with ⟨_, _ | _⟩ | f <;> cases hn
  case flushed k b => rcases k with ⟨_, _ | _⟩ | f <;> cases hn
  case flushFailed k b e => rcases k with ⟨_, _ | _⟩ | f <;> cases hn
  all_goals cases hn

theorem Moves.opens_known (hm : Moves l s pc s' pc') (hpc : SizeLocal M s g pc)
    (ho : pc.opens = true) (hdone : pc' = .done .ok) : s'.authoritativeSize.isSome = true := by
  cases hm
  case reconcile => rfl
  case truncate => cases hpc
  case initCreated => cases hpc
  case flushUnsafe => cases ho
  case flushed => cases ho
  case flushFailed => cases ho
  all_goals first | (cases hdone; done) | cases ho

end

/-! ## 実行 -/

/-- 期間の中で起きること。大きさを変える呼び出しは始まらない -/
def HandleEvent.KeepsSize : HandleEvent → Prop
  | .call (.open o) => o.trunc = false
  | .call .openCreated => False
  | _ => True

section

variable {M : Nat} {S : System} {g : SizeGhost}

theorem SizeInv.start (h : SizeInv M S g) (hc : S.enabled c = true)
    (hkeep : (HandleEvent.call c).KeepsSize) : SizeInv M (S.start c) (g.watch S (.call c)) := by
  have hstarted : g.started ≤ (g.watch S (.call c)).started := by
    cases c <;> first | exact le_rfl | exact le_max_left _ _
  have hreturned : (g.watch S (.call c)).returned = g.returned := by cases c <;> rfl
  have hstep : SizeStep S.inode S.inode g (g.watch S (.call c)) :=
    { SizeStep.rfl (s := S.inode) (g := g) with
      started := hstarted
      sizeQuiet := fun _ => ⟨rfl, hreturned⟩
      writeQuiet := fun _ => hreturned }
  refine ⟨h.exclusion.start c, ?_, ?_, ?_, ?_⟩
  · exact { h.shared with
      seen := by rw [hreturned]; exact h.shared.seen
      kept := by rw [hreturned]; exact h.shared.kept
      covers := by rw [hreturned]; exact h.shared.covers
      highAuthoritative := h.shared.highAuthoritative.trans (max_le_max le_rfl hstarted)
      highLive := h.shared.highLive.trans hstarted }
  · intro hne
    refine h.fds ?_
    rintro hnil
    cases c <;> simp_all [System.start]
  · intro i
    rw [hreturned]
    have hupdate : update g.floor S.threads.length g.returned i ≤ g.returned := by
      by_cases hi : i = S.threads.length
      · rw [hi, update_self]
      · rw [update_of_ne hi]
        exact h.floor i
    cases c <;> first | exact hupdate | exact h.floor i
  · refine System.AllThreads.start h.threads c
      (fun _ _ _ hpc => hpc.stable hstep fun _ => .rfl) ?_
    cases c with
    | «open» o => exact hkeep
    | openCreated => exact hkeep
    | write fd off len append =>
      refine ⟨h.fds ?_, le_max_right _ _⟩
      rintro hnil
      simp [System.enabled, hnil] at hc
    | _ => trivial

theorem SizeInv.advance (h : SizeInv M S g)
    (hi : S.threads[i]? = some pc) (hm : Moves (S.locks i) S.inode pc s pc') :
    SizeInv M (S.advance i s pc pc') (g.watch S (.ran i pc pc')) := by
  have hpc := h.threads i pc hi
  have hstep := hm.sizeStep (S := S) (i := i) hpc
  refine ⟨h.exclusion.advance hi hm, h.shared.moved hm hpc, ?_, ?_, ?_⟩
  · intro hne
    by_cases ho : pc.opens = true ∧ pc' = .done .ok
    · exact hm.opens_known hpc ho.1 ho.2
    · refine hstep.known (h.fds ?_)
      simpa [System.advance, ho] using hne
  · intro j
    rw [SizeGhost.floor_watch]
    exact (h.floor j).trans SizeGhost.returned_watch
  · refine System.AllThreads.advance h.threads (fun j q hj hq hloc => ?_)
      (SizeLocal.moved h.shared hm hpc)
    refine hloc.stable hstep fun hflush => hm.chunkStep hpc ?_
    exact (h.exclusion j q hq i pc hi hj).flushing hflush

theorem SizeInv.step (h : SizeInv M S g) (hkeep : ev.KeepsSize)
    (hs : S.step cs ev = some (label, S')) : SizeInv M S' (g.watch S label) := by
  rcases System.step_cases hs with ⟨c, rfl, rfl, hc, rfl⟩ | ⟨i, pc, s, pc', rfl, hi, hm, rfl⟩
  · exact h.start hc hkeep
  · exact h.advance hi hm

end

/-! ## 期間 -/

/--
期間の始まりで途中にある呼び出し。大きさの変更は `operation_mutex_` を排他で持って行われるので、
どれもその lock を持っていない。lock を待つ書き込みは始まった書き込みに数える。手元の大きさがまだ
無ければ、Open の写しは期間の中のものである。
-/
def Pc.IdleAt (s : SharedInode) (g : SizeGhost) : Pc → Prop
  | .openAcquire o | .openSnapshot o | .openMeta o _ => o.trunc = false
  | .openReconcile o _ size _ => o.trunc = false ∧
      (s.authoritativeSize = none → size = s.metaSize)
  | .openTruncate _ | .createdAcquire | .createdInit => False
  | .writeLock _ off len _ => s.authoritativeSize.isSome = true ∧ off + len ≤ g.started
  | .closeRelease r | .reclaimFinish r => ∀ n, r ≠ .size n
  | pc => pc.holdsShared = false ∧ pc.holdsExclusive = false

/-- 期間の始まり。手元の大きさは、まだ無いか、EOF に等しい -/
structure PeriodStart (S : System) (g : SizeGhost) : Prop where
  exclusion : S.Exclusion
  authoritative : S.inode.authoritativeSize = none ∨
    S.inode.authoritativeSize = some S.inode.metaSize
  live : S.inode.liveSize = none
  /-- 開いた descriptor があれば、手元の大きさは決まっている -/
  fds : S.fds ≠ [] → S.inode.authoritativeSize.isSome = true
  returned : g.returned = 0
  floor : ∀ i, g.floor i = 0
  threads : S.AllThreads fun _ pc => pc.IdleAt S.inode g

theorem Pc.IdleAt.sizeLocal (h : pc.IdleAt s g) : SizeLocal s.metaSize s g pc := by
  cases pc with
  | openReconcile o epoch size flags => exact h.imp_right fun hs he => by simp [hs he]
  | flushPending k b => cases k <;> simp [IdleAt, holdsShared, holdsExclusive, flushing] at h
  | flushChunks k b todo inFlight error =>
    cases k <;> simp [IdleAt, holdsShared, holdsExclusive, flushing] at h
  | openTruncate o => exact h
  | openAcquire o => exact h
  | openSnapshot o => exact h
  | openMeta o epoch => exact h
  | createdAcquire => exact h
  | createdInit => exact h
  | writeLock fd off len append => exact h
  | closeRelease r => exact h
  | reclaimFinish r => exact h
  | _ => first | trivial | cases h.1

theorem PeriodStart.sizeInv (h : PeriodStart S g) :
    SizeInv S.inode.metaSize S g where
  exclusion := h.exclusion
  shared := by
    refine ⟨le_rfl, fun a ha => ?_, ?_, ?_, ?_, .inl ?_, ?_, ?_⟩
    · rcases h.authoritative with he | he <;> simp_all
    · simp [h.live]
    · simp [h.returned]
    · simp [h.returned]
    · simp [h.returned]
    · rcases h.authoritative with he | he <;> simp [he]
    · simp [h.live]
  fds := h.fds
  floor := fun i => by simp [h.floor, h.returned]
  threads := fun i pc hi => (h.threads i pc hi).sizeLocal

/--
大きさの変更の間では、どのような実行の後の一手についても、返る大きさ `n` は、期間の始めの EOF と、
その呼び出しが始まる前に返った書き込みの末尾以上で、いまの EOF と始まった書き込みの末尾の最大を越えない。
-/
theorem visible_size_bounds (chunkSize : Nat) (S₀ : System) (g₀ : SizeGhost)
    (hstart : PeriodStart S₀ g₀) (evs : List HandleEvent) (hkeep : ∀ ev ∈ evs, ev.KeepsSize) :
    let r := System.runWith SizeGhost.watch chunkSize (S₀, g₀) evs
    ∀ ev i pc n S', r.1.step chunkSize ev = some (.ran i pc (.done (.size n)), S') →
      S₀.inode.metaSize ≤ n ∧ r.2.floor i ≤ n ∧ n ≤ max r.1.inode.metaSize r.2.started := by
  intro r ev i pc n S' hs
  have h : SizeInv S₀.inode.metaSize r.1 r.2 := Infra.runWith_invariant _ _
    (fun S g ev label S' hk hI hs => SizeInv.step hI hk hs) hkeep hstart.sizeInv
  clear_value r
  rcases System.step_cases hs with ⟨c, -, he, -, -⟩ | ⟨j, q, s, pc', he, hj, hm, -⟩
  · cases he
  · cases he
    obtain ⟨hlow, hret, hhigh⟩ := h.shared.result hm (h.threads i pc hj) rfl
    exact ⟨hlow, (h.floor i).trans hret, hhigh⟩

theorem periodStart_fresh (size : Nat) (flags : InodeFlag) :
    PeriodStart (.fresh size flags) {} where
  exclusion := System.allThreads_fresh
  authoritative := .inl rfl
  live := rfl
  fds := fun hne => absurd rfl hne
  returned := rfl
  floor := fun _ => rfl
  threads := System.allThreads_fresh

/-- 3 byte の file を開き、5 byte 目まで書いてから大きさを問い、答える直前まで進める -/
def growHistory : List HandleEvent := List.flatten [
  .call (.open { writable := true }) :: List.replicate 4 (.run 0 {}),
  .call (.write 0 1 4 false) :: List.replicate 6 (.run 1 {}),
  .call .getAttr :: List.replicate 3 (.run 2 {})]

theorem visible_size_bounds_sample :
    let r := System.runWith SizeGhost.watch 4 (.fresh 3 {}, {}) growHistory
    r.2.floor 2 = 5 ∧ r.1.inode.metaSize = 3 ∧ 3 ≤ 5 ∧ r.2.floor 2 ≤ 5 ∧
      5 ≤ max r.1.inode.metaSize r.2.started :=
  ⟨rfl, rfl, visible_size_bounds 4 (.fresh 3 {}) {} (periodStart_fresh 3 {}) growHistory
    (by simp [growHistory, HandleEvent.KeepsSize]) (.run 2 {}) 2 _ 5 _ rfl⟩

end SwordFS.Vfs
