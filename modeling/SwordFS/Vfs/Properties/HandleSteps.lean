import SwordFS.Vfs.InodeHandle

/-!
# InodeHandle の一動作

`InodeHandle` の状態機械で一動作が何をし得るかを一度だけ述べる。並行実行の不変条件はここから導く。
-/

namespace SwordFS.Vfs

open Infra Metadata Chunk

/-! ## 一つの thread の一動作 -/

/-- 共有状態を変えずに失敗で終わり得るところ。参照を持つものは含まない -/
def Pc.abortable : Pc → Bool
  | .openAcquire _ | .createdAcquire | .writeLock .. | .writeCheck .. | .writeLoop .. | .readLock
  | .readMeta | .attrLock | .attrMeta _ | .flagsLock _ | .flagsCommit _ => true
  | _ => false

/-- 他の thread が `l` の lock を持つときに、一つの thread が行い得る一動作 -/
inductive Moves (l : Locks) : SharedInode → Pc → SharedInode → Pc → Prop
  | abort {s pc} (e : Status) : pc.abortable → Moves l s pc s (.done (.failed e))
  | acquire {s a} : s.reclaimStarted = false →
      Moves l s (.openAcquire a) { s with openCount := s.openCount + 1 } (.openSnapshot a)
  | snapshot {s a} : Moves l s (.openSnapshot a) s (.openMeta a s.inodeFlagEpoch)
  | sample {s a epoch} :
      Moves l s (.openMeta a epoch) s (.openReconcile a epoch s.metaSize s.metaFlags)
  | openFailed {s a epoch e} : Moves l s (.openMeta a epoch) s (.openRelease e)
  | refuse {s a epoch size flags e} :
      checkOpenPolicy (s.adoptFlags epoch flags).inodeFlags a = some e →
      Moves l s (.openReconcile a epoch size flags) (s.adoptFlags epoch flags) (.openRelease e)
  | reconcile {s a epoch size flags} :
      checkOpenPolicy (s.adoptFlags epoch flags).inodeFlags a = none →
      Moves l s (.openReconcile a epoch size flags)
        ((s.adoptFlags epoch flags).initializeSize size) (.done .ok)
  | reconcileTrunc {s a epoch size flags} : a.trunc = true →
      checkOpenPolicy (s.adoptFlags epoch flags).inodeFlags a = none →
      Moves l s (.openReconcile a epoch size flags)
        ((s.adoptFlags epoch flags).initializeSize size) (.openTruncate a)
  | truncateFailed {s a e} : Moves l s (.openTruncate a) s (.openRelease e)
  | truncate {s a} : l.shared = false → l.exclusive = false →
      Moves l s (.openTruncate a) s.truncated (.done .ok)
  | openRelease {s e} :
      Moves l s (.openRelease e) { s with openCount := s.openCount - 1 } (.done (.failed e))
  | acquireCreated {s} : s.reclaimStarted = false →
      Moves l s .createdAcquire { s with openCount := s.openCount + 1 } .createdInit
  | initCreated {s} : Moves l s .createdInit (s.initializeSize 0) (.done .ok)
  | writeLock {s fd off len append} : l.exclusive = false →
      Moves l s (.writeLock fd off len append) s (.writeCheck fd off len append)
  | admitWrite {s fd off len append stop nonempty} : checkWritePolicy s.inodeFlags append = none →
      stop = off + len → (nonempty = true → 0 < len) →
      Moves l s (.writeCheck fd off len append) s (.writeLoop fd off stop append nonempty)
  | acceptPart {s fd cursor stop append nonempty} (idx next : Nat) : next ≤ stop →
      Moves l s (.writeLoop fd cursor stop append nonempty)
        (s.setChunk idx ((s.chunk idx).accept next)) (.writeLoop fd next stop append nonempty)
  | accepted {s fd cursor stop append nonempty} : stop ≤ cursor →
      Moves l s (.writeLoop fd cursor stop append nonempty) s
        (.writeFinish fd stop append nonempty)
  | writeFinish {s fd stop append nonempty} :
      Moves l s (.writeFinish fd stop append nonempty)
        (if nonempty then s.acceptWrite stop else s) (.done .ok)
  | readLock {s} : l.exclusive = false → Moves l s .readLock s .readSize
  | readCached {s a} : s.authoritativeSize = some a →
      Moves l s .readSize s (.done (.size (s.visibleSize a)))
  | readUncached {s} : s.authoritativeSize = none → Moves l s .readSize s .readMeta
  | readMeta {s} : Moves l s .readMeta s (.readMerge s.metaSize)
  | readMerge {s size} : Moves l s (.readMerge size) (s.initializeSize size)
      (.done (.size ((s.initializeSize size).visibleSize
        ((s.initializeSize size).authoritativeSize.getD 0))))
  | attrLock {s} : l.exclusive = false → Moves l s .attrLock s .attrEpoch
  | attrEpoch {s} : Moves l s .attrEpoch s (.attrMeta s.sizeStateEpoch)
  | attrMeta {s epoch} : Moves l s (.attrMeta epoch) s (.attrMerge epoch s.metaSize)
  | attrMerge {s epoch size} : Moves l s (.attrMerge epoch size) (s.mergeAttr epoch size)
      (.done (.size (s.mergedSize epoch size)))
  | flushMutex {s fd closing} : l.flush = false →
      Moves l s (.flushMutex fd closing) s (.flushLock fd closing)
  | flushLock {s fd closing} : l.exclusive = false →
      Moves l s (.flushLock fd closing) s (.flushBarrier (.handle fd closing))
  | flushUnsafe {s k e} : Moves l s (.flushBarrier k) s (k.resume (some e))
  | barrier {s k} :
      Moves l s (.flushBarrier k) s (.flushPending k ⟨s.writeEpoch, s.liveSize⟩)
  | pending {s k b} :
      Moves l s (.flushPending k b) s (.flushChunks k b s.pendingWrites [] none)
  | freeze {s k b todo inFlight error} (n idx : Nat) : todo[n]? = some idx →
      Moves l s (.flushChunks k b todo inFlight error) (s.setChunk idx (s.chunk idx).freeze)
        (.flushChunks k b (todo.eraseIdx n) (idx :: inFlight) error)
  | publishPart {s k b todo inFlight error} (idx stop : Nat) :
      Moves l s (.flushChunks k b todo inFlight error) (s.publishUpTo idx stop)
        (.flushChunks k b todo inFlight error)
  | publish {s k b todo inFlight error} (n idx : Nat) : inFlight[n]? = some idx →
      Moves l s (.flushChunks k b todo inFlight error) (s.publishChunk idx)
        (.flushChunks k b todo (inFlight.eraseIdx n) error)
  | chunkFailed {s k b todo inFlight error} (n : Nat) (e : Status) :
      Moves l s (.flushChunks k b todo inFlight error) s
        (.flushChunks k b todo (inFlight.eraseIdx n) (error.or (some e)))
  | flushed {s k b} :
      Moves l s (.flushChunks k b [] [] none) (s.finishFlush b) (k.resume none)
  | flushFailed {s k b e} : Moves l s (.flushChunks k b [] [] (some e)) s (k.resume (some e))
  | closeLast {s fd} : s.openCount = 1 →
      Moves l s (.closePrepare fd) s (.flushMutex fd true)
  | closeEarly {s fd} : s.openCount ≠ 1 →
      Moves l s (.closePrepare fd) { s with openCount := s.openCount - 1 } (.done .ok)
  | closeRelease {s r} :
      Moves l s (.closeRelease r) { s with openCount := s.openCount - 1 } (.done r)
  | flagsLock {s f} : l.shared = false → l.exclusive = false →
      Moves l s (.flagsLock f) s (.flagsCheck f)
  | flagsFlush {s f} : Moves l s (.flagsCheck f) s (.flushBarrier (.setInodeFlags f))
  | flagsSkip {s f} : f = s.inodeFlags ∨ f = {} → Moves l s (.flagsCheck f) s (.flagsCommit f)
  | flagsCommit {s f} :
      Moves l s (.flagsCommit f) { s with metaFlags := f } (.flagsStore f)
  | flagsLost {s f e} :
      Moves l s (.flagsCommit f) { s with metaFlags := f } (.done (.failed e))
  | flagsStore {s f} : Moves l s (.flagsStore f)
      { s with inodeFlags := f, inodeFlagEpoch := s.inodeFlagEpoch + 1 } (.done .ok)
  | reclaimBusy {s} : Moves l s .reclaimTry s (.done .ok)
  | claim {s} : s.openCount = 0 →
      Moves l s .reclaimTry { s with reclaimStarted := true } .reclaimMeta
  | reclaimed {s r} : (∀ n, r ≠ .size n) → Moves l s .reclaimMeta s (.reclaimFinish r)
  | reclaimFinish {s r} :
      Moves l s (.reclaimFinish r) { s with reclaimStarted := false } (.done r)

theorem calculateFileRangeEnd_ok {off len stop : Nat}
    (h : calculateFileRangeEnd off len = .ok stop) : stop = off + len := by
  unfold calculateFileRangeEnd at h
  split at h
  · cases h
  split at h
  · cases h
  · simpa using h.symm

variable {s s' : SharedInode}

theorem flushStep_moves (h : flushStep o s k b todo inFlight error = some (s', pc')) :
    Moves l s (.flushChunks k b todo inFlight error) s' pc' := by
  revert h
  fun_cases flushStep <;> intro h <;> cases h
  · exact .freeze _ _ ‹_›
  · exact .publishPart ..
  · exact .publish _ _ ‹_›
  · exact .chunkFailed ..
  all_goals
    obtain ⟨rfl, rfl⟩ := ‹_ = [] ∧ _ = []›
  · exact .flushed
  · exact .flushFailed

theorem reconcileOpenState_moves (h : reconcileOpenState s a epoch size flags = (s', pc')) :
    Moves l s (.openReconcile a epoch size flags) s' pc' := by
  unfold reconcileOpenState at h
  dsimp only at h
  split at h
  · next hdenied => cases h; exact .refuse hdenied
  · next hallowed =>
    split at h <;> cases h
    · exact .reconcileTrunc ‹_› hallowed
    · exact .reconcile hallowed

theorem Pc.exec_moves {cs : Nat} (h : pc.exec cs l o s = some (s', pc')) : Moves l s pc s' pc' := by
  revert h
  fun_cases exec <;> intro h <;> try cases h
  · exact .abort _ rfl
  · exact .acquire (Bool.eq_false_of_not_eq_true ‹_›)
  · exact .snapshot
  · exact .openFailed
  · exact .sample
  · exact reconcileOpenState_moves (Option.some.inj h)
  · exact .truncateFailed
  · next hfree _ => exact .truncate (by simp_all) (by simp_all)
  · exact .openRelease
  · exact .abort _ rfl
  · exact .acquireCreated (Bool.eq_false_of_not_eq_true ‹_›)
  · exact .initCreated
  · exact .abort _ rfl
  · exact .writeLock (Bool.eq_false_of_not_eq_true ‹_›)
  · exact .abort _ rfl
  · exact .abort _ rfl
  · exact .admitWrite ‹_› (calculateFileRangeEnd_ok ‹_›) (by simp; omega)
  · exact .abort _ rfl
  · exact .abort _ rfl
  · exact .acceptPart _ _ (by omega)
  · exact .accepted (Nat.le_of_not_lt ‹_›)
  · exact .writeFinish
  · exact .abort _ rfl
  · exact .readLock (Bool.eq_false_of_not_eq_true ‹_›)
  · exact .readCached ‹_›
  · exact .readUncached ‹_›
  · exact .abort _ rfl
  · exact .readMeta
  · obtain ⟨rfl, rfl⟩ := Prod.mk.inj (Option.some.inj h)
    exact .readMerge
  · exact .abort _ rfl
  · exact .attrLock (Bool.eq_false_of_not_eq_true ‹_›)
  · exact .attrEpoch
  · exact .abort _ rfl
  · exact .attrMeta
  · exact .attrMerge
  · exact .flushMutex (Bool.eq_false_of_not_eq_true ‹_›)
  · exact .flushLock (Bool.eq_false_of_not_eq_true ‹_›)
  · exact .flushUnsafe
  · exact .barrier
  · exact .pending
  · exact flushStep_moves h
  · exact .closeLast ‹_›
  · exact .closeEarly ‹_›
  · exact .closeRelease
  · exact .abort _ rfl
  · exact .flagsLock (by simp_all) (by simp_all)
  · exact .flagsFlush
  · exact .flagsSkip (by tauto)
  · split
    · exact .flagsLost
    · exact .abort _ rfl
  · exact .flagsCommit
  · exact .flagsStore
  · exact .reclaimBusy
  · exact .claim (by tauto)
  · exact .reclaimed nofun
  · exact .reclaimed nofun
  · exact .reclaimFinish

/-! ## 動作と lock -/

/-- Flush から戻ったところで持つのは、`SetInodeFlags` の排他の lock だけ -/
theorem FlushFor.resume_locks (k : FlushFor) (r : Option Status) :
    ((k.resume r).holdsExclusive → ∃ f, k = .setInodeFlags f) ∧
      (k.resume r).holdsShared = false ∧ (k.resume r).holdsFlush = false := by
  rcases k with ⟨fd, _ | _⟩ | f <;> cases r <;> simp [FlushFor.resume, Pc.holdsExclusive,
    Pc.holdsShared, Pc.holdsFlush, Pc.flushing]

/-- 動作の後で持つ lock は、前から持っていたか、誰も持っていなかったもの -/
theorem Moves.locks (h : Moves l s pc s' pc') :
    (pc'.holdsExclusive → pc.holdsExclusive ∨ l.shared = false ∧ l.exclusive = false) ∧
      (pc'.holdsShared → pc.holdsShared ∨ l.exclusive = false) ∧
      (pc'.holdsFlush → pc.holdsFlush ∨ l.flush = false) := by
  -- Flush から戻る動作では `resume_locks` を使い、残りは program counter だけで決まる
  have hresume : ∀ (k : FlushFor) (r : Option Status), (k.resume r).holdsExclusive = true →
      (Pc.flushBarrier k).holdsExclusive = true := by
    intro k r hk
    obtain ⟨f, rfl⟩ := (FlushFor.resume_locks k r).1 hk
    rfl
  cases h
  case flushUnsafe k e =>
    simp only [(FlushFor.resume_locks k (some e)).2]
    exact ⟨fun hk => .inl (hresume _ _ hk), nofun, nofun⟩
  case flushed k b =>
    simp only [(FlushFor.resume_locks k none).2]
    exact ⟨fun hk => .inl (hresume _ _ hk), nofun, nofun⟩
  case flushFailed k b e =>
    simp only [(FlushFor.resume_locks k (some e)).2]
    exact ⟨fun hk => .inl (hresume _ _ hk), nofun, nofun⟩
  all_goals
    refine ⟨?_, ?_, ?_⟩ <;>
      first
        | exact fun hp => .inl hp
        | exact fun hp => absurd hp Bool.false_ne_true
        | exact fun _ => .inr ‹_›
        | exact fun _ => .inr ⟨‹_›, ‹_›⟩

/-! ## chunk の末尾 -/

namespace ChunkTail

variable (c : ChunkTail)

theorem active_freeze : c.freeze.active = none := by
  unfold freeze
  split
  next h => exact h
  next => rfl

theorem frozen_freeze : c.freeze.frozen.getD 0 = c.tail := by
  unfold freeze tail
  split
  next h => simp [h]
  next a h => simp [h, max_comm]

theorem tail_freeze : c.freeze.tail = c.tail := by
  rw [tail, active_freeze, frozen_freeze]
  simp

theorem tail_accept (stop : Nat) : (c.accept stop).tail = max c.tail stop := by
  simp only [accept, tail, Option.getD_some]
  omega

end ChunkTail

namespace SharedInode

variable {s : SharedInode} {idx : Nat} {c : ChunkTail}

@[simp]
theorem chunk_setChunk_self : (s.setChunk idx c).chunk idx = c := by
  simp [chunk, setChunk]

theorem chunk_setChunk_ne (h : j ≠ idx) : (s.setChunk idx c).chunk j = s.chunk j := by
  simp [chunk, setChunk, AList.lookup_insert_ne h]

theorem mem_eraseIdx_of_ne {l : List Nat} (hn : l[n]? = some idx) (hj : j ∈ l)
    (hne : j ≠ idx) : j ∈ l.eraseIdx n := by
  obtain ⟨k, hk⟩ := List.mem_iff_getElem?.mp hj
  refine List.mem_eraseIdx_iff_getElem?.mpr ⟨k, ?_, hk⟩
  rintro rfl
  exact hne (Option.some.inj (hk.symm.trans hn))

theorem mem_pendingWrites (h : (s.chunk idx).hasPendingWrites = true) : idx ∈ s.pendingWrites := by
  refine List.mem_filter.mpr ⟨?_, h⟩
  by_contra hkey
  have hnone : s.chunks.lookup idx = none := AList.lookup_eq_none.mpr hkey
  simp [chunk, hnone, ChunkTail.hasPendingWrites] at h

end SharedInode

/-! ## 一手と実行 -/

namespace System

theorem step_cases {S S' : System} (h : S.step cs ev = some (label, S')) :
    (∃ c, ev = .call c ∧ label = .call c ∧ S.enabled c = true ∧ S' = S.start c) ∨
      ∃ i pc s pc', label = .ran i pc pc' ∧ S.threads[i]? = some pc ∧
        Moves (S.locks i) S.inode pc s pc' ∧ S' = S.advance i s pc pc' := by
  cases ev with
  | call c =>
    simp only [step] at h
    split at h <;> cases h
    exact .inl ⟨c, rfl, rfl, ‹_›, rfl⟩
  | run i o =>
    simp only [step] at h
    split at h
    next => cases h
    next pc hpc =>
      split at h
      next => cases h
      next s pc' hexec =>
        cases h
        exact .inr ⟨i, pc, s, pc', rfl, hpc, Pc.exec_moves hexec, rfl⟩

def AllThreads (S : System) (P : Nat → Pc → Prop) : Prop := Infra.AllThreads S.threads P

section

variable {S : System} {P Q : Nat → Pc → Prop}

theorem AllThreads.start (h : S.AllThreads P) (c : Call)
    (hold : ∀ i pc, S.threads[i]? = some pc → P i pc → Q i pc)
    (hnew : Q S.threads.length c.entry) : (S.start c).AllThreads Q :=
  Infra.AllThreads.append h hold hnew

theorem AllThreads.advance (h : S.AllThreads P)
    (hold : ∀ j q, j ≠ i → S.threads[j]? = some q → P j q → Q j q) (hnew : Q i pc') :
    (S.advance i s pc pc').AllThreads Q :=
  Infra.AllThreads.set h hold hnew

end

/-- 新しい `InodeHandle`。metadata の大きさと flag は何でもよい -/
def fresh (size : Nat) (flags : InodeFlag) : System :=
  { inode := { metaSize := size, metaFlags := flags } }

theorem allThreads_fresh : (fresh size flags).AllThreads P :=
  Infra.AllThreads.nil

/-! ## 排他 -/

/-- 二つの thread が同時にいてよいところ -/
structure Compatible (p q : Pc) : Prop where
  exclusive : p.holdsExclusive → q.holdsExclusive = false ∧ q.holdsShared = false
  shared : p.holdsShared → q.holdsExclusive = false
  flush : p.holdsFlush → q.holdsFlush = false

def Exclusion (S : System) : Prop :=
  S.AllThreads fun i p => S.AllThreads fun j q => i ≠ j → Compatible p q

theorem Compatible.symm (h : Compatible p q) : Compatible q p := by
  refine ⟨fun hq => ?_, fun hq => ?_, fun hq => ?_⟩
  · refine ⟨?_, ?_⟩
    · by_contra hp
      simp [(h.exclusive (by simpa using hp)).1] at hq
    · by_contra hp
      simp [h.shared (by simpa using hp)] at hq
  · by_contra hp
    simp [(h.exclusive (by simpa using hp)).2] at hq
  · by_contra hp
    simp [h.flush (by simpa using hp)] at hq

theorem Compatible.of_free (he : p.holdsExclusive = false)
    (hs : p.holdsShared = false) (hf : p.holdsFlush = false) : Compatible p q :=
  ⟨by simp [he], by simp [hs], by simp [hf]⟩

/-- Flush の中にいる thread は、`flush_mutex_` を持つか、`operation_mutex_` を排他で持つ -/
theorem Pc.locks_of_flushing {pc : Pc} (h : pc.flushing.isSome = true) :
    pc.holdsFlush = true ∧ pc.holdsShared = true ∨ pc.holdsExclusive = true := by
  unfold Pc.flushing at h
  split at h
  next k => cases k <;> simp [Pc.holdsFlush, Pc.holdsShared, Pc.holdsExclusive, Pc.flushing]
  next k b => cases k <;> simp [Pc.holdsFlush, Pc.holdsShared, Pc.holdsExclusive, Pc.flushing]
  next k _ _ _ _ =>
    cases k <;> simp [Pc.holdsFlush, Pc.holdsShared, Pc.holdsExclusive, Pc.flushing]
  next => cases h

theorem Compatible.flushing {p q : Pc} (h : Compatible p q) (hp : p.flushing.isSome = true) :
    q.flushing = none := by
  by_contra hq
  rcases Pc.locks_of_flushing (Option.isSome_iff_ne_none.mpr hq) with ⟨hf, hs⟩ | he
  · rcases Pc.locks_of_flushing hp with ⟨hf', -⟩ | he'
    · simp [h.flush hf'] at hf
    · simp [(h.exclusive he').2] at hs
  · rcases Pc.locks_of_flushing hp with ⟨-, hs'⟩ | he'
    · simp [h.shared hs'] at he
    · simp [(h.exclusive he').1] at he

theorem locks_free {S : System} (hij : j ≠ i) (hq : S.threads[j]? = some q) :
    ((S.locks i).shared = false → q.holdsShared = false) ∧
      ((S.locks i).exclusive = false → q.holdsExclusive = false) ∧
      ((S.locks i).flush = false → q.holdsFlush = false) := by
  have hmem : q ∈ S.threads.eraseIdx i :=
    List.mem_eraseIdx_iff_getElem?.mpr ⟨j, hij, hq⟩
  simp only [locks, List.any_eq_false]
  exact ⟨fun h => by simpa using h q hmem, fun h => by simpa using h q hmem,
    fun h => by simpa using h q hmem⟩

theorem Exclusion.start {S : System} (h : S.Exclusion) (c : Call) : (S.start c).Exclusion := by
  have hfree : c.entry.holdsExclusive = false ∧ c.entry.holdsShared = false ∧
      c.entry.holdsFlush = false := by
    cases c <;> exact ⟨rfl, rfl, rfl⟩
  have hnew : ∀ q, Compatible c.entry q := fun q => .of_free hfree.1 hfree.2.1 hfree.2.2
  refine AllThreads.start h c (fun i p _ hp => ?_) fun j q _ _ => hnew q
  exact AllThreads.start hp c (fun j q _ hq => hq) fun _ => (hnew p).symm

theorem Exclusion.advance {S : System} (h : S.Exclusion) (hi : S.threads[i]? = some pc)
    (hm : Moves (S.locks i) S.inode pc s pc') : (S.advance i s pc pc').Exclusion := by
  obtain ⟨hexcl, hshared, hflush⟩ := hm.locks
  -- 新しく取った lock は、他の thread が持っていない
  have hnew : ∀ j q, j ≠ i → S.threads[j]? = some q → Compatible pc' q := by
    intro j q hij hq
    have hold := h i pc hi j q hq (Ne.symm hij)
    have hfree := locks_free hij hq
    refine ⟨fun hp => ?_, fun hp => ?_, fun hp => ?_⟩
    · rcases hexcl hp with hp | ⟨h₁, h₂⟩
      · exact hold.exclusive hp
      · exact ⟨hfree.2.1 h₂, hfree.1 h₁⟩
    · rcases hshared hp with hp | h₁
      · exact hold.shared hp
      · exact hfree.2.1 h₁
    · rcases hflush hp with hp | h₁
      · exact hold.flush hp
      · exact hfree.2.2 h₁
  refine AllThreads.advance h (fun j q hj hq hp => ?_) ?_
  · refine AllThreads.advance hp (fun j' q' _ _ hq' => hq') ?_
    intro _
    exact (hnew j q hj hq).symm
  · exact AllThreads.advance (h i pc hi) (fun j q hj hq _ _ => hnew j q hj hq)
      fun hne => absurd rfl hne

end System

end SwordFS.Vfs
