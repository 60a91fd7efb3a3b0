import SwordFS.Metadata.Properties.FileTxn

/-!
# mapping と EOF の不変条件

一つの file に対する `AttachPrepared`、`FinalizeAttachedWrite`、`CommitShrink`、`CommitGrow`、
`PrepareReclaim` を任意の順に commit したとき、mapping が常に EOF の内側にあることを示す。
呼び出しの引数（計画と前提条件）は任意であり、古くなっていてもよい。
-/

namespace SwordFS.Metadata

open Infra Txn Cmd

/-! ## 呼び出しの列 -/

/-- file を対象にする一つの呼び出し -/
inductive FileOp where
  | attachPrepared (index : Nat) (chunkId : ChunkID) (endOff : Nat)
      (expected : FileSizePrecondition)
  | finalizeAttachedWrite (index : Nat) (chunkId : ChunkID) (endOff : Nat)
      (expected : FileSizePrecondition)
  | commitShrink (plan : ChunkSizePlan) (requested : SwordFsAttr) (f : SetAttrField)
  | commitGrow (plan : ChunkSizePlan) (requested : SwordFsAttr) (f : SetAttrField)
  | prepareReclaim

/-- 呼び出しの返り値 -/
inductive FileReply where
  | done
  | sized (r : ChunkSizeCommitResult)
  | reclaim (w : Option ReclaimWork)

namespace FileOp

def txn (cx : MetaContext) (ino : InodeID) : FileOp → KvTxn FileReply
  | .attachPrepared index id endOff expected => do
    Metadata.attachPrepared cx ino index id endOff expected
    return .done
  | .finalizeAttachedWrite index id endOff expected => do
    Metadata.finalizeAttachedWrite cx ino index id endOff expected
    return .done
  | .commitShrink plan requested f => do
    return .sized (← Metadata.commitShrink cx ino plan requested f)
  | .commitGrow plan requested f => do
    return .sized (← Metadata.commitGrow cx ino plan requested f)
  | .prepareReclaim => do return .reclaim (← Metadata.prepareReclaim cx ino)

def step (cx : MetaContext) (ino : InodeID) (op : FileOp) (s : Redis) : Result FileReply × Redis :=
  (op.txn cx ino).commit s

def expected : FileOp → Option FileSizePrecondition
  | .attachPrepared _ _ _ e | .finalizeAttachedWrite _ _ _ e => some e
  | .commitShrink plan _ _ | .commitGrow plan _ _ => some plan.expectedOldState
  | .prepareReclaim => none

/-- 呼び出しが前提とする、対象の位置の attachment -/
def attachment : FileOp → Option (Nat × Option ChunkID)
  | .attachPrepared index _ _ _ => some (index, none)
  | .finalizeAttachedWrite index id _ _ => some (index, some id)
  | _ => none

end FileOp

/-- 呼び出しの列を、それぞれの時刻に順に commit した後の store -/
def runFile (cx : MetaContext) (ino : InodeID) (ops : List (Int × FileOp)) (s : Redis) : Redis :=
  ops.foldl (fun s op => (op.2.step { cx with now := op.1 } ino s).2) s

/-! ## 観測 -/

def eofOf (s : Redis) (ino : InodeID) : Option Nat := (s (.inode ino)).map (·.attr.size)

def currentPrecondition (cs : Nat) (s : Redis) (ino : InodeID) : Option FileSizePrecondition :=
  (eofOf s ino).map fun e =>
    ⟨e, (chunkSizeLayout e cs).boundary.map fun b =>
      ⟨b.index, attachedAt s ino b.index, b.visiblePrefix⟩⟩

/-- 前提の EOF、境界、attachment のどれかが今の状態と違う -/
def FileOp.Stale (cs : Nat) (ino : InodeID) (s : Redis) (op : FileOp) : Prop :=
  (∃ e, op.expected = some e ∧ currentPrecondition cs s ino ≠ some e) ∨
    ∃ i a, op.attachment = some (i, a) ∧ attachedAt s ino i ≠ a

def SameMappings (s s' : Redis) (ino : InodeID) : Prop :=
  ∀ i, attachedAt s' ino i = attachedAt s ino i

/-- mapping と EOF の不変条件 -/
structure FileInv (cs : Nat) (ino : InodeID) (s : Redis) : Prop where
  ino_ne : ino ≠ 0
  /-- record は自分の番号を持つ -/
  record : ∀ n, s (.inode ino) = some n → n.ino = ino
  valid : ∀ i, ValidAttachment (attachedAt s ino i)
  /-- mapping を持つのは regular file で、その先頭は EOF より前にある -/
  within : ∀ i c, attachedAt s ino i = some c →
    ∃ n, s (.inode ino) = some n ∧ n.isRegular = true ∧ i * cs < n.attr.size
  bounded : ∀ n, s (.inode ino) = some n → n.isRegular = true →
    n.attr.size ≤ kMaxSupportedFileSize

variable {ino : InodeID}

theorem fileInv_created (h0 : ino ≠ 0) (hn : s (.inode ino) = some n) (hino : n.ino = ino)
    (hsize : n.attr.size = 0) (hrefs : s (.chunkRefs ino) = ∅) : FileInv cs ino s where
  ino_ne := h0
  record := fun m hm => by rw [hn] at hm; cases hm; exact hino
  valid := fun i c hc => by rw [attachedAt, hrefs] at hc; cases hc
  within := fun i c hc => by rw [attachedAt, hrefs] at hc; cases hc
  bounded := fun m hm _ => by rw [hn] at hm; cases hm; rw [hsize]; exact Nat.zero_le _

def emptyFile (ino : InodeID) : SwordFsInode :=
  { ino := ino, attr := SwordFsAttr.create 0 (sIfreg ||| 0x1A4#32) 0 0 }

def emptyFileStore (ino : InodeID) : Redis
  | .inode j => if j = ino then some (emptyFile ino) else none
  | .directory _ => ∅
  | .chunkRefs _ => ∅
  | .orphans => ∅
  | .reclaims => ∅
  | .pendingDeletes => ∅
  | .inodeCount => 1

theorem fileInv_emptyFileStore (h0 : ino ≠ 0) : FileInv cs ino (emptyFileStore ino) :=
  fileInv_created h0 (n := emptyFile ino) (if_pos rfl) rfl rfl rfl

/-! ## 一つの呼び出しがすること -/

/-- 縮小の効果：残るのは新しい EOF と交わる mapping で、外したものは一つずつ queue に入る -/
structure ShrinkEffect (cs : Nat) (t : ChunkType) (ino : InodeID) (target : Nat) (s s' : Redis)
    (removed : List ChunkMapping) : Prop where
  kept : ∀ i, attachedAt s' ino i = if i * cs < target then attachedAt s ino i else none
  mem_removed : ∀ m, m ∈ removed ↔
    attachedAt s ino m.index = some m.chunkId ∧ target ≤ m.index * cs
  nodup : removed.Pairwise fun a b => a.index < b.index
  queued : s' .pendingDeletes = queueAll t ino removed (s .pendingDeletes)
  /-- ChunkID を他の位置と共有していない mapping は、その符号化のまま queue にある -/
  entry : ∀ m ∈ removed, (∀ m' ∈ removed, m'.chunkId = m.chunkId → m' = m) →
    (s' .pendingDeletes).lookup (detachedDelete t ino m).id = some (detachedDelete t ino m)

/-- 成功した呼び出しが `s` から `s'` にしたこと -/
def FileOp.Effect (cs : Nat) (t : ChunkType) (ino : InodeID) (s s' : Redis) :
    FileOp → FileReply → Prop
  | .attachPrepared index id endOff _, _ =>
    (∀ i, attachedAt s' ino i = if i = index then some id else attachedAt s ino i) ∧
      eofOf s' ino = (eofOf s ino).map (max · endOff)
  | .finalizeAttachedWrite _ _ endOff _, _ =>
    SameMappings s s' ino ∧ eofOf s' ino = (eofOf s ino).map (max · endOff)
  | .commitShrink plan _ _, q => eofOf s' ino = some plan.targetEof ∧
    ∃ d, q = .sized d ∧ ShrinkEffect cs t ino plan.targetEof s s' d.detached
  | .commitGrow plan _ _, _ => SameMappings s s' ino ∧ eofOf s' ino = some plan.targetEof
  | .prepareReclaim, _ =>
    (s' (.inode ino) = s (.inode ino) ∧ SameMappings s s' ino) ∨
      (s' (.inode ino) = none ∧ ∀ i, attachedAt s' ino i = none)

/-- 呼び出し `op` が `s` から結果 `r` と `s'` を得たときに成り立つこと -/
structure FileStep (cs : Nat) (t : ChunkType) (ino : InodeID) (op : FileOp) (s : Redis)
    (r : Result FileReply) (s' : Redis) : Prop where
  rejected : ∀ e, r = .error e → s' = s
  stale : op.Stale cs ino s → ∃ e, r = .error e
  effect : ∀ q, r = .ok q → op.Effect cs t ino s s' q
  /-- EOF を減らせるのは縮小だけ -/
  monotone : (∀ plan a f, op ≠ .commitShrink plan a f) → ∀ a b,
    eofOf s ino = some a → eofOf s' ino = some b → a ≤ b

/-! ## queue の中身 -/

variable {t : ChunkType}

theorem detachedDelete_id_inj :
    (detachedDelete t ino m).id = (detachedDelete t ino m').id ↔ m.chunkId = m'.chunkId := by
  cases t <;> simp [detachedDelete]

theorem queueAll_lookup_of_ne (hm : ∀ m' ∈ ms, m'.chunkId ≠ m.chunkId) :
    (queueAll t ino ms h).lookup (detachedDelete t ino m).id =
      h.lookup (detachedDelete t ino m).id := by
  induction ms generalizing h with
  | nil => rfl
  | cons a ms ih =>
    obtain ⟨ha, hms⟩ := List.forall_mem_cons.mp hm
    have hne : (detachedDelete t ino m).id ≠ (detachedDelete t ino a).id :=
      fun he => ha (detachedDelete_id_inj.mp he).symm
    rw [queueAll, List.foldl_cons, ← queueAll, ih hms, AList.lookup_insert_ne hne]

theorem queueAll_lookup (hm : m ∈ ms) (huniq : ∀ m' ∈ ms, m'.chunkId = m.chunkId → m' = m) :
    (queueAll t ino ms h).lookup (detachedDelete t ino m).id = some (detachedDelete t ino m) := by
  induction ms generalizing h with
  | nil => cases hm
  | cons a ms ih =>
    obtain ⟨ha, hms⟩ := List.forall_mem_cons.mp huniq
    rw [queueAll, List.foldl_cons, ← queueAll]
    by_cases hin : m ∈ ms
    · exact ih hin hms
    · obtain rfl : m = a := (List.mem_cons.mp hm).resolve_right hin
      rw [queueAll_lookup_of_ne, AList.lookup_insert]
      exact fun m' hm' he => hin (hms m' hm' he ▸ hm')

/-! ## 成功した呼び出しの効果 -/

section

variable {cx : MetaContext} {ino : InodeID} {s : Redis}

theorem currentPrecondition_of_inode (hn : s (.inode ino) = some n) :
    currentPrecondition cs s ino = some ⟨n.attr.size, (chunkSizeLayout n.attr.size cs).boundary.map
      fun b => ⟨b.index, attachedAt s ino b.index, b.visiblePrefix⟩⟩ := by
  simp [currentPrecondition, eofOf, hn]

theorem PublishReady.current {id : ChunkID} (h : PublishReady cx s ino index id endOff e n) :
    currentPrecondition cx.chunkSize s ino = some e := by
  obtain ⟨-, -, hb, -⟩ := validateFileSizePrecondition_ok_iff.mp h.precondition
  have hbd := h.boundary
  obtain ⟨eof, boundary⟩ := e
  obtain rfl : n.attr.size = eof := h.eof
  rw [currentPrecondition_of_inode h.inode, ← hb]
  cases boundary with
  | none => rfl
  | some b => simp [(hbd b rfl).1]

theorem fileInv_eof (h : FileInv cs ino s) (hn' : s' (.inode ino) = some n') (hino : n'.ino = ino)
    (hreg : n'.isRegular = true) (hmax : n'.attr.size ≤ kMaxSupportedFileSize)
    (hvalid : ∀ i, ValidAttachment (attachedAt s' ino i))
    (hwithin : ∀ i c, attachedAt s' ino i = some c → i * cs < n'.attr.size) :
    FileInv cs ino s' where
  ino_ne := h.ino_ne
  record := fun m hm => by rw [hn'] at hm; cases hm; exact hino
  valid := hvalid
  within := fun i c hc => ⟨n', hn', hreg, hwithin i c hc⟩
  bounded := fun m hm _ => by rw [hn'] at hm; cases hm; exact hmax

variable {index endOff : Nat} {id : ChunkID} {e : FileSizePrecondition} {u : Unit}
  {ws : List KvCmd}

theorem attachPrepared_effect (hinv : FileInv cx.chunkSize ino s)
    (h : (attachPrepared cx ino index id endOff e).eval s [] = .ok (u, ws)) :
    currentPrecondition cx.chunkSize s ino = some e ∧ attachedAt s ino index = none ∧
      (∀ i, attachedAt (applyAll ws s) ino i =
        if i = index then some id else attachedAt s ino i) ∧
      eofOf (applyAll ws s) ino = (eofOf s ino).map (max · endOff) ∧
      FileInv cx.chunkSize ino (applyAll ws s) := by
  obtain ⟨n, hr, ha, rfl⟩ := attachPrepared_ok.mp h
  obtain ⟨hid, -, hmax, hlt, -⟩ := validateFileChunkWrite_ok_iff.mp hr.write
  have hino := hinv.record n hr.inode
  have hn' : applyAll [KvCmd.setInode (extendEof cx n endOff),
      KvCmd.hsetChunkRef ino index id] s (.inode ino) = some (extendEof cx n endOff) := by
    simp [hino]
  have hat : ∀ i, attachedAt (applyAll [KvCmd.setInode (extendEof cx n endOff),
      KvCmd.hsetChunkRef ino index id] s) ino i =
        if i = index then some id else attachedAt s ino i := by
    intro i
    by_cases hi : i = index
    · subst hi; simp [attachedAt]
    · simp [attachedAt, hi, AList.lookup_insert_ne hi]
  refine ⟨hr.current, ha, hat, by simp [eofOf, hr.inode, hino], ?_⟩
  refine fileInv_eof hinv hn' hino (by simp [hr.regular]) ?_ ?_ ?_
  · exact max_le (hinv.bounded n hr.inode hr.regular) hmax
  · intro i c hc
    rw [hat] at hc
    split at hc
    · cases hc; exact hid
    · exact hinv.valid i c hc
  · intro i c hc
    rw [extendEof_size]
    rw [hat] at hc
    split at hc
    · next hi => subst hi; exact lt_max_of_lt_right hlt
    · obtain ⟨m, hm, -, hlt'⟩ := hinv.within i c hc
      rw [hr.inode] at hm; cases hm
      exact lt_max_of_lt_left hlt'

theorem finalizeAttachedWrite_effect (hinv : FileInv cx.chunkSize ino s)
    (h : (finalizeAttachedWrite cx ino index id endOff e).eval s [] = .ok (u, ws)) :
    currentPrecondition cx.chunkSize s ino = some e ∧ attachedAt s ino index = some id ∧
      SameMappings s (applyAll ws s) ino ∧
      eofOf (applyAll ws s) ino = (eofOf s ino).map (max · endOff) ∧
      FileInv cx.chunkSize ino (applyAll ws s) := by
  obtain ⟨n, hr, ha, rfl⟩ := finalizeAttachedWrite_ok.mp h
  obtain ⟨-, -, hmax, -, -⟩ := validateFileChunkWrite_ok_iff.mp hr.write
  have hino := hinv.record n hr.inode
  have hsame : SameMappings s (applyAll [KvCmd.setInode (extendEof cx n endOff)] s) ino :=
    fun i => by simp [attachedAt]
  refine ⟨hr.current, ha, hsame, by simp [eofOf, hr.inode, hino], ?_⟩
  have hin : applyAll [KvCmd.setInode (extendEof cx n endOff)] s (.inode ino) =
      some (extendEof cx n endOff) := by simp [hino]
  refine fileInv_eof hinv hin hino (by simp [hr.regular]) ?_
    (fun i => by rw [hsame i]; exact hinv.valid i) ?_
  · exact max_le (hinv.bounded n hr.inode hr.regular) hmax
  · intro i c hc
    rw [hsame i] at hc
    obtain ⟨m, hm, -, hlt⟩ := hinv.within i c hc
    rw [hr.inode] at hm; cases hm
    exact lt_max_of_lt_left hlt

variable {plan : ChunkSizePlan} {requested : SwordFsAttr} {f : SetAttrField} {isShrink : Bool}
  {r : ChunkSizeCommitResult}

section

variable (hinv : FileInv cx.chunkSize ino s)
include hinv

/-- 大きさの変更に共通の効果。何が外れるかは `detachedBy` が決める -/
theorem commitSizeChange_effect
    (h : (commitSizeChange cx ino plan requested f isShrink).eval s [] = .ok (r, ws)) :
    0 < cx.chunkSize ∧ currentPrecondition cx.chunkSize s ino = some plan.expectedOldState ∧
      ∃ n, s (.inode ino) = some n ∧ n.isRegular = true ∧ r.inode.isRegular = true ∧
        r.inode.ino = ino ∧ r.inode.attr.size = plan.targetEof ∧
        plan.targetEof ≤ kMaxSupportedFileSize ∧
        (if isShrink then plan.targetEof < n.attr.size else n.attr.size < plan.targetEof) ∧
        r.detached = detachedBy cx s ino n.attr.size plan.targetEof isShrink ∧
        ws = sizeChangeWrites cx ino r.inode r.detached isShrink := by
  obtain ⟨hf, hreq, n, current, hn, -, hreg, -, hplan, hset, hdet, -, hws⟩ :=
    (commitSizeChange_ok hinv.ino_ne).mp h
  obtain ⟨hdir, -, hold, hpc, hb⟩ := validateSizeCommitPlan_ok_iff.mp hplan
  obtain ⟨hcs, -, hnew, -, rfl⟩ := planChunkSizeChange_ok_iff.mp hpc
  obtain ⟨-, hino, -, hsize, -⟩ := prepareSetAttrMutation_ok hset
  refine ⟨hcs, ?_, n, hn, hreg, (prepareSetAttrMutation_isRegular hset).trans hreg,
    hino.trans (hinv.record n hn), by rw [hsize, if_pos hf, hreq], hnew, hdir, hdet, hws⟩
  have hsort : sortMappings (fileMappings s ino) = fileMappings s ino :=
    List.Pairwise.insertionSort_eq ((fileMappings_strict s ino).imp Nat.le_of_lt)
  simp only [chunkSizePlan, makeBoundarySnapshot, hsort, findChunkID_fileMappings] at hb
  rw [currentPrecondition_of_inode hn, ← hb, hold]

theorem commitShrink_effect (h : (commitShrink cx ino plan requested f).eval s [] = .ok (r, ws)) :
    currentPrecondition cx.chunkSize s ino = some plan.expectedOldState ∧
      eofOf (applyAll ws s) ino = some plan.targetEof ∧
      ShrinkEffect cx.chunkSize cx.chunkType ino plan.targetEof s (applyAll ws s) r.detached ∧
      FileInv cx.chunkSize ino (applyAll ws s) := by
  obtain ⟨hcs, hcur, n, -, -, hreg', hino, hsize, hmax, -, hdet, rfl⟩ :=
    commitSizeChange_effect hinv h
  have hmem : ∀ m, m ∈ r.detached ↔ attachedAt s ino m.index = some m.chunkId ∧
      plan.targetEof ≤ m.index * cx.chunkSize := by
    intro m
    rw [hdet, detachedBy, List.mem_filter, mem_fileMappings, shouldDetach_iff hcs]
  have hkept : ∀ i, attachedAt (applyAll (sizeChangeWrites cx ino r.inode r.detached true) s)
      ino i = if i * cx.chunkSize < plan.targetEof then attachedAt s ino i else none := by
    intro i
    rw [sizeChange_attachedAt]
    by_cases hi : i * cx.chunkSize < plan.targetEof
    · rw [if_pos hi, if_neg]
      intro hi'
      obtain ⟨m, hm, rfl⟩ := List.mem_map.mp hi'
      exact Nat.not_lt.mpr ((hmem m).mp hm).2 hi
    · rw [if_neg hi]
      cases ha : attachedAt s ino i with
      | none => simp
      | some c =>
        exact if_pos (List.mem_map.mpr ⟨⟨i, c⟩, (hmem _).mpr ⟨ha, Nat.le_of_not_lt hi⟩, rfl⟩)
  have hin : applyAll (sizeChangeWrites cx ino r.inode r.detached true) s (.inode ino) =
      some r.inode := by rw [sizeChange_inode, if_pos hino.symm]
  refine ⟨hcur, by rw [eofOf, hin, Option.map_some, hsize], ?_, ?_⟩
  · refine ⟨hkept, hmem, ?_, sizeChange_pendingDeletes, ?_⟩
    · rw [hdet]; exact (fileMappings_strict s ino).filter _
    · intro m hm huniq
      rw [sizeChange_pendingDeletes]
      exact queueAll_lookup hm huniq
  · refine fileInv_eof hinv hin hino hreg' (hsize ▸ hmax) ?_ ?_
    · intro i c hc
      rw [hkept] at hc
      split at hc
      · exact hinv.valid i c hc
      · cases hc
    · intro i c hc
      rw [hkept] at hc
      split at hc
      · next hi => rw [hsize]; exact hi
      · cases hc

theorem commitGrow_effect (h : (commitGrow cx ino plan requested f).eval s [] = .ok (r, ws)) :
    currentPrecondition cx.chunkSize s ino = some plan.expectedOldState ∧
      eofOf (applyAll ws s) ino = some plan.targetEof ∧
      (∀ a, eofOf s ino = some a → a < plan.targetEof) ∧
      SameMappings s (applyAll ws s) ino ∧ FileInv cx.chunkSize ino (applyAll ws s) := by
  obtain ⟨hcs, hcur, n, hn, -, hreg', hino, hsize, hmax, hlt, hdet, rfl⟩ :=
    commitSizeChange_effect hinv h
  -- EOF の外に mapping は無いので、何も外れない
  have hnil : r.detached = [] := by
    rw [hdet, detachedBy, List.filter_eq_nil_iff]
    intro m hm
    obtain ⟨n', hn', -, hlt'⟩ := hinv.within _ _ (mem_fileMappings.mp hm)
    rw [hn] at hn'; cases hn'
    rw [shouldDetach_iff hcs]
    exact Nat.not_le.mpr hlt'
  have hsame : SameMappings s
      (applyAll (sizeChangeWrites cx ino r.inode r.detached false) s) ino := by
    intro i; rw [sizeChange_attachedAt, hnil]; rfl
  have hin : applyAll (sizeChangeWrites cx ino r.inode r.detached false) s (.inode ino) =
      some r.inode := by rw [sizeChange_inode, if_pos hino.symm]
  refine ⟨hcur, by rw [eofOf, hin, Option.map_some, hsize], ?_, hsame, ?_⟩
  · intro a ha
    rw [eofOf, hn] at ha; cases ha
    exact hlt
  · refine fileInv_eof hinv hin hino hreg' (hsize ▸ hmax)
      (fun i => by rw [hsame i]; exact hinv.valid i) ?_
    intro i c hc
    rw [hsame i] at hc
    obtain ⟨n', hn', -, hlt'⟩ := hinv.within i c hc
    rw [hn] at hn'; cases hn'
    rw [hsize]
    exact Nat.lt_trans hlt' hlt

theorem prepareReclaim_effect (h : (prepareReclaim cx ino).eval s [] = .ok (w, ws)) :
    ((applyAll ws s (.inode ino) = s (.inode ino) ∧ SameMappings s (applyAll ws s) ino) ∨
      (applyAll ws s (.inode ino) = none ∧
        ∀ i, attachedAt (applyAll ws s) ino i = none)) ∧
      FileInv cx.chunkSize ino (applyAll ws s) := by
  have hcases : (applyAll ws s (.inode ino) = s (.inode ino) ∧
      SameMappings s (applyAll ws s) ino) ∨ (applyAll ws s (.inode ino) = none ∧
        ∀ i, attachedAt (applyAll ws s) ino i = none) := by
    rcases prepareReclaim_ok h with ⟨-, -, rfl⟩ | ⟨n, -, -, -, rfl⟩ |
      ⟨n, ms, -, -, -, -, -, -, -, rfl⟩
    · exact .inl ⟨by simp, fun i => by simp [attachedAt]⟩
    · exact .inl ⟨by simp, fun i => by simp [attachedAt]⟩
    · exact .inr ⟨by simp, fun i => by simp [attachedAt]⟩
  refine ⟨hcases, ?_⟩
  rcases hcases with ⟨hi, hm⟩ | ⟨hi, hm⟩
  · refine ⟨hinv.ino_ne, fun n hn => hinv.record n (hi ▸ hn), fun i => ?_, fun i c hc => ?_,
      fun n hn => hinv.bounded n (hi ▸ hn)⟩
    · rw [hm i]; exact hinv.valid i
    · rw [hi]; exact hinv.within i c (hm i ▸ hc)
  · refine ⟨hinv.ino_ne, fun n hn => ?_, fun i c hc => ?_, fun i c hc => ?_, fun n hn => ?_⟩
    · rw [hi] at hn; cases hn
    · rw [hm i] at hc; cases hc
    · rw [hm i] at hc; cases hc
    · rw [hi] at hn; cases hn

end

/-! ## 列の全体 -/

theorem fileStep_error (op : FileOp) (err : Status) :
    FileStep cx.chunkSize cx.chunkType ino op s (.error err) s where
  rejected := fun _ _ => rfl
  stale := fun _ => ⟨err, rfl⟩
  effect := fun _ h => nomatch h
  monotone := fun _ a b ha hb => by rw [ha] at hb; cases hb; exact Nat.le_refl _

theorem not_stale {op : FileOp}
    (he : ∀ e, op.expected = some e → currentPrecondition cs s ino = some e)
    (ha : ∀ i a, op.attachment = some (i, a) → attachedAt s ino i = a) : ¬ op.Stale cs ino s := by
  rintro (⟨e, h, hne⟩ | ⟨i, a, h, hne⟩)
  · exact hne (he e h)
  · exact hne (ha i a h)

theorem eof_le_of_map (h : eofOf s' ino = (eofOf s ino).map (max · endOff))
    (ha : eofOf s ino = some a) (hb : eofOf s' ino = some b) : a ≤ b := by
  rw [h, ha] at hb
  cases hb
  exact Nat.le_max_left ..

theorem fileOp_txn_ok (op : FileOp) (hinv : FileInv cx.chunkSize ino s)
    (h : (op.txn cx ino).eval s [] = .ok (q, ws)) :
    ¬ op.Stale cx.chunkSize ino s ∧
      op.Effect cx.chunkSize cx.chunkType ino s (applyAll ws s) q ∧
      ((∀ plan a f, op ≠ .commitShrink plan a f) → ∀ a b,
        eofOf s ino = some a → eofOf (applyAll ws s) ino = some b → a ≤ b) ∧
      FileInv cx.chunkSize ino (applyAll ws s) := by
  cases op with
  | attachPrepared index id endOff e =>
    simp only [FileOp.txn, eval_bind_ok, eval_pure_ok] at h
    obtain ⟨u, _, h, rfl, rfl⟩ := h
    obtain ⟨hcur, ha, hat, heof, hinv'⟩ := attachPrepared_effect hinv h
    refine ⟨not_stale ?_ ?_, ⟨hat, heof⟩, fun _ _ _ => eof_le_of_map heof, hinv'⟩
    · rintro _ ⟨⟩; exact hcur
    · rintro _ _ ⟨⟩; exact ha
  | finalizeAttachedWrite index id endOff e =>
    simp only [FileOp.txn, eval_bind_ok, eval_pure_ok] at h
    obtain ⟨u, _, h, rfl, rfl⟩ := h
    obtain ⟨hcur, ha, hat, heof, hinv'⟩ := finalizeAttachedWrite_effect hinv h
    refine ⟨not_stale ?_ ?_, ⟨hat, heof⟩, fun _ _ _ => eof_le_of_map heof, hinv'⟩
    · rintro _ ⟨⟩; exact hcur
    · rintro _ _ ⟨⟩; exact ha
  | commitShrink plan a f =>
    simp only [FileOp.txn, eval_bind_ok, eval_pure_ok] at h
    obtain ⟨d, _, h, rfl, rfl⟩ := h
    obtain ⟨hcur, heof, heff, hinv'⟩ := commitShrink_effect hinv h
    refine ⟨not_stale ?_ fun _ _ h => (nomatch h), ⟨heof, d, rfl, heff⟩, ?_, hinv'⟩
    · rintro _ ⟨⟩; exact hcur
    · exact fun h => absurd rfl (h plan a f)
  | commitGrow plan a f =>
    simp only [FileOp.txn, eval_bind_ok, eval_pure_ok] at h
    obtain ⟨d, _, h, rfl, rfl⟩ := h
    obtain ⟨hcur, heof, hlt, hsame, hinv'⟩ := commitGrow_effect hinv h
    refine ⟨not_stale ?_ fun _ _ h => (nomatch h), ⟨hsame, heof⟩, ?_, hinv'⟩
    · rintro _ ⟨⟩; exact hcur
    · intro _ x y hx hy
      rw [heof] at hy; cases hy
      exact Nat.le_of_lt (hlt x hx)
  | prepareReclaim =>
    simp only [FileOp.txn, eval_bind_ok, eval_pure_ok] at h
    obtain ⟨w, _, h, rfl, rfl⟩ := h
    obtain ⟨heff, hinv'⟩ := prepareReclaim_effect hinv h
    refine ⟨not_stale (fun _ h => (nomatch h)) fun _ _ h => (nomatch h), heff, ?_, hinv'⟩
    intro _ x y hx hy
    rcases heff with ⟨hi, -⟩ | ⟨hi, -⟩
    · rw [eofOf, hi, ← eofOf, hx] at hy; cases hy; exact Nat.le_refl _
    · rw [eofOf, hi] at hy; cases hy

/-- 一つの呼び出しは不変条件を保ち、`FileStep` の通りに振る舞う -/
theorem fileOp_step (cx : MetaContext) (op : FileOp) (hinv : FileInv cx.chunkSize ino s) :
    FileStep cx.chunkSize cx.chunkType ino op s (op.step cx ino s).1 (op.step cx ino s).2 ∧
      FileInv cx.chunkSize ino (op.step cx ino s).2 := by
  unfold FileOp.step commit
  cases hev : (op.txn cx ino).eval s [] with
  | error e => exact ⟨fileStep_error op e, hinv⟩
  | ok p =>
    obtain ⟨q, ws⟩ := p
    obtain ⟨hstale, heff, hmono, hinv'⟩ := fileOp_txn_ok op hinv hev
    refine ⟨⟨fun _ h => (nomatch h), fun h => absurd h hstale, ?_, hmono⟩, hinv'⟩
    rintro _ ⟨⟩
    exact heff

theorem runFile_inv (ops : List (Int × FileOp)) (hinv : FileInv cx.chunkSize ino s) :
    FileInv cx.chunkSize ino (runFile cx ino ops s) := by
  induction ops generalizing s with
  | nil => exact hinv
  | cons op ops ih =>
    exact ih (s := (op.2.step { cx with now := op.1 } ino s).2)
      (fileOp_step { cx with now := op.1 } op.2 hinv).2

/--
任意の列の後で、どの mapping も `i * chunk_size < EOF ≤ 2^63 - 1` を満たし、
次のどの呼び出しも `FileStep` の通りに振る舞う。
-/
theorem file_mapping_eof_invariant (cx : MetaContext) (ino : InodeID) (s : Redis)
    (hinv : FileInv cx.chunkSize ino s) (ops : List (Int × FileOp)) :
    (∀ i c, attachedAt (runFile cx ino ops s) ino i = some c →
      ∃ eof, eofOf (runFile cx ino ops s) ino = some eof ∧ i * cx.chunkSize < eof ∧
        eof ≤ 2 ^ 63 - 1) ∧
    ∀ now op, FileStep cx.chunkSize cx.chunkType ino op (runFile cx ino ops s)
      (op.step { cx with now := now } ino (runFile cx ino ops s)).1
      (op.step { cx with now := now } ino (runFile cx ino ops s)).2 := by
  have hrun := runFile_inv ops hinv
  refine ⟨fun i c hc => ?_, fun now op => (fileOp_step { cx with now := now } op hrun).1⟩
  obtain ⟨n, hn, hreg, hlt⟩ := hrun.within i c hc
  refine ⟨n.attr.size, by rw [eofOf, hn, Option.map_some], hlt, ?_⟩
  exact hrun.bounded n hn hreg

/-- 空の file に chunk 2 を取り付けた後も、mapping は EOF の内側にある -/
theorem file_mapping_eof_invariant_attached :
    attachedAt (runFile ⟨4, .cow, 0⟩ 2 [(0, .attachPrepared 2 7 10 ⟨0, none⟩)] (emptyFileStore 2))
      2 2 = some 7 ∧
    ∃ eof, eofOf (runFile ⟨4, .cow, 0⟩ 2 [(0, .attachPrepared 2 7 10 ⟨0, none⟩)]
      (emptyFileStore 2)) 2 = some eof ∧ 2 * 4 < eof ∧ eof ≤ 2 ^ 63 - 1 := by
  have hat : attachedAt (runFile ⟨4, .cow, 0⟩ 2 [(0, .attachPrepared 2 7 10 ⟨0, none⟩)]
      (emptyFileStore 2)) 2 2 = some 7 := by decide
  exact ⟨hat, (file_mapping_eof_invariant ⟨4, .cow, 0⟩ 2 (emptyFileStore 2)
    (fileInv_emptyFileStore (by decide)) _).1 2 7 hat⟩

end

end SwordFS.Metadata
