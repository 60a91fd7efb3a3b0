import SwordFS.Metadata.Redis.FileTxn

/-!
# FileMetadata の transaction の仕様

各 transaction について、成功する条件と溜める書き込みを一つの同値で述べる。
呼び出し側はこの同値だけを使い、transaction の本体を開かない。
-/

namespace SwordFS.Metadata

open Infra Txn Cmd

variable {s : Redis} {ino : InodeID}

/-- store の中で chunk `i` に取り付けられている ChunkID -/
def attachedAt (s : Redis) (ino : InodeID) (i : Nat) : Option ChunkID :=
  (s (.chunkRefs ino)).lookup i

def ValidAttachment (r : Option ChunkID) : Prop := ∀ id, r = some id → isValidChunkID id = true

/-! ## 読み -/

variable {ws ws' : List KvCmd}

theorem findInode_ok : (findInode ino).eval s ws = .ok (r, ws') ↔
      r = s (.inode ino) ∧ (∀ n, r = some n → n.ino ≠ 0) ∧ ws = [] ∧ ws' = [] := by
  simp only [findInode, eval_bind_ok, KvTxn.getInode_ok]
  constructor
  · rintro ⟨v, _, ⟨rfl, rfl, rfl⟩, h⟩
    split at h
    · next hv => cases h; exact ⟨hv.symm, fun _ h => (nomatch h), rfl, rfl⟩
    · next n hv =>
      split at h
      · cases h
      · next h0 => cases h; exact ⟨hv.symm, fun _ h => by cases h; exact h0, rfl, rfl⟩
  · rintro ⟨rfl, h0, rfl, rfl⟩
    refine ⟨_, _, ⟨rfl, rfl, rfl⟩, ?_⟩
    split
    · next hv => rw [hv]; rfl
    · next n hv => rw [if_neg (h0 n hv), hv]; rfl

variable {n : SwordFsInode}

theorem lookupInode_ok :
    (lookupInode ino).eval s ws = .ok (n, ws') ↔
      s (.inode ino) = some n ∧ n.ino ≠ 0 ∧ ws = [] ∧ ws' = [] := by
  simp only [lookupInode, eval_bind_ok, findInode_ok]
  constructor
  · rintro ⟨r, _, ⟨rfl, h0, rfl, rfl⟩, h⟩
    split at h
    · cases h
    · next m hm => cases h; exact ⟨hm, h0 _ hm, rfl, rfl⟩
  · rintro ⟨hn, h0, rfl, rfl⟩
    exact ⟨some n, [], ⟨hn.symm, fun m hm => by cases hm; exact h0, rfl, rfl⟩, rfl⟩

theorem lookupAttachment_ok : (lookupAttachment ino i).eval s ws = .ok (r, ws') ↔
      r = attachedAt s ino i ∧ ValidAttachment r ∧ ws = [] ∧ ws' = [] := by
  simp only [lookupAttachment, eval_bind_ok, KvTxn.getChunkRefs_ok]
  constructor
  · rintro ⟨v, _, ⟨rfl, rfl, rfl⟩, h⟩
    split at h
    · next hv => cases h; exact ⟨hv.symm, fun _ h => (nomatch h), rfl, rfl⟩
    · next id hv =>
      simp only [eval_ofExcept_ok, Result.map_ok_iff, parseAttachedChunkID] at h
      obtain ⟨⟨id', h, rfl⟩, rfl⟩ := h
      split at h
      · cases h
      · next hid =>
        cases h
        exact ⟨hv.symm, fun _ h => by cases h; simpa using hid, rfl, rfl⟩
  · rintro ⟨rfl, hval, rfl, rfl⟩
    refine ⟨_, _, ⟨rfl, rfl, rfl⟩, ?_⟩
    split
    · next hv => rw [attachedAt, hv]; rfl
    · next id hv =>
      have hid := hval id hv
      simp only [eval_ofExcept_ok, Result.map_ok_iff, parseAttachedChunkID, hid]
      exact ⟨⟨id, rfl, hv.symm⟩, trivial⟩

theorem probeAttachment_ok : (probeAttachment ino i).eval s ws = .ok (r, ws') ↔
      (∃ n, s (.inode ino) = some n ∧ n.ino ≠ 0) ∧ r = attachedAt s ino i ∧
        ValidAttachment r ∧ ws = [] ∧ ws' = [] := by
  simp only [probeAttachment, eval_bind_ok, lookupInode_ok, lookupAttachment_ok]
  constructor
  · rintro ⟨n, _, ⟨hn, h0, rfl, rfl⟩, hr, hv, -, rfl⟩
    exact ⟨⟨n, hn, h0⟩, hr, hv, rfl, rfl⟩
  · rintro ⟨⟨n, hn, h0⟩, hr, hv, rfl, rfl⟩
    exact ⟨n, [], ⟨hn, h0, rfl, rfl⟩, hr, hv, rfl, rfl⟩

/-! ## mapping の snapshot -/

/-- store の中の mapping を index の順に並べたもの -/
def fileMappings (s : Redis) (ino : InodeID) : List ChunkMapping :=
  sortMappings ((s (.chunkRefs ino)).entries.map fun e => ⟨e.1, e.2⟩)

theorem fileMappings_strict (s : Redis) (ino : InodeID) :
    (fileMappings s ino).Pairwise fun a b => a.index < b.index := by
  refine sortMappings_strict ?_
  rw [List.map_map]
  exact (s (.chunkRefs ino)).nodupKeys

theorem mem_fileMappings : m ∈ fileMappings s ino ↔ attachedAt s ino m.index = some m.chunkId := by
  rw [fileMappings, mem_sortMappings, List.mem_map]
  have hl : attachedAt s ino m.index = some m.chunkId ↔
      Sigma.mk m.index m.chunkId ∈ (s (.chunkRefs ino)).entries := AList.mem_lookup_iff
  rw [hl]
  constructor
  · rintro ⟨e, he, rfl⟩; exact he
  · intro h; exact ⟨_, h, rfl⟩

theorem findChunkID_fileMappings (s : Redis) (ino : InodeID) (i : Nat) :
    findChunkID (fileMappings s ino) i = attachedAt s ino i :=
  Option.ext fun _ => (findChunkID_eq_some_iff (fileMappings_strict s ino)).trans mem_fileMappings

variable {ms : List ChunkMapping}

theorem hasAdjacentDuplicate_of_strict (h : ms.Pairwise fun a b => a.index < b.index) :
    hasAdjacentDuplicate ms = false := by
  induction ms with
  | nil => rfl
  | cons a ms ih =>
    obtain ⟨ha, hms⟩ := List.pairwise_cons.mp h
    cases ms with
    | nil => rfl
    | cons b rest =>
      have hne : a.index ≠ b.index := Nat.ne_of_lt (ha b (List.mem_cons_self ..))
      simp only [hasAdjacentDuplicate, ih hms, beq_eq_false_iff_ne.mpr hne, Bool.or_self]

/-- mapping の復号は、どの値も正しい ChunkID なら整列した一覧を返す -/
theorem decodeMappings_ok :
    decodeMappings (s (.chunkRefs ino)) = .ok ms ↔
      (∀ i, ValidAttachment (attachedAt s ino i)) ∧ ms = fileMappings s ino := by
  have hmap : ∀ l : List (Sigma fun _ : Nat => ChunkID), ∀ ms : List ChunkMapping,
      (l.mapM fun e => (parseAttachedChunkID e.2).map fun id => (⟨e.1, id⟩ : ChunkMapping)) =
          .ok ms ↔ (∀ e ∈ l, isValidChunkID e.2 = true) ∧ ms = l.map fun e => ⟨e.1, e.2⟩ := by
    intro l
    induction l with
    | nil => exact fun ms => ⟨fun h => by cases h; simp, fun h => by rw [h.2]; rfl⟩
    | cons e l ih =>
      intro ms
      simp only [List.mapM_cons, Result.bind_ok_iff, Result.map_ok_iff, Result.pure_ok_iff,
        List.mem_cons, forall_eq_or_imp, List.map_cons, parseAttachedChunkID]
      cases hv : isValidChunkID e.2 with
      | false => exact iff_of_false (by rintro ⟨_, ⟨_, ⟨⟩, _⟩, _⟩) (by rintro ⟨⟨⟨⟩, _⟩, _⟩)
      | true =>
        constructor
        · rintro ⟨_, ⟨_, ⟨⟩, rfl⟩, ms', h, rfl⟩
          obtain ⟨hl, rfl⟩ := (ih ms').mp h
          exact ⟨⟨rfl, hl⟩, rfl⟩
        · rintro ⟨⟨-, hl⟩, rfl⟩
          exact ⟨_, ⟨_, rfl, rfl⟩, _, (ih _).mpr ⟨hl, rfl⟩, rfl⟩
  have hvalid : (∀ e ∈ (s (.chunkRefs ino)).entries, isValidChunkID e.2 = true) ↔
      ∀ i, ValidAttachment (attachedAt s ino i) := by
    constructor
    · intro h i id hid
      exact h ⟨i, id⟩ (AList.mem_lookup_iff.mp hid)
    · intro h e he
      exact h e.1 e.2 (AList.mem_lookup_iff.mpr he)
  simp only [decodeMappings, Result.bind_ok_iff, Result.failIf_ok_iff, Result.pure_ok_iff, hmap,
    hvalid]
  constructor
  · rintro ⟨_, ⟨h, rfl⟩, _, _, rfl⟩; exact ⟨h, rfl⟩
  · rintro ⟨h, rfl⟩
    refine ⟨_, ⟨h, rfl⟩, (), ?_, rfl⟩
    rw [show sortMappings _ = fileMappings s ino from rfl,
      hasAdjacentDuplicate_of_strict (fileMappings_strict s ino)]
    exact Bool.false_ne_true

theorem readFileMappingSnapshot_ok : (readFileMappingSnapshot ino).eval s ws = .ok (r, ws') ↔
      s (.inode ino) = some r.inode ∧ r.inode.ino ≠ 0 ∧ r.inode.isRegular = true ∧
        (∀ i, ValidAttachment (attachedAt s ino i)) ∧ r.mappings = fileMappings s ino ∧
        ws = [] ∧ ws' = [] := by
  simp only [readFileMappingSnapshot, eval_bind_ok, lookupInode_ok, eval_failIf_ok,
    eval_ofExcept_ok, eval_pure_ok, KvTxn.getChunkRefs_ok]
  constructor
  · rintro ⟨n, _, ⟨hn, h0, rfl, rfl⟩, _, _, ⟨hreg, rfl⟩, _, _, ⟨rfl, -, rfl⟩, ms, _, ⟨hms, rfl⟩,
      rfl, rfl⟩
    obtain ⟨hv, rfl⟩ := decodeMappings_ok.mp hms
    exact ⟨hn, h0, by simpa using hreg, hv, rfl, rfl, rfl⟩
  · rintro ⟨hn, h0, hreg, hv, hms, rfl, rfl⟩
    refine ⟨_, _, ⟨hn, h0, rfl, rfl⟩, (), _, ⟨by simp [hreg], rfl⟩, _, _, ⟨rfl, rfl, rfl⟩, _, _,
      ⟨decodeMappings_ok.mpr ⟨hv, rfl⟩, rfl⟩, ?_, rfl⟩
    rw [← hms]

/-! ## 書き込みの条件と効果 -/

variable {u : Unit}

theorem setInode_ok :
    (setInode n).eval s ws = .ok (u, ws') ↔ n.ino ≠ 0 ∧ ws' = ws ++ [KvCmd.setInode n] := by
  unfold setInode
  split
  · next h => exact ⟨(nomatch ·), fun h' => absurd h h'.1⟩
  · next h => exact eval_write_ok.trans (iff_and_self.mpr fun _ => h)

/-- 前提の境界と store の attachment が一致する -/
def BoundaryHolds (s : Redis) (ino : InodeID) (boundary : Option ChunkBoundarySnapshot) : Prop :=
  ∀ b, boundary = some b → attachedAt s ino b.index = b.chunkId ∧ ValidAttachment b.chunkId

theorem checkBoundary_ok : (checkBoundary ino boundary msg).eval s [] = .ok (u, ws) ↔
      BoundaryHolds s ino boundary ∧ ws = [] := by
  cases boundary with
  | none =>
    refine eval_pure_ok.trans ?_
    exact ⟨fun h => ⟨fun _ h' => (nomatch h'), h.2⟩, fun h => ⟨rfl, h.2⟩⟩
  | some b =>
    simp only [checkBoundary, eval_bind_ok, lookupAttachment_ok, eval_failIf_ok]
    constructor
    · rintro ⟨r, _, ⟨rfl, hv, -, rfl⟩, he, rfl⟩
      rw [not_not] at he
      exact ⟨fun b' hb => by cases hb; exact ⟨he, he ▸ hv⟩, rfl⟩
    · rintro ⟨h, rfl⟩
      obtain ⟨he, hv⟩ := h b rfl
      refine ⟨_, _, ⟨rfl, he ▸ hv, ?_⟩, not_not.mpr he, rfl⟩
      exact ⟨trivial, rfl⟩

variable {cx : MetaContext} {index endOff : Nat} {chunkId : ChunkID}
  {expected : FileSizePrecondition}

/-- attach と finalize に共通の条件 -/
structure PublishReady (cx : MetaContext) (s : Redis) (ino : InodeID) (index : Nat)
    (chunkId : ChunkID) (endOff : Nat) (expected : FileSizePrecondition) (n : SwordFsInode) :
    Prop where
  write : validateFileChunkWrite index chunkId endOff cx.chunkSize = .ok ()
  precondition : validateFileSizePrecondition expected cx.chunkSize = .ok ()
  inode : s (.inode ino) = some n
  record : n.ino ≠ 0
  regular : n.isRegular = true
  policy : hasRestrictiveInodePolicy n.attr = false
  eof : n.attr.size = expected.eof
  boundary : BoundaryHolds s ino expected.boundary

/-- `AttachPrepared` は、前提がすべて今の状態と合い、位置が空いているときに限り成功する -/
theorem attachPrepared_ok :
    (attachPrepared cx ino index chunkId endOff expected).eval s [] = .ok (u, ws) ↔
      ∃ n, PublishReady cx s ino index chunkId endOff expected n ∧
        attachedAt s ino index = none ∧
        ws = [KvCmd.setInode (extendEof cx n endOff), KvCmd.hsetChunkRef ino index chunkId] := by
  simp only [attachPrepared, eval_bind_ok, lookupInode_ok, lookupAttachment_ok, eval_failIf_ok,
    eval_ofExcept_ok, setInode_ok, eval_write_ok,
    checkContentMetadataMutationPolicy_ok_iff]
  constructor
  · rintro ⟨_, _, ⟨hw, rfl⟩, _, _, ⟨hp, rfl⟩, n, _, ⟨hn, h0, -, rfl⟩, _, _, ⟨hreg, rfl⟩, _, _,
      ⟨rfl, -, -, rfl⟩, _, _, ⟨hpol, rfl⟩, _, _, ⟨heof, rfl⟩, _, _, hb, _, _, ⟨-, rfl⟩, rfl⟩
    obtain ⟨hb', rfl⟩ := checkBoundary_ok.mp hb
    rw [not_or, not_not, Option.not_isSome_iff_eq_none] at heof
    exact ⟨n, ⟨hw, hp, hn, h0, by simpa using hreg, hpol, heof.1, hb'⟩, heof.2, rfl⟩
  · rintro ⟨n, h, ha, rfl⟩
    refine ⟨(), _, ⟨h.write, rfl⟩, (), _, ⟨h.precondition, rfl⟩, n, _,
      ⟨h.inode, h.record, rfl, rfl⟩, (), _, ⟨by simp [h.regular], rfl⟩, _, _, ⟨rfl, ?_, rfl, rfl⟩,
      (), _, ⟨h.policy, rfl⟩, (), _, ⟨?_, rfl⟩, (), _, checkBoundary_ok.mpr ⟨h.boundary, rfl⟩,
      (), _, ⟨h.record, rfl⟩, rfl⟩
    · intro id hid; rw [ha] at hid; cases hid
    · rw [ha]; simp [h.eof]

/-- `FinalizeAttachedWrite` は、前提と attachment が今の状態と合うときに限り成功する -/
theorem finalizeAttachedWrite_ok :
    (finalizeAttachedWrite cx ino index chunkId endOff expected).eval s [] = .ok (u, ws) ↔
      ∃ n, PublishReady cx s ino index chunkId endOff expected n ∧
        attachedAt s ino index = some chunkId ∧
        ws = [KvCmd.setInode (extendEof cx n endOff)] := by
  simp only [finalizeAttachedWrite, eval_bind_ok, lookupInode_ok, lookupAttachment_ok,
    eval_failIf_ok, eval_ofExcept_ok, setInode_ok,
    checkContentMetadataMutationPolicy_ok_iff, not_not]
  constructor
  · rintro ⟨_, _, ⟨hw, rfl⟩, _, _, ⟨hp, rfl⟩, n, _, ⟨hn, h0, -, rfl⟩, _, _, ⟨hreg, rfl⟩, _, _,
      ⟨rfl, -, -, rfl⟩, _, _, ⟨ha, rfl⟩, _, _, hb, _, _, ⟨heof, rfl⟩, _, _, ⟨hpol, rfl⟩, -, rfl⟩
    obtain ⟨hb', rfl⟩ := checkBoundary_ok.mp hb
    exact ⟨n, ⟨hw, hp, hn, h0, by simpa using hreg, hpol, heof, hb'⟩, ha, rfl⟩
  · rintro ⟨n, h, ha, rfl⟩
    have hid : isValidChunkID chunkId = true := (validateFileChunkWrite_ok_iff.mp h.write).1
    refine ⟨(), _, ⟨h.write, rfl⟩, (), _, ⟨h.precondition, rfl⟩, n, _,
      ⟨h.inode, h.record, rfl, rfl⟩, (), _, ⟨by simp [h.regular], rfl⟩, _, _, ⟨rfl, ?_, rfl, rfl⟩,
      (), _, ⟨ha, rfl⟩, (), _, checkBoundary_ok.mpr ⟨h.boundary, rfl⟩, (), _, ⟨h.eof, rfl⟩,
      (), _, ⟨h.policy, rfl⟩, h.record, rfl⟩
    intro id hid'; rw [ha] at hid'; cases hid'; exact hid

/-! ## 大きさの変更 -/

theorem queueDetached_ok :
    (queueDetached cx ino ms).eval s ws = .ok (u, ws') ↔
      (∀ m ∈ ms, ino ≠ 0 ∧ isValidChunkID m.chunkId = true) ∧
        ws' = ws ++ ms.map fun m => KvCmd.hsetPendingDelete (detachedDelete cx.chunkType ino m) := by
  induction ms generalizing ws with
  | nil => simpa [queueDetached] using eq_comm
  | cons m ms ih =>
    simp only [queueDetached, encodeDetachedDelete, queuePendingDelete, eval_bind_ok,
      eval_ofExcept_ok, eval_write_ok, Result.bind_ok_iff, Result.failIf_ok_iff,
      Result.pure_ok_iff, ih]
    constructor
    · rintro ⟨_, _, ⟨⟨-, hm, rfl⟩, rfl⟩, -, _, rfl, hms, rfl⟩
      have hm' : ino ≠ 0 ∧ isValidChunkID m.chunkId = true := by simpa using hm
      exact ⟨List.forall_mem_cons.mpr ⟨hm', hms⟩, by simp⟩
    · rintro ⟨hms, rfl⟩
      obtain ⟨hm, hms⟩ := List.forall_mem_cons.mp hms
      exact ⟨_, _, ⟨⟨(), by simpa using hm, rfl⟩, rfl⟩, (), _, rfl, hms, by simp⟩

theorem detachMappings_ok :
    (detachMappings ino ms).eval s ws = .ok (u, ws') ↔
      ws' = ws ++ ms.map fun m => KvCmd.hdelChunkRef ino m.index := by
  induction ms generalizing ws with
  | nil => simpa [detachMappings] using eq_comm
  | cons m ms ih =>
    simp only [detachMappings, eval_bind_ok, eval_write_ok, ih]
    constructor
    · rintro ⟨-, _, rfl, rfl⟩; simp
    · rintro rfl; exact ⟨(), _, rfl, by simp⟩

/-- 大きさの変更が切り離す mapping。縮小は新しい EOF、拡大は古い EOF の外を切り離す -/
def detachedBy (cx : MetaContext) (s : Redis) (ino : InodeID) (oldSize newSize : Nat) :
    Bool → List ChunkMapping
  | true => (fileMappings s ino).filter fun m =>
      (chunkSizeLayout newSize cx.chunkSize).shouldDetach m.index
  | false => (fileMappings s ino).filter fun m =>
      (chunkSizeLayout oldSize cx.chunkSize).shouldDetach m.index

def sizeChangeWrites (cx : MetaContext) (ino : InodeID) (updated : SwordFsInode)
    (detached : List ChunkMapping) (isShrink : Bool) : List KvCmd :=
  let queue := detached.map fun m => KvCmd.hsetPendingDelete (detachedDelete cx.chunkType ino m)
  let detach := detached.map fun m => KvCmd.hdelChunkRef ino m.index
  if isShrink then queue ++ KvCmd.setInode updated :: detach
  else queue ++ detach ++ [KvCmd.setInode updated]

variable {plan : ChunkSizePlan} {requested : SwordFsAttr} {f : SetAttrField} {isShrink : Bool}

/-- `CommitSizeChange` は、計画が今の snapshot に合い属性の変更が許されるときに限り成功する -/
theorem commitSizeChange_ok (h0 : ino ≠ 0) :
    (commitSizeChange cx ino plan requested f isShrink).eval s [] = .ok (r, ws) ↔
      f.size = true ∧ requested.size = plan.targetEof ∧
      ∃ n current, s (.inode ino) = some n ∧ n.ino ≠ 0 ∧ n.isRegular = true ∧
        (∀ i, ValidAttachment (attachedAt s ino i)) ∧
        validateSizeCommitPlan plan n.attr.size cx.chunkSize (fileMappings s ino) isShrink =
          .ok current ∧
        prepareSetAttrMutation cx.now n requested f = .ok r.inode ∧
        r.detached = detachedBy cx s ino n.attr.size plan.targetEof isShrink ∧
        r.boundary = current.boundary ∧
        ws = sizeChangeWrites cx ino r.inode r.detached isShrink := by
  simp only [commitSizeChange, eval_bind_ok, eval_failIf_ok, eval_ofExcept_ok,
    readFileMappingSnapshot_ok, queueDetached_ok, planChunkSizeLayout_ok_iff, not_or, not_not]
  constructor
  · rintro ⟨-, _, ⟨⟨hf, hreq⟩, rfl⟩, snap, _, ⟨hn, hn0, hreg, hv, hms, -, rfl⟩, current, _,
      ⟨hplan, rfl⟩, updated, _, ⟨hset, rfl⟩, _, _, ⟨⟨-, -, rfl⟩, rfl⟩, _, _, ⟨⟨-, -, rfl⟩, rfl⟩,
      -, _, ⟨-, rfl⟩, h⟩
    rw [hms] at hplan h
    have hi0 : updated.ino ≠ 0 := by rw [(prepareSetAttrMutation_ok hset).2.1]; exact hn0
    refine ⟨by simpa using hf, hreq, snap.inode, current, hn, hn0, hreg, hv, hplan, ?_⟩
    cases isShrink <;>
      simp only [if_true, if_false, Bool.false_eq_true, eval_bind_ok, setInode_ok,
        detachMappings_ok, eval_pure_ok] at h
    · obtain ⟨-, _, rfl, -, _, ⟨-, rfl⟩, rfl, rfl⟩ := h
      exact ⟨hset, rfl, rfl, by simp [sizeChangeWrites]⟩
    · obtain ⟨-, _, ⟨-, rfl⟩, -, _, rfl, rfl, rfl⟩ := h
      exact ⟨hset, rfl, rfl, by simp [sizeChangeWrites]⟩
  · rintro ⟨hf, hreq, n, current, hn, hn0, hreg, hv, hplan, hset, hdet, hb, rfl⟩
    have hi0 : r.inode.ino ≠ 0 := by rw [(prepareSetAttrMutation_ok hset).2.1]; exact hn0
    obtain ⟨hdir, hpre, -, hpc, -⟩ := validateSizeCommitPlan_ok_iff.mp hplan
    obtain ⟨hcs, hold, hnew, -, -⟩ := planChunkSizeChange_ok_iff.mp hpc
    refine ⟨(), _, ⟨⟨by simpa using hf, hreq⟩, rfl⟩, ⟨n, fileMappings s ino⟩, _,
      ⟨hn, hn0, hreg, hv, rfl, rfl, rfl⟩, current, _, ⟨hplan, rfl⟩, r.inode, _, ⟨hset, rfl⟩, _, _,
      ⟨⟨hcs, hold, rfl⟩, rfl⟩, _, _, ⟨⟨hcs, hnew, rfl⟩, rfl⟩, (), _, ⟨?_, rfl⟩, ?_⟩
    · intro m hm
      exact ⟨h0, hv m.index _ (mem_fileMappings.mp (List.mem_filter.mp hm).1)⟩
    · obtain ⟨inode, detached, boundary⟩ := r
      subst hdet hb
      cases isShrink <;>
        simp only [if_true, if_false, Bool.false_eq_true, eval_bind_ok, setInode_ok,
          detachMappings_ok, eval_pure_ok]
      · exact ⟨(), _, rfl, (), _, ⟨hi0, rfl⟩, rfl, by simp [sizeChangeWrites, detachedBy]⟩
      · exact ⟨(), _, ⟨hi0, rfl⟩, (), _, rfl, rfl, by simp [sizeChangeWrites, detachedBy]⟩

/-- 切り離した mapping を順に queue へ入れた Hash -/
def queueAll (t : ChunkType) (ino : InodeID) (ms : List ChunkMapping)
    (h : Hash CleanupId PendingDelete) : Hash CleanupId PendingDelete :=
  ms.foldl (fun h m => AList.insert (detachedDelete t ino m).id (detachedDelete t ino m) h) h

section

variable {detached : List ChunkMapping} {n : SwordFsInode}

theorem queue_apply_of_ne (h : k ≠ .pendingDeletes) (s : Redis) :
    applyAll (detached.map fun m =>
      KvCmd.hsetPendingDelete (detachedDelete cx.chunkType ino m)) s k = s k :=
  applyAll_of_ne (by simpa using fun _ _ => h) s

theorem detach_apply_of_ne (h : k ≠ .chunkRefs ino) (s : Redis) :
    applyAll (detached.map fun m => KvCmd.hdelChunkRef ino m.index) s k = s k :=
  applyAll_of_ne (by simpa using fun _ _ => h) s

theorem queue_apply (t : ChunkType) (ms : List ChunkMapping) (s : Redis) :
    applyAll (ms.map fun m => KvCmd.hsetPendingDelete (detachedDelete t ino m)) s
      .pendingDeletes = queueAll t ino ms (s .pendingDeletes) := by
  induction ms generalizing s with
  | nil => rfl
  | cons m ms ih => rw [List.map_cons, applyAll_cons, ih]; simp [queueAll]

theorem attachedAt_detach (ino : InodeID) (ms : List ChunkMapping) (s : Redis) (i : Nat) :
    attachedAt (applyAll (ms.map fun m => KvCmd.hdelChunkRef ino m.index) s) ino i =
      if i ∈ ms.map (·.index) then none else attachedAt s ino i := by
  induction ms generalizing s with
  | nil => simp
  | cons m ms ih =>
    rw [List.map_cons, applyAll_cons, ih]
    by_cases hi : i = m.index
    · subst hi; simp [attachedAt]
    · simp [attachedAt, AList.lookup_erase_ne hi, hi]

theorem sizeChange_inode (j : InodeID) :
    applyAll (sizeChangeWrites cx ino n detached isShrink) s (.inode j) =
      if j = n.ino then some n else s (.inode j) := by
  cases isShrink <;>
    simp [sizeChangeWrites, detach_apply_of_ne, queue_apply_of_ne]

theorem sizeChange_attachedAt (i : Nat) :
    attachedAt (applyAll (sizeChangeWrites cx ino n detached isShrink) s) ino i =
      if i ∈ detached.map (·.index) then none else attachedAt s ino i := by
  cases isShrink with
  | true =>
    simp only [sizeChangeWrites, if_true, applyAll_append, applyAll_cons, attachedAt_detach]
    simp [attachedAt, queue_apply_of_ne]
  | false =>
    simp only [sizeChangeWrites, Bool.false_eq_true, if_false, applyAll_append, applyAll_cons,
      applyAll_nil]
    have h := attachedAt_detach ino detached (applyAll (detached.map fun m =>
      KvCmd.hsetPendingDelete (detachedDelete cx.chunkType ino m)) s) i
    simpa [attachedAt, queue_apply_of_ne] using h

theorem sizeChange_pendingDeletes :
    applyAll (sizeChangeWrites cx ino n detached isShrink) s .pendingDeletes =
      queueAll cx.chunkType ino detached (s .pendingDeletes) := by
  cases isShrink <;>
    simp [sizeChangeWrites, detach_apply_of_ne, queue_apply]

end

/-! ## 回収 -/

theorem reclaimMappings_ok (h : (reclaimMappings ino n).eval s [] = .ok (ms, ws)) :
    (n.isRegular = true → ms = fileMappings s ino) ∧ (n.isRegular = false → ms = []) ∧
      ws = [] := by
  unfold reclaimMappings at h
  split at h
  · next hr =>
    simp only [eval_bind_ok, readFileMappingSnapshot_ok, eval_pure_ok] at h
    obtain ⟨_, _, ⟨-, -, -, -, hms, -, rfl⟩, rfl, rfl⟩ := h
    exact ⟨fun _ => hms, fun hf => absurd (hr.symm.trans hf) (by simp), rfl⟩
  · next hr =>
    obtain ⟨rfl, rfl⟩ := eval_pure_ok.mp h
    exact ⟨fun ht => absurd ht hr, fun _ => rfl, rfl⟩

theorem encodeDetachedReclaim_ok (h : encodeDetachedReclaim t ino ms = .ok w) : w = ⟨ino, ms⟩ := by
  unfold encodeDetachedReclaim at h
  split at h <;> split at h <;> try cases h
  all_goals split at h <;> cases h; rfl

/-- `PrepareReclaim` は、link を失った inode を mapping ごと消すか、目印を消すだけ -/
theorem prepareReclaim_ok (h : (prepareReclaim cx ino).eval s [] = .ok (r, ws)) :
    (r = none ∧ s (.inode ino) = none ∧ ws = [KvCmd.hdelOrphan ino]) ∨
    (∃ n, r = none ∧ s (.inode ino) = some n ∧ (n.isDir = true ∨ n.attr.nlink ≠ 0) ∧
      ws = [KvCmd.hdelOrphan ino, KvCmd.hdelReclaim ino]) ∨
    (∃ n ms, r = some ⟨ino, ms⟩ ∧ s (.inode ino) = some n ∧ n.ino ≠ 0 ∧ n.isDir = false ∧
      n.attr.nlink = 0 ∧ (n.isRegular = true → ms = fileMappings s ino) ∧
      (n.isRegular = false → ms = []) ∧
      ws = [KvCmd.delInode ino, KvCmd.delChunkRefs ino, KvCmd.hdelOrphan ino,
        KvCmd.hsetReclaim ⟨ino, ms⟩]) := by
  simp only [prepareReclaim, clearOrphanMarker, completeReclaim, eval_bind_ok, findInode_ok] at h
  obtain ⟨_, _, ⟨rfl, h0, -, rfl⟩, h⟩ := h
  split at h
  · next hn =>
    simp only [eval_bind_ok, eval_write_ok, eval_pure_ok] at h
    obtain ⟨-, _, rfl, rfl, rfl⟩ := h
    exact .inl ⟨rfl, hn, rfl⟩
  · next n hn =>
    split at h
    · next hd =>
      simp only [eval_bind_ok, eval_write_ok, eval_pure_ok] at h
      obtain ⟨-, _, rfl, -, _, rfl, rfl, rfl⟩ := h
      exact .inr (.inl ⟨n, rfl, hn, by simpa using hd, rfl⟩)
    · next hd =>
      simp only [eval_bind_ok, eval_write_ok, eval_pure_ok, eval_ofExcept_ok] at h
      obtain ⟨ms, _, hms, w, _, ⟨hw, rfl⟩, -, _, rfl, -, _, rfl, -, _, rfl, -, _, rfl, rfl, rfl⟩ := h
      obtain ⟨hreg, hnreg, rfl⟩ := reclaimMappings_ok hms
      obtain rfl := encodeDetachedReclaim_ok hw
      rw [not_or, not_not] at hd
      exact .inr (.inr ⟨n, ms, rfl, hn, h0 n hn, by simpa using hd.1, hd.2, hreg, hnreg, rfl⟩)

end SwordFS.Metadata
