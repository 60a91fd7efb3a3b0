import SwordFS.Metadata.Properties.FileInvariant

/-!
# 公開の前に読む snapshot

`ReadFileChunkSnapshot` が返すものは今の store の観測そのものである。
誰も動かなければ、それを前提にした `AttachPrepared` と `FinalizeAttachedWrite` は、
inode の policy が許すときに限り成功する。
-/

namespace SwordFS.Metadata

open Infra

variable {cs : Nat} {s : Redis} {ino : InodeID} {i : Nat} {file : FileChunkSnapshot}

/-- `file` は、位置 `i` についての store `s` の観測 -/
structure SnapshotOf (cs : Nat) (s : Redis) (ino : InodeID) (i : Nat)
    (file : FileChunkSnapshot) : Prop where
  inode : s (.inode ino) = some file.inode
  record : file.inode.ino = ino
  ino_ne : ino ≠ 0
  regular : file.inode.isRegular = true
  chunkSize : 0 < cs
  bounded : file.inode.attr.size ≤ kMaxSupportedFileSize
  attachment : file.chunkId = attachedAt s ino i
  valid : ValidAttachment file.chunkId
  boundary : file.eofBoundary = (chunkSizeLayout file.inode.attr.size cs).boundary.map fun b =>
    ⟨b.index, attachedAt s ino b.index, b.visiblePrefix⟩
  boundaryValid : ∀ b, file.eofBoundary = some b → ValidAttachment b.chunkId

theorem readAttachment_ok_iff : (match (s (.chunkRefs ino)).lookup i with
      | none => (.ok none : Result (Option ChunkID))
      | some value => (parseAttachedChunkID value).map some) = .ok r ↔
      r = attachedAt s ino i ∧ ValidAttachment r := by
  unfold attachedAt
  cases (s (.chunkRefs ino)).lookup i with
  | none =>
    constructor
    · rintro ⟨⟩; exact ⟨rfl, fun _ h => nomatch h⟩
    · rintro ⟨rfl, -⟩; rfl
  | some value =>
    simp only [Result.map_ok_iff, parseAttachedChunkID]
    constructor
    · rintro ⟨id, h, rfl⟩
      split at h
      · cases h
      · next hv => cases h; exact ⟨rfl, fun id h => by cases h; simpa using hv⟩
    · rintro ⟨rfl, hv⟩
      exact ⟨value, by simp [hv value rfl], rfl⟩

theorem readFileChunkSnapshot_ok_iff :
    readFileChunkSnapshot cs s ino i = .ok file ↔ SnapshotOf cs s ino i file := by
  unfold readFileChunkSnapshot
  cases hn : s (.inode ino) with
  | none =>
    constructor
    · rintro ⟨⟩
    · intro h
      exact absurd (hn.symm.trans h.inode) (by simp)
  | some n =>
    simp only [Result.bind_ok_iff, Result.failIf_ok_iff, planChunkSizeLayout_ok_iff]
    constructor
    · rintro ⟨-, h0, -, hino, -, hreg, l, ⟨hcs, hmax, rfl⟩, cid, hc, h⟩
      obtain ⟨rfl, hv⟩ := readAttachment_ok_iff.mp hc
      rw [not_not] at hino
      have hreg' : n.isRegular = true := by simpa using hreg
      split at h
      · next hb =>
        cases h
        exact ⟨hn, hino, hino ▸ h0, hreg', hcs, hmax, rfl, hv, by rw [hb]; rfl,
          fun _ h => by cases h⟩
      · next b hb =>
        simp only [Result.bind_ok_iff, Result.pure_ok_iff] at h
        obtain ⟨_, hc', rfl⟩ := h
        obtain ⟨rfl, hbv⟩ := readAttachment_ok_iff.mp hc'
        exact ⟨hn, hino, hino ▸ h0, hreg', hcs, hmax, rfl, hv, by rw [hb]; rfl,
          fun b' h => by cases h; exact hbv⟩
    · rintro ⟨hin, hino, h0, hreg, hcs, hmax, hatt, hv, hb, hbv⟩
      rw [hn] at hin
      cases hin
      refine ⟨(), hino ▸ h0, (), not_not.mpr hino, (), by simp [hreg], _, ⟨hcs, hmax, rfl⟩,
        file.chunkId, readAttachment_ok_iff.mpr ⟨hatt, hv⟩, ?_⟩
      obtain ⟨n, cid, bd⟩ := file
      split
      · next hl =>
        rw [hl] at hb
        cases hb
        rfl
      · next b hl =>
        rw [hl] at hb
        cases hb
        simp only [Result.bind_ok_iff, Result.pure_ok_iff]
        exact ⟨_, readAttachment_ok_iff.mpr ⟨rfl, hbv _ rfl⟩, rfl⟩

namespace SnapshotOf

theorem unique (h : SnapshotOf cs s ino i file)
    (h' : SnapshotOf cs s ino i file') : file' = file := by
  have h1 := readFileChunkSnapshot_ok_iff.mpr h
  have h2 := readFileChunkSnapshot_ok_iff.mpr h'
  rw [h1] at h2
  cases h2
  rfl

variable {cx : MetaContext} {id : ChunkID} {endOff : Nat}

section

variable (h : SnapshotOf cx.chunkSize s ino i file)
  (hw : validateFileChunkWrite i id endOff cx.chunkSize = .ok ())
  (hp : hasRestrictiveInodePolicy file.inode.attr = false)
include h hw hp

theorem publishReady :
    PublishReady cx s ino i id endOff ⟨file.inode.attr.size, file.eofBoundary⟩ file.inode where
  write := hw
  precondition := by
    refine validateFileSizePrecondition_ok_iff.mpr ⟨h.chunkSize, h.bounded, ?_, fun b hb =>
      h.boundaryValid b hb⟩
    rw [h.boundary]
    cases (chunkSizeLayout file.inode.attr.size cx.chunkSize).boundary <;> rfl
  inode := h.inode
  record := by rw [h.record]; exact h.ino_ne
  regular := h.regular
  policy := hp
  eof := rfl
  boundary := by
    intro b hb
    refine ⟨?_, h.boundaryValid b hb⟩
    have hbd := h.boundary.symm.trans hb
    cases hl : (chunkSizeLayout file.inode.attr.size cx.chunkSize).boundary with
    | none => rw [hl] at hbd; cases hbd
    | some l => rw [hl] at hbd; cases hbd; rfl

theorem attachPrepared_commit (ha : file.chunkId = none) :
    (attachPrepared cx ino i id endOff ⟨file.inode.attr.size, file.eofBoundary⟩).commit s =
      (.ok (), Cmd.applyAll [KvCmd.setInode (extendEof cx file.inode endOff),
        KvCmd.hsetChunkRef ino i id] s) :=
  Txn.commit_ok_iff.mpr ⟨_, attachPrepared_ok.mpr
    ⟨_, h.publishReady hw hp, h.attachment.symm.trans ha, rfl⟩, rfl⟩

theorem finalizeAttachedWrite_commit (ha : file.chunkId = some id) :
    (finalizeAttachedWrite cx ino i id endOff ⟨file.inode.attr.size, file.eofBoundary⟩).commit s =
      (.ok (), Cmd.applyAll [KvCmd.setInode (extendEof cx file.inode endOff)] s) :=
  Txn.commit_ok_iff.mpr ⟨_, finalizeAttachedWrite_ok.mpr
    ⟨_, h.publishReady hw hp, h.attachment.symm.trans ha, rfl⟩, rfl⟩

end

end SnapshotOf

theorem commit_of_not_ok {α : Type} {t : KvTxn α} (h : ∀ a ws, t.eval s [] ≠ .ok (a, ws)) :
    ∃ e, t.commit s = (.error e, s) := by
  unfold Txn.commit
  cases he : t.eval s [] with
  | error e => exact ⟨e, rfl⟩
  | ok p => exact absurd he (h p.1 p.2)

namespace SnapshotOf

variable {cx : MetaContext} {id : ChunkID} {endOff : Nat} {expected : FileSizePrecondition}

theorem attachPrepared_refused (h : SnapshotOf cx.chunkSize s ino i file)
    (hp : hasRestrictiveInodePolicy file.inode.attr = true) :
    ∃ e, (attachPrepared cx ino i id endOff expected).commit s = (.error e, s) := by
  refine commit_of_not_ok fun _ _ he => ?_
  obtain ⟨n, hr, -⟩ := attachPrepared_ok.mp he
  have hn := hr.inode
  rw [h.inode] at hn
  cases hn
  exact absurd hr.policy (by simp [hp])

theorem finalizeAttachedWrite_refused (h : SnapshotOf cx.chunkSize s ino i file)
    (hp : hasRestrictiveInodePolicy file.inode.attr = true) :
    ∃ e, (finalizeAttachedWrite cx ino i id endOff expected).commit s = (.error e, s) := by
  refine commit_of_not_ok fun _ _ he => ?_
  obtain ⟨n, hr, -⟩ := finalizeAttachedWrite_ok.mp he
  have hn := hr.inode
  rw [h.inode] at hn
  cases hn
  exact absurd hr.policy (by simp [hp])

end SnapshotOf

/-! ## 公開の transaction -/

/-- 公開の transaction。取り付け済みなら EOF だけを進める -/
def publishTxn (cx : MetaContext) (ino : InodeID) (i : Nat) (id : ChunkID) (endOff : Nat)
    (expected : FileSizePrecondition) (attached : Bool) : KvTxn Unit :=
  if attached then finalizeAttachedWrite cx ino i id endOff expected
  else attachPrepared cx ino i id endOff expected

/-- `s` の位置 `i` に `id` を公開し、EOF を `endOff` まで進めたのが `s'` -/
structure FilePublished (ino : InodeID) (i : Nat) (id : ChunkID) (endOff : Nat)
    (s s' : Redis) : Prop where
  attachment : ∀ j, attachedAt s' ino j = if j = i then some id else attachedAt s ino j
  inode : ∃ n n', s (.inode ino) = some n ∧ s' (.inode ino) = some n' ∧ n'.ino = n.ino ∧
    n'.isRegular = n.isRegular ∧
    hasRestrictiveInodePolicy n'.attr = hasRestrictiveInodePolicy n.attr ∧
    n'.attr.size = max n.attr.size endOff

namespace SnapshotOf

variable {cx : MetaContext} {id : ChunkID} {endOff : Nat} {s' : Redis}

/-- 誰も動かなければ、観測に基づく公開は policy が許すときに通る -/
theorem publishTxn_commit (h : SnapshotOf cx.chunkSize s ino i file)
    (hw : validateFileChunkWrite i id endOff cx.chunkSize = .ok ())
    (hp : hasRestrictiveInodePolicy file.inode.attr = false)
    (hid : ∀ id', file.chunkId = some id' → id' = id) :
    ∃ s', (publishTxn cx ino i id endOff ⟨file.inode.attr.size, file.eofBoundary⟩
        file.chunkId.isSome).commit s = (.ok (), s') ∧
      FilePublished ino i id endOff s s' := by
  have hino := h.record
  unfold publishTxn
  split
  · next hs =>
    obtain ⟨id', ha⟩ := Option.isSome_iff_exists.mp hs
    obtain rfl := hid id' ha
    refine ⟨_, h.finalizeAttachedWrite_commit hw hp ha, fun j => ?_, _, extendEof cx file.inode endOff,
      h.inode, by simp [hino], rfl, rfl, rfl, rfl⟩
    have hat := h.attachment.symm.trans ha
    split
    · next hj => subst hj; simpa [attachedAt] using hat
    · simp [attachedAt]
  · next hs =>
    have ha : file.chunkId = none := Option.not_isSome_iff_eq_none.mp hs
    refine ⟨_, h.attachPrepared_commit hw hp ha, fun j => ?_, _, extendEof cx file.inode endOff,
      h.inode, by simp [hino], rfl, rfl, rfl, rfl⟩
    split
    · next hj => subst hj; simp [attachedAt]
    · next hj => simp [attachedAt, AList.lookup_insert_ne hj]

theorem publishTxn_refused (attached : Bool) (h : SnapshotOf cx.chunkSize s ino i file)
    (hp : hasRestrictiveInodePolicy file.inode.attr = true) :
    ∃ e, (publishTxn cx ino i id endOff expected attached).commit s = (.error e, s) := by
  unfold publishTxn
  split
  · exact h.finalizeAttachedWrite_refused hp
  · exact h.attachPrepared_refused hp

theorem published (h : SnapshotOf cs s ino i file)
    (hw : validateFileChunkWrite i id endOff cs = .ok ())
    (hpub : FilePublished ino i id endOff s s') :
    ∃ file', SnapshotOf cs s' ino i file' ∧ hasRestrictiveInodePolicy file'.inode.attr =
      hasRestrictiveInodePolicy file.inode.attr := by
  obtain ⟨hid, hcs, hmax, hlo, hhi⟩ := validateFileChunkWrite_ok_iff.mp hw
  obtain ⟨n, n', hn, hn', hino, hreg, hpol, hsize⟩ := hpub.inode
  obtain rfl : n = file.inode := by
    have := hn.symm.trans h.inode
    simpa using this
  have hvalid : ValidAttachment (attachedAt s' ino i) := by
    rw [hpub.attachment, if_pos rfl]
    rintro _ ⟨⟩
    exact hid
  refine ⟨⟨n', attachedAt s' ino i, (chunkSizeLayout n'.attr.size cs).boundary.map fun b =>
    ⟨b.index, attachedAt s' ino b.index, b.visiblePrefix⟩⟩, ⟨hn', hino.trans h.record, h.ino_ne,
      hreg.trans h.regular, hcs, ?_, rfl, hvalid, rfl, ?_⟩, hpol⟩
  · rw [hsize]
    exact max_le h.bounded hmax
  · intro b hb
    obtain ⟨l, hl, rfl⟩ := Option.map_eq_some_iff.mp hb
    obtain ⟨hmod, rfl⟩ := boundary_eq_some_iff.mp hl
    -- EOF を進めたなら、その境界は公開した chunk の中にある。
    by_cases hi : n'.attr.size / cs = i
    · rw [hi]
      exact hvalid
    · have hsame : n'.attr.size = file.inode.attr.size := by
        rw [hsize]
        refine max_eq_left (Nat.le_of_not_lt fun hlt => hi ?_)
        have hend : n'.attr.size = endOff := hsize.trans (max_eq_right hlt.le)
        rw [hend] at hmod ⊢
        have hne : endOff ≠ i * cs + cs := by
          rintro rfl
          simp at hmod
        exact Nat.div_eq_of_lt_le (Nat.le_of_lt hlo) (by rw [Nat.succ_mul]; omega)
      intro id' hid'
      dsimp only at hid'
      rw [hpub.attachment, if_neg hi] at hid'
      refine h.boundaryValid ⟨n'.attr.size / cs, attachedAt s ino (n'.attr.size / cs),
        n'.attr.size % cs⟩ ?_ id' hid'
      rw [h.boundary, ← hsame, hl]
      rfl

end SnapshotOf

end SwordFS.Metadata
