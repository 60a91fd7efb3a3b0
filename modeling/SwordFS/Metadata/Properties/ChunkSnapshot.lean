import SwordFS.Metadata.Properties.FileSnapshot
import SwordFS.Metadata.Redis.ChunkSnapshot

/-!
# chunk の snapshot は一つの時点のものである

境界の番号は前の命令で読んだ inode から求めるが、script が同じ像を見て初めて attachment を読むので、
像が一度変わって元に戻っていても（ABA）、返すものはすべて script が実行された時点のものである。
-/

namespace SwordFS.Metadata

open Infra

/-- `snap` は、時点 `f` の file の観測 -/
structure RawSnapshot (c : SnapshotCall) (f : RawFile) (snap : FileChunkSnapshot) : Prop where
  image : ∃ encoded, f.inode = some encoded ∧ c.parse encoded = .ok snap.inode
  record : snap.inode.ino = c.ino
  regular : snap.inode.isRegular = true
  chunkSize : 0 < c.chunkSize
  bounded : snap.inode.attr.size ≤ kMaxSupportedFileSize
  attachment : decodeAttachedChunkID (f.refs (toString c.index)) = .ok snap.chunkId
  /-- EOF が chunk の境目にあれば境界は無い -/
  aligned : snap.inode.attr.size % c.chunkSize = 0 → snap.eofBoundary = none
  /-- そうでなければ、境界は EOF を含む chunk の attachment -/
  interior : snap.inode.attr.size % c.chunkSize ≠ 0 → ∃ id,
    decodeAttachedChunkID (f.refs (toString (snap.inode.attr.size / c.chunkSize))) = .ok id ∧
    snap.eofBoundary = some ⟨snap.inode.attr.size / c.chunkSize, id,
      snap.inode.attr.size % c.chunkSize⟩

variable {f : RawFile} {snap : FileChunkSnapshot}

theorem RawSnapshot.boundary_iff (h : RawSnapshot c f snap) :
    snap.eofBoundary.isSome = true ↔ snap.inode.attr.size % c.chunkSize ≠ 0 := by
  constructor
  · intro hsome hz
    rw [h.aligned hz] at hsome
    cases hsome
  · intro hne
    obtain ⟨id, -, hb⟩ := h.interior hne
    rw [hb]
    rfl

/-! ## 検査と組み立て -/

variable {c : SnapshotCall}

theorem examine_ok (h : c.examine encoded = .ok (inode, boundary)) :
    c.parse encoded = .ok inode ∧ inode.ino = c.ino ∧ inode.isRegular = true ∧ 0 < c.chunkSize ∧
      inode.attr.size ≤ kMaxSupportedFileSize ∧
      boundary = (chunkSizeLayout inode.attr.size c.chunkSize).boundary := by
  simp only [SnapshotCall.examine, Result.bind_ok_iff, Result.failIf_ok_iff, Result.pure_ok_iff,
    planChunkSizeLayout_ok_iff, exists_const] at h
  obtain ⟨n, hparse, hino, hreg, layout, ⟨hcs, hmax, rfl⟩, heq⟩ := h
  cases heq
  exact ⟨hparse, not_not.mp hino, by simpa using hreg, hcs, hmax, rfl⟩

/-- 像の一致した時点で読んだ値を組み立てた結果は、その時点の観測 -/
theorem assemble_ok (hexam : c.examine encoded = .ok (inode, boundary))
    (hread : readChunkAttachmentsIfUnchanged f encoded c.index (c.eofIndex boundary)
      = some (attachedRaw, eofRaw))
    (h : c.assemble attachedRaw eofRaw inode boundary = .ok snap) : RawSnapshot c f snap := by
  obtain ⟨hparse, hino, hreg, hcs, hmax, rfl⟩ := examine_ok hexam
  unfold readChunkAttachmentsIfUnchanged at hread
  split at hread
  next => cases hread
  next himage =>
    rw [not_not] at himage
    cases hread
    simp only [SnapshotCall.assemble, Result.bind_ok_iff] at h
    obtain ⟨chunkId, hattach, h⟩ := h
    by_cases hz : inode.attr.size % c.chunkSize = 0
    · have hb : (chunkSizeLayout inode.attr.size c.chunkSize).boundary = none := if_pos hz
      rw [hb] at h
      cases Result.pure_ok_iff.mp h
      exact ⟨⟨encoded, himage, hparse⟩, hino, hreg, hcs, hmax, hattach, fun _ => rfl,
        fun hne => absurd hz hne⟩
    · have hb : (chunkSizeLayout inode.attr.size c.chunkSize).boundary
          = some ⟨inode.attr.size / c.chunkSize, inode.attr.size % c.chunkSize⟩ := if_neg hz
      rw [hb] at h
      obtain ⟨boundaryId, hboundary, hpure⟩ := Result.bind_ok_iff.mp h
      cases Result.pure_ok_iff.mp hpure
      exact ⟨⟨encoded, himage, hparse⟩, hino, hreg, hcs, hmax, hattach, fun hz' => absurd hz' hz,
        fun _ => ⟨boundaryId, hboundary, rfl⟩⟩

/-! ## 交互の実行 -/

/-- 進行中の読みは検査を通った像を覚えており、終わった読みは呼び出しの中の一つの時点を見ている -/
def SnapshotInv (c : SnapshotCall) (S : SnapshotSystem) (seen : List RawFile) : Prop :=
  match S.pc with
  | .get _ => True
  | .attachments _ encoded inode boundary => c.examine encoded = .ok (inode, boundary)
  | .done (.error _) => True
  | .done (.ok snap) => ∃ f ∈ seen, RawSnapshot c f snap

variable {seen : List RawFile}

theorem command_inv (h : SnapshotInv c ⟨f, pc⟩ seen) :
    SnapshotInv c ⟨f, c.command f fault pc⟩ (instants seen ⟨f, pc⟩ ()) := by
  cases pc with
  | done r => exact h
  | get n =>
    cases fault with
    | some e => trivial
    | none =>
      unfold SnapshotCall.command
      dsimp only
      split
      next => trivial
      next encoded _ =>
        split
        next => trivial
        next inode boundary hexam => exact hexam
  | attachments n encoded inode boundary =>
    cases fault with
    | some e => trivial
    | none =>
      unfold SnapshotCall.command
      dsimp only
      split
      next =>
        unfold SnapshotCall.attempt
        split <;> trivial
      next attachedRaw eofRaw hread =>
        cases hr : c.assemble attachedRaw eofRaw inode boundary with
        | error e => trivial
        | ok snap => exact ⟨f, List.mem_cons_self, assemble_ok h hread hr⟩

/-- ほかの client の commit は、覚えている像にも既に見た時点にも触れない -/
theorem SnapshotInv.mono (h : SnapshotInv c S seen) :
    SnapshotInv c ⟨file, S.pc⟩ (instants seen S ()) := by
  obtain ⟨f, pc⟩ := S
  cases pc with
  | get n => trivial
  | attachments n encoded inode boundary => exact h
  | done r => exact h

theorem SnapshotInv.step (h : SnapshotInv c S seen) (hstep : c.step S ev = some (l, S')) :
    SnapshotInv c S' (instants seen S l) := by
  cases ev with
  | commit f =>
    cases hstep
    exact h.mono
  | command fault =>
    cases hstep
    exact command_inv h

/-- 実行の全体。OK の結果は、呼び出しの間のどこか一つの時点の観測 -/
theorem SnapshotInv.run (file : RawFile) (evs : List SnapshotEvent)
    (h : (runWith c.step instants (⟨file, c.attempt 0⟩, []) evs).1.pc = .done (.ok snap)) :
    ∃ f ∈ (runWith c.step instants (⟨file, c.attempt 0⟩, []) evs).2, RawSnapshot c f snap := by
  have hinit : SnapshotInv c ⟨file, c.attempt 0⟩ [] := by
    unfold SnapshotCall.attempt
    split <;> trivial
  have hrun := runWith_always c.step instants (fun _ _ _ _ _ hI hs => SnapshotInv.step hI hs)
    evs hinit
  unfold SnapshotInv at hrun
  rw [h] at hrun
  exact hrun

/--
どの交互の実行でも、OK で返した inode、ChunkID、EOF の境界は、呼び出しの間の一つの時点のものであり、
境界があるのは EOF が chunk の大きさの倍数でないとき、そのときに限る。
-/
theorem chunk_snapshot_atomic (c : SnapshotCall) (file : RawFile) (evs : List SnapshotEvent)
    (snap : FileChunkSnapshot)
    (h : (runWith c.step instants (⟨file, c.attempt 0⟩, []) evs).1.pc = .done (.ok snap)) :
    ∃ f ∈ (runWith c.step instants (⟨file, c.attempt 0⟩, []) evs).2, RawSnapshot c f snap ∧
      (snap.eofBoundary.isSome = true ↔ snap.inode.attr.size % c.chunkSize ≠ 0) := by
  obtain ⟨f, hf, hsnap⟩ := SnapshotInv.run file evs h
  exact ⟨f, hf, hsnap, hsnap.boundary_iff⟩

def abaInode : SwordFsInode :=
  { ino := 2, attr := { SwordFsAttr.create 0 sIfreg 0 0 with size := 5 } }

def abaCall : SnapshotCall where
  ino := 2
  index := 0
  chunkSize := 4
  retryAttempts := 1
  parse text := if text = "a" then .ok abaInode else .error (.malformed "inode")

/-- 像は同じで、attachment だけが違う二つの時点 -/
def abaFile (first : String) : RawFile where
  inode := some "a"
  refs field := if field = "0" then some first else if field = "1" then some "9" else none

/-- GET と script の間に、像が一度変わって元に戻り、attachment は変わったままの実行 -/
def abaRun : List SnapshotEvent :=
  [.command none, .commit fun f => { f with inode := some "b" }, .commit fun _ => abaFile "8",
    .command none]

theorem chunk_snapshot_atomic_aba :
    ∃ f ∈ (runWith abaCall.step instants (⟨abaFile "7", abaCall.attempt 0⟩, []) abaRun).2,
      RawSnapshot abaCall f ⟨abaInode, some 8, some ⟨1, some 9, 1⟩⟩ ∧
        (true = true ↔ abaInode.attr.size % 4 ≠ 0) :=
  chunk_snapshot_atomic abaCall (abaFile "7") abaRun ⟨abaInode, some 8, some ⟨1, some 9, 1⟩⟩ rfl

end SwordFS.Metadata
