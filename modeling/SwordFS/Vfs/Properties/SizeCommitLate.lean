import SwordFS.Infra.Occ
import SwordFS.Metadata.Properties.FileInvariant
import SwordFS.Vfs.FileReadWriter

/-!
# 遅れた大きさの変更の EXEC

大きさの変更の応答が失われると、`CommitSizeChangeLocked` は FileMetadata を読み返す。
元のままに見えれば、手元の古い像をそのまま使い続ける。

読み返しは何も書かないので、送られた EXEC を止めない。EXEC がもう効かないのは、
それが WATCH した key を他の client が既に変更していたとき、かつそのときに限る。
-/

namespace SwordFS.Vfs

open Infra Metadata Chunk

/-- EOF を変える一回の commit。計画は読んだ snapshot `before` から立てる -/
structure SizeCommit (cx : MetaContext) where
  ino : InodeID
  now : Int
  before : FileMappingSnapshot
  requested : SwordFsAttr
  fields : SetAttrField
  plan : ChunkSizePlan
  planned : planChunkSizeChange before.inode.attr.size requested.size cx.chunkSize
    before.mappings = .ok plan
  changed : requested.size ≠ before.inode.attr.size

namespace SizeCommit

variable {cx : MetaContext} {ι : Type} [DecidableEq ι]

def shrinking (c : SizeCommit cx) : Bool := c.requested.size < c.before.inode.attr.size

def txn (c : SizeCommit cx) : KvTxn ChunkSizeCommitResult :=
  sizeCommitTxn { cx with now := c.now } c.ino c.plan c.shrinking c.requested c.fields

def readback (c : SizeCommit cx) (s : Redis) : Result FileMappingSnapshot :=
  ((readFileMappingSnapshot c.ino).commit s).1

def verdict (c : SizeCommit cx) (observed : FileMappingSnapshot) : SizeCommitVerdict :=
  sizeCommitVerdict cx c.before c.plan c.shrinking observed

variable {c : SizeCommit cx}

theorem size_of_unchanged (h : c.verdict observed = .unchanged) :
    observed.inode.attr.size = c.before.inode.attr.size := by
  simp only [verdict, sizeCommitVerdict] at h
  split at h
  · cases h
  · split at h
    · cases h
    · split at h
      · next hu => exact hu.1
      · cases h

theorem eofOf_of_unchanged (hread : c.readback s = .ok observed)
    (h : c.verdict observed = .unchanged) : eofOf s c.ino = some c.before.inode.attr.size := by
  obtain ⟨ws, heval, -⟩ := Txn.commit_ok_iff.mp (Prod.ext hread rfl)
  obtain ⟨hn, -⟩ := readFileMappingSnapshot_ok.mp heval
  rw [eofOf, hn, Option.map_some, size_of_unchanged h]

theorem size_of_txn_ok
    (h : c.txn.eval s [] = .ok (r, ws)) : r.inode.attr.size = c.requested.size := by
  have hcommit : (commitSizeChange { cx with now := c.now } c.ino c.plan c.requested c.fields
      c.shrinking).eval s [] = .ok (r, ws) := by
    rw [← h, txn, sizeCommitTxn]
    cases c.shrinking <;> rfl
  simp only [commitSizeChange, Txn.eval_bind_ok, Txn.eval_failIf_ok, Txn.eval_ofExcept_ok, not_or,
    not_not] at hcommit
  obtain ⟨-, _, ⟨⟨hf, -⟩, rfl⟩, snap, _, -, current, _, -, updated, _, ⟨hset, rfl⟩, _, _, -,
    _, _, -, -, _, -, hrest⟩ := hcommit
  have hr : r.inode = updated := by
    split at hrest <;>
    · simp only [Txn.eval_bind_ok, Txn.eval_pure_ok] at hrest
      obtain ⟨_, _, -, _, _, -, rfl, -⟩ := hrest
      rfl
  have hsize : c.fields.size = true := by simpa using hf
  rw [hr, (prepareSetAttrMutation_ok hset).2.2.2.1, if_pos hsize]

/-- 多数の client が大きさの変更を試み、他の command も割り込む系 -/
abbrev System (cx : MetaContext) (ι : Type) :=
  Cluster ι (SizeCommit cx) Key Val Status ChunkSizeCommitResult

/-- server `σ` から command の列 `es` を実行した系 -/
def reached (σ : Server Key Val) (es : List (Event ι (SizeCommit cx) Key Val)) : System cx ι :=
  (Cluster.idle σ).run txn es

/--
EXEC が送られた後の読み返しが「元のまま」と判定されたとする。遅れた EXEC がどの時点で実行されても
EOF を変えないのは、読み返しまでに WATCH した key が変更されていたとき、かつそのときに限る。
-/
theorem late_size_commit_harmless_iff (σ : Server Key Val)
    (es : List (Event ι (SizeCommit cx) Key Val)) {i : ι} {c : SizeCommit cx}
    {a : Attempt Key Val Status ChunkSizeCommitResult}
    {sent : ChunkSizeCommitResult × List KvCmd} {observed : FileMappingSnapshot}
    (hi : (reached σ es).running i = some (c, a)) (hsent : a.rest = .ret (.ok sent))
    (hread : c.readback (reached σ es).server.store = .ok observed)
    (hunchanged : c.verdict observed = .unchanged) :
    (∀ late : List (Event ι (SizeCommit cx) Key Val), (∀ e ∈ late, e.client ≠ some i) →
      ∀ r ws, ((reached σ es).run txn late).exec? i = some (r, ws) →
        eofOf (reached σ es).server.store c.ino = some r.inode.attr.size) ↔
      ∃ p ∈ a.watched, (reached σ es).server.version p.1 ≠ p.2 := by
  have hok : (reached σ es).Ok txn := (Cluster.ok_idle txn σ).run es
  generalize reached σ es = C at *
  have hcur : (∃ p ∈ a.watched, C.server.version p.1 ≠ p.2) ↔ ¬ a.Current C.server := by
    simp [Attempt.Current]
  rw [hcur]
  constructor
  · intro hharmless hc
    -- 割り込みの無い実行では、EXEC は求められた大きさを書いてしまう
    have hexec : C.exec? i = some sent := by
      rw [Cluster.exec?, hi]
      exact Attempt.exec?_eq_some.mpr ⟨hsent, hc⟩
    obtain ⟨c', a', hi', heval⟩ := hok.exec hexec
    rw [hi] at hi'
    cases hi'
    have hsize := hharmless [] (fun _ h => by cases h) sent.1 sent.2 hexec
    rw [size_of_txn_ok heval, eofOf_of_unchanged hread hunchanged] at hsize
    exact c.changed (Option.some.inj hsize).symm
  · intro hc late hlate r ws hexec
    rw [(hok.delayed_exec_none_iff hi hsent).mpr hc late hlate] at hexec
    cases hexec

/-! ## 遅れて効く EXEC -/

def sampleFile : SwordFsInode :=
  { emptyFile 2 with attr := { (emptyFile 2).attr with size := 8 } }

def sampleServer : Server Key Val where
  store := (KvCmd.setInode sampleFile).apply (emptyFileStore 2)
  version := fun _ => 0

def sampleShrink : SizeCommit ⟨4, .cow, 0⟩ where
  ino := 2
  now := 7
  before := ⟨sampleFile, []⟩
  requested := { size := 4 }
  fields := { size := true }
  plan := chunkSizePlan 8 4 4 []
  planned := rfl
  changed := by decide

def sampleSent : List (Event Unit (SizeCommit ⟨4, .cow, 0⟩) Key Val) :=
  [.start () sampleShrink, .watch () (.inode 2), .get (), .watch () (.chunkRefs 2), .get ()]

/-- 読み返しは「元のまま」と判定されるが、その後に実行された EXEC が EOF を縮める -/
theorem late_size_commit_shrinks :
    ∃ observed, sampleShrink.readback (reached sampleServer sampleSent).server.store =
        .ok observed ∧
      sampleShrink.verdict observed = .unchanged ∧
      eofOf (reached sampleServer sampleSent).server.store 2 = some 8 ∧
      eofOf ((reached sampleServer sampleSent).step txn (.exec ())).server.store 2 = some 4 := by
  refine ⟨⟨sampleFile, []⟩, rfl, by decide +kernel, by decide +kernel, by decide +kernel⟩

/-- 読み返しの前に、他の client が inode を書き換える -/
def sampleTouched : List (Event Unit (SizeCommit ⟨4, .cow, 0⟩) Key Val) :=
  sampleSent ++ [.command [KvCmd.setInode sampleFile]]

/-- 書き換えられた後なら、EXEC は遅れても効かない -/
theorem late_size_commit_harmless_touched :
    sampleShrink.verdict ⟨sampleFile, []⟩ = .unchanged ∧
    ∀ late : List (Event Unit (SizeCommit ⟨4, .cow, 0⟩) Key Val),
      (∀ e ∈ late, e.client ≠ some ()) → ∀ r ws,
      ((reached sampleServer sampleTouched).run txn late).exec? () = some (r, ws) →
      eofOf (reached sampleServer sampleTouched).server.store 2 = some r.inode.attr.size := by
  have hread : sampleShrink.readback (reached sampleServer sampleTouched).server.store =
      .ok ⟨sampleFile, []⟩ := rfl
  have hunchanged : sampleShrink.verdict ⟨sampleFile, []⟩ = .unchanged := by decide +kernel
  exact ⟨hunchanged, (late_size_commit_harmless_iff sampleServer sampleTouched (i := ())
    (c := sampleShrink) rfl rfl hread hunchanged).mpr
      ⟨(.inode 2, 0), by decide +kernel, by decide +kernel⟩⟩

end SizeCommit

end SwordFS.Vfs
