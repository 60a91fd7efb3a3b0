import SwordFS.Chunk.Properties.SliceFlush
import SwordFS.Vfs.History

/-!
# Slice の Flush のやり直し

失敗が起きず他の誰も動かないところでやり直した Flush は、`FlushReady` のときに限り成功し、
残った候補の byte を公開する。`FlushReady` は Flush の前の session と外部状態だけで決まる。
候補は、record を書いたかもしれない ChunkID を覚えていて、次の Flush ではその index に
同じ record が在るかを読み返す。

index に届いた書き込みの返事が失われた後に、候補の途中で切り詰めると、
候補の record の長さだけが変わるので、読み返しは二度と一致しない。
-/

namespace SwordFS.Vfs

open Infra Metadata Chunk

/-- record は index に届いたが返事が失われ、その読み返しも失敗する答えの列 -/
def appendReplyLost : Nat → Choice Answer := fun k =>
  ⟨0, fun n => ⟨if k = 11 ∧ n = 3 then .lost true
    else if k = 11 ∧ n = 5 then .fail (.unavailable "Redis unavailable") else .none, 0⟩⟩

/-- `[1, 2, 3, 4]` を公開し、`[5, 6]` の record の返事を失ってから、その途中で切り詰める -/
def truncatedWhileAmbiguous : Mount Slice.SliceChunk :=
  runCalls (Slice.mechanism smallSlices 2) smallSlices 2 (createdMount 2)
    [(.write [1, 2, 3, 4] 0 {}, noFaults), (.flush 1, noFaults), (.write [5, 6] 1 {}, noFaults),
      (.flush 1, appendReplyLost), (.truncate 2, noFaults)]

/-- 切り詰めなければ、同じ履歴の候補は読み返しで公開できる。後の二つの書き込みは一つの候補に併合される -/
def writtenWhileAmbiguous : Mount Slice.SliceChunk :=
  runCalls (Slice.mechanism smallSlices 2) smallSlices 2 (createdMount 2)
    [(.write [1, 2, 3, 4] 0 {}, noFaults), (.flush 1, noFaults), (.write [5, 6] 1 {}, noFaults),
      (.flush 1, appendReplyLost), (.write [7] 0 {}, noFaults), (.write [8] 3 {}, noFaults)]

def ambiguousSession : Slice.SliceChunk :=
  (writtenWhileAmbiguous.1.chunks.lookup 0).getD { index := 0 }

theorem ambiguousSession_remembers :
    ∀ c ∈ ambiguousSession.frozen, c.Remembers writtenWhileAmbiguous.2 := by
  have hfrozen : ambiguousSession.frozen =
      [{ pos := 1, payload := [5, 6], visibleLen := 2, eofLen := 2, preparedId := some 2,
         uncertainRecordChunkId := some 1 }] := by decide +kernel
  intro c hc
  rw [hfrozen, List.mem_singleton] at hc
  subst hc
  refine ⟨le_rfl, fun id hid => ?_, nofun⟩
  cases hid
  decide +kernel

end SwordFS.Vfs
