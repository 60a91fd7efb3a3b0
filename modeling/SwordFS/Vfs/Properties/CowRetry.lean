import SwordFS.Chunk.Properties.CowFlush
import SwordFS.Vfs.History

/-!
# COW の Flush のやり直し

一度失敗した Flush は、失敗が起きず他の誰も動かないところでやり直しても成功するとは限らない。
成功するのは、session の覚えている attachment と head が今のものと一致するときである。

縮小は commit の後に手元の head を縮めてから、境界の head を縮めに行く。
後者だけが失敗すると手元の head は今の head と食い違い、以後の Flush は毎回拒まれる。
-/

namespace SwordFS.Vfs

open Infra Metadata Chunk

/-- 邪魔されない Flush のやり直しは、`Flushable` のときに限り成功し、buffer の内容を公開する -/
theorem cow_flush_retry_iff (cx : MetaContext) (ino : InodeID) (c : Cow.COWChunk) (b : Backend)
    (hstate : c.state ≠ .flushing) (cs : Nat → Choice Answer)
    (hcs : ∀ n, (cs n).Within Answer.NoFault) :
    let out := Prog.exec (Cow.flush cx ino) cs (c, b)
    (out.1 = .ok () ↔ (c.hasPendingWrites = true → Cow.Flushable cx ino c b)) ∧
      (out.1 = .ok () → c.hasPendingWrites = true →
        Cow.SessionPublished c b out.2.1 ∧ Cow.PublishedIn cx ino c b out.2.2) := by
  intro out
  cases hp : c.hasPendingWrites with
  | false =>
    obtain ⟨hok, -⟩ := (Cow.flush_nothing exists_noFault hstate hp).exec hcs
    exact ⟨⟨fun _ h => (nomatch h), fun _ => hok⟩, fun _ h => nomatch h⟩
  | true =>
    obtain ⟨hclean, hpos⟩ := Cow.COWChunk.hasPendingWrites_iff.mp hp
    have hdirty : c.state = .dirty := by cases hs : c.state <;> simp_all
    have h : Cow.FlushOutcome cx ino c b out.1 out.2 := (Cow.flush_alone hdirty hpos).exec hcs
    rcases hout : out.1 with e | ⟨⟩
    · rw [hout] at h
      exact ⟨⟨fun h' => (nomatch h'), fun h' => absurd (h' rfl) h⟩, fun h' => nomatch h'⟩
    · rw [hout] at h
      exact ⟨⟨fun _ _ => h.1, fun _ => rfl⟩, fun _ _ => h.2⟩

/-! ## 途中で失敗した縮小 -/

/-- `[1, 2, 3, 4]` を公開し、先頭を書き換えてから、境界の head を縮める所だけ失敗する縮小 -/
def shrunkWithoutSanitation : Mount Cow.COWChunk :=
  runCalls (Cow.mechanism smallChunks 2 1) smallChunks 2 (createdMount 2)
    [(.write [1, 2, 3, 4] 0 {}, noFaults), (.flush 1, noFaults), (.write [9] 0 {}, noFaults),
      (.truncate 2, failsAt 7)]

/-- 確定した失敗だけの履歴の後で、書き込みを抱えた session の Flush が必ず失敗する -/
theorem interrupted_shrink_blocks_flush :
    ∃ c, shrunkWithoutSanitation.1.chunks.lookup 0 = some c ∧ c.state = .dirty ∧
      c.hasPendingWrites = true ∧
      (Prog.exec (Cow.flush smallChunks 2) noFaults (c, shrunkWithoutSanitation.2)).1.isOk =
        false ∧
      ((FileCall.flush 1).exec (Cow.mechanism smallChunks 2 1) smallChunks 2 noFaults
        shrunkWithoutSanitation).1.isOk = false := by
  refine ⟨{ index := 0, attachedId := some 1, publishedHead := some ⟨1, 2⟩, visiblePrefix := 2,
            wb := some [9, 2] }, ?_⟩
  decide +kernel

/-- 縮小が終わりまで進んだ同じ履歴では、Flush は公開できる -/
def shrunk : Mount Cow.COWChunk :=
  runCalls (Cow.mechanism smallChunks 2 1) smallChunks 2 (createdMount 2)
    [(.write [1, 2, 3, 4] 0 {}, noFaults), (.flush 1, noFaults), (.write [9] 0 {}, noFaults),
      (.truncate 2, noFaults)]

theorem cow_flush_retry_iff_shrunk :
    (Prog.exec (Cow.flush smallChunks 2) noFaults
      (((shrunk.1.chunks.lookup 0).getD { index := 0 }), shrunk.2)).1 = .ok () ∧
    Cow.PublishedIn smallChunks 2 ((shrunk.1.chunks.lookup 0).getD { index := 0 }) shrunk.2
      (Prog.exec (Cow.flush smallChunks 2) noFaults
        (((shrunk.1.chunks.lookup 0).getD { index := 0 }), shrunk.2)).2.2 := by
  have h := cow_flush_retry_iff smallChunks 2 ((shrunk.1.chunks.lookup 0).getD { index := 0 })
    shrunk.2 (by decide +kernel) noFaults (fun _ _ => rfl)
  have hok : (Prog.exec (Cow.flush smallChunks 2) noFaults
      (((shrunk.1.chunks.lookup 0).getD { index := 0 }), shrunk.2)).1 = .ok () := by
    decide +kernel
  exact ⟨hok, (h.2 hok (by decide +kernel)).2⟩

end SwordFS.Vfs
