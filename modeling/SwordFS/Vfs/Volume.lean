import SwordFS.Vfs.History

/-!
# 複数の mount の volume

一つの volume を使う mount はそれぞれ `FileReadWriter` を持ち、外部状態を共有する。
全体の実行は、mount ごとの仕事の列を任意の順に交互に進めたものである。

実行の性質を述べるために、通った状態の列と、どの mount が ChunkID を割り当てたかを記録する。
記録はどの動作の結果にも影響しない。
-/

namespace SwordFS.Vfs

open Infra Metadata Chunk

/-- 一つの volume の全体の状態 -/
structure Volume (χ : Type) where
  mounts : Nat → FileReadWriter χ
  backend : Backend

/-- 位置 `(ino, i)` に `id` が取り付けられている -/
def Volume.Attached {χ : Type} (v : Volume χ) (ino : InodeID) (i : Nat) (id : ChunkID) : Prop :=
  attachedAt v.backend.redis ino i = some id

instance {χ : Type} (v : Volume χ) (ino : InodeID) (i : Nat) (id : ChunkID) :
    Decidable (v.Attached ino i id) := inferInstanceAs (Decidable (_ = _))

/-- 記録の付いた状態。`trace` は通った状態を新しい順に並べたもので、今の状態から始まる -/
structure Observed (χ : Type) where
  volume : Volume χ
  trace : List (Volume χ)
  allocatedBy : ChunkID → Option Nat

namespace Observed

variable {χ : Type}

def start (v : Volume χ) : Observed χ := ⟨v, [v], fun _ => none⟩

def mount (t : Nat) (o : Observed χ) : Mount χ := (o.volume.mounts t, o.volume.backend)

def advance (t : Nat) (m : Mount χ) (o : Observed χ) : Observed χ :=
  let v : Volume χ := ⟨Function.update o.volume.mounts t m.1, m.2⟩
  { volume := v
    trace := v :: o.trace
    allocatedBy :=
      if o.volume.backend.nextChunkID < m.2.nextChunkID then
        Function.update o.allocatedBy m.2.nextChunkID (some t)
      else o.allocatedBy }

@[simp] theorem mount_advance (t : Nat) (m : Mount χ) (o : Observed χ) :
    (o.advance t m).mount t = m := by
  simp [mount, advance]

theorem mounts_advance_of_ne {t t' : Nat} (h : t' ≠ t) (m : Mount χ) (o : Observed χ) :
    (o.advance t m).volume.mounts t' = o.volume.mounts t' := Function.update_of_ne h _ _

end Observed

/-- mount の一つの仕事 -/
inductive Job where
  | call (c : FileCall)
  | reclaim (ino : InodeID)

/-- 一つの file を開いた mount と、その仕事の列 -/
structure Worker where
  ino : InodeID
  jobs : List Job

section

variable {χ : Type} (M : InodeID → Mechanism χ) (cx : MetaContext)

/-- 仕事の program。失敗しても次の仕事に進む -/
def Job.prog (ino : InodeID) : Job → FileIo χ Unit
  | .call c => do
    let _ ← attempt (c.prog (M ino) cx ino)
    return ()
  | .reclaim target => do
    let _ ← attempt (onBackend (transact cx fun cx => prepareReclaim cx target))
    return ()

def Worker.prog (w : Worker) : FileIo χ Unit := forEach (Job.prog M cx w.ino) w.jobs

/-- 全体の program。番号 `t` の mount が `workers` の `t` 番目の仕事を進める -/
def system (workers : List Worker) : Prog Answer (Observed χ) (List (Result Unit)) :=
  Prog.parAll (workers.zipIdx.map fun w =>
    Prog.zoom (Observed.mount w.2) (Observed.advance w.2) (w.1.prog M cx))

def runSystem (workers : List Worker) (cs : Nat → Choice Answer) (v : Volume χ) : Observed χ :=
  (Prog.exec (system M cx workers) cs (.start v)).2

end

end SwordFS.Vfs
