import SwordFS.Chunk.Slice.Flush
import SwordFS.Infra.Threads

/-!
# 並行する凍結と切り詰めの中の `PrepareWindowCandidates`

`SliceChunk.cpp` の `PrepareWindowCandidates` を、`FreezeActiveLocked` と `TruncateLocal` が
割り込む状態機械として写す。候補は `shared_ptr` なので、番地と中身に分けて持つ。

* 一つの動作は、`mutex_` の下の区間か、window 一つ分の `ReadCommittedRange` である
* `TruncateLocal` は、境界を捕えてから手元を切り詰める。二つの区間の間にも他の動作が入る
* 公開済みの内容は位置の関数で表す。境界の下で読む byte が捕捉より後では零になることは
  `boundary_clamps_replay` による
-/

namespace SwordFS.Chunk.Slice

open Infra Metadata

/-! ## session のうち、併合に関わる部分 -/

structure WindowState where
  /-- 番地の指す候補 -/
  heap : Nat → FrozenSlice
  /-- 次に割り当てる番地 -/
  next : Nat
  frozen : List Nat
  truncateEpoch : Nat := 0
  /-- `ReadCommittedRange` の返す byte。EOF 以降は零 -/
  committed : Nat → UInt8
  /-- 境界を捕えたが、まだ手元を切り詰めていない `TruncateLocal` -/
  truncating : List Nat := []

namespace WindowState

def alloc (s : WindowState) (cs : List FrozenSlice) : WindowState :=
  { s with
    heap := fun a => if s.next ≤ a then cs.getD (a - s.next) (s.heap a) else s.heap a
    next := s.next + cs.length }

def freshSlice (r : Nat × Bytes) : FrozenSlice where
  pos := r.1
  payload := r.2
  visibleLen := r.2.length
  eofLen := r.2.length

def freezeActive (s : WindowState) (active : DirtyRanges) : WindowState :=
  { s.alloc (active.map freshSlice) with
    frozen := s.frozen ++ List.range' s.next active.length }

def capture (s : WindowState) (size : Nat) : WindowState :=
  { s with
    committed := fun p => if p < size then s.committed p else 0
    truncating := size :: s.truncating }

/-- `TruncateLocal` の後半：候補を縮め、見えなくなったものを外す -/
def clip (s : WindowState) (size : Nat) : WindowState :=
  { s with
    truncateEpoch := s.truncateEpoch + 1
    heap := fun a => if a ∈ s.frozen then (s.heap a).clip size else s.heap a
    frozen := s.frozen.filter fun a => ((s.heap a).clip size).visibleLen ≠ 0
    truncating := s.truncating.erase size }

def readCommitted (s : WindowState) (offset len : Nat) : Bytes :=
  (List.range len).map fun i => s.committed (offset + i)

end WindowState

/-! ## `PrepareWindowCandidates` -/

/-- 番地の列から `sources` を除き、作った候補を指定の番号の後に挿し込む -/
def rebuild (sources : List Nat) (inserted : List (Nat × Nat)) (frozen : List Nat) : List Nat :=
  frozen.zipIdx.flatMap fun q =>
    (if q.1 ∈ sources then [] else [q.1]) ++ (inserted.filter (·.1 = q.2)).map (·.2)

/-- `PendingView` の列：番地と、控えた時点の候補 -/
abbrev PendingViews := List (Nat × FrozenSlice)

def WindowState.views (s : WindowState) : PendingViews := s.frozen.map fun a => (a, s.heap a)

def PendingViews.sources (pending : PendingViews) : List Nat :=
  (windowSources (pending.map (·.2))).filterMap fun i => pending[i]?.map (·.1)

inductive WindowPc where
  /-- 試みの先頭。残りの回数を持つ -/
  | attempt (left : Nat)
  /-- `todo` の window がまだ読まれていない。空なら、次は列を差し替える -/
  | hydrate (left : Nat) (pending : PendingViews) (epoch : Nat) (todo : List GroupBuild)
      (built : List (Nat × FrozenSlice))
  | done (r : Result (List Nat))

structure WindowSystem where
  state : WindowState
  /-- Flush が控えた `candidates` -/
  candidates : List Nat
  pc : WindowPc

namespace WindowSystem

def start (s : WindowState) : WindowSystem := ⟨s, s.frozen, .attempt kMaxRmwInstallAttempts⟩

def buildGroup (s : WindowState) (pending : PendingViews) (g : GroupBuild) : Nat × FrozenSlice :=
  let (g', payload) := overlayPending (pending.map (·.2)).zipIdx g
    (s.readCommitted g.pos (g.recordEnd - g.pos))
  (g'.insertAfter, groupCandidate g' payload)

def insertedAt (s : WindowState) (built : List (Nat × FrozenSlice)) : List (Nat × Nat) :=
  (built.map (·.1)).zip (List.range' s.next built.length)

/-- 列を差し替える。新しい `candidates` を返す -/
def install (s : WindowState) (pending : PendingViews) (built : List (Nat × FrozenSlice)) :
    WindowState × List Nat :=
  let inserted := insertedAt s built
  ({ s.alloc (built.map (·.2)) with frozen := rebuild pending.sources inserted s.frozen },
    rebuild pending.sources inserted (pending.map (·.1)))

/-- `PrepareWindowCandidates` の一動作。`fault` は `ReadCommittedRange` の失敗 -/
def exec (S : WindowSystem) (fault : Option Status) : Option WindowSystem :=
  match S.pc with
  | .attempt 0 =>
    let e : Status := .busy "Slice RMW preparation raced repeated local truncation"
    some { S with pc := .done (.error e) }
  | .attempt (left + 1) =>
    if S.state.views.sources = [] then some { S with pc := .done (.ok S.candidates) }
    else
      let groups := windowGroups (S.state.views.map (·.2))
      some { S with pc := .hydrate left S.state.views S.state.truncateEpoch groups [] }
  | .hydrate left pending epoch (g :: todo) built =>
    match fault with
    | some e => some { S with pc := .done (.error e) }
    | none => some { S with
        pc := .hydrate left pending epoch todo (built ++ [buildGroup S.state pending g]) }
  | .hydrate left pending epoch [] built =>
    if epoch ≠ S.state.truncateEpoch then some { S with pc := .attempt left }
    else
      let (state, ordered) := install S.state pending built
      some { S with state := state, pc := .done (.ok ordered) }
  | .done _ => none

end WindowSystem

inductive WindowEvent where
  | run (fault : Option Status)
  /-- 書き込みが `active_` を凍結する -/
  | freeze (active : DirtyRanges)
  | capture (size : Nat)
  | clip (size : Nat)

def WindowSystem.step (S : WindowSystem) : WindowEvent → Option (WindowEvent × WindowSystem)
  | .run fault => (S.exec fault).map fun S' => (.run fault, S')
  | .freeze active =>
    if active.all (·.2 ≠ []) then
      some (.freeze active, { S with state := S.state.freezeActive active })
    else none
  | .capture size => some (.capture size, { S with state := S.state.capture size })
  | .clip size =>
    if size ∈ S.state.truncating then
      some (.clip size, { S with state := S.state.clip size })
    else none

end SwordFS.Chunk.Slice
