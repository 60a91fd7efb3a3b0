import SwordFS.Infra.Threads
import SwordFS.Vfs.FileReadWriter

/-!
# InodeHandle

`InodeHandle.cpp` と、それが共有する `FileReadWriter` の並行な呼び出しを、thread ごとの
program counter を持つ状態機械として写す。一つの inode、一つの mount、一つの `InodeHandle` を扱う。

* 一つの動作は、一つの mutex（`state_mutex_`、`size_mutex_`、`inode_policy_mutex_`）の下の区間か、
  一回の metadata の呼び出しである
* `operation_mutex_` と `flush_mutex_` は動作をまたいで持たれる。誰が持つかは program counter で
  決まるので、lock の状態は別に持たない
* chunk の session は、受け付けた書き込みの末尾だけで見る。Flush は `active` を凍らせ、その末尾までを
  metadata の EOF へ公開する
-/

namespace SwordFS.Vfs

open Infra Metadata Chunk

/-! ## chunk の末尾 -/

/-- chunk の session を、まだ公開していない書き込みの末尾（file 内の位置）だけで見たもの -/
structure ChunkTail where
  /-- Flush がまだ手を付けていない書き込みの末尾 -/
  active : Option Nat := none
  /-- 凍らせたが、公開が済んでいない書き込みの末尾 -/
  frozen : Option Nat := none
deriving DecidableEq, Repr

namespace ChunkTail

def accept (stop : Nat) (c : ChunkTail) : ChunkTail :=
  { c with active := some (max (c.active.getD 0) stop) }

def freeze (c : ChunkTail) : ChunkTail :=
  match c.active with
  | none => c
  | some a => ⟨none, some (max (c.frozen.getD 0) a)⟩

def hasPendingWrites (c : ChunkTail) : Bool := c.active.isSome || c.frozen.isSome

/-- 公開していない書き込みの末尾。無ければ 0 -/
def tail (c : ChunkTail) : Nat := max (c.active.getD 0) (c.frozen.getD 0)

end ChunkTail

/-! ## 共有状態 -/

/-- 一つの inode について、mount の `InodeHandle` と metadata が持つもの -/
structure SharedInode extends FileReadWriter ChunkTail where
  openCount : Nat := 0
  reclaimStarted : Bool := false
  /-- metadata の EOF -/
  metaSize : Nat := 0
  /-- metadata の inode flag -/
  metaFlags : InodeFlag := {}

namespace SharedInode

/-- 位置 `idx` の session。まだ開いていなければ空 -/
def chunk (s : SharedInode) (idx : Nat) : ChunkTail := (s.chunks.lookup idx).getD {}

def setChunk (s : SharedInode) (idx : Nat) (c : ChunkTail) : SharedInode :=
  { s with chunks := AList.insert idx c s.chunks }

def pendingWrites (s : SharedInode) : List Nat :=
  s.chunks.keys.filter fun idx => (s.chunk idx).hasPendingWrites

/-- まだ値が無ければ `authoritative_size_` を決める -/
def initializeSize (s : SharedInode) (size : Nat) : SharedInode :=
  { s with
    authoritativeSize := some (s.authoritativeSize.getD size)
    sizeStateEpoch :=
      if s.authoritativeSize.isSome then s.sizeStateEpoch else s.sizeStateEpoch + 1 }

/-- 受け付けた書き込みを大きさに反映する -/
def acceptWrite (s : SharedInode) (stop : Nat) : SharedInode :=
  { s with
    liveSize := some (max (s.liveSize.getD 0) stop)
    sizeStateEpoch := s.sizeStateEpoch + 1
    writeEpoch := s.writeEpoch + 1 }

/-- chunk `idx` の凍らせた書き込みを `stop` まで EOF に公開する -/
def publishUpTo (s : SharedInode) (idx stop : Nat) : SharedInode :=
  { s with metaSize := max s.metaSize (min stop ((s.chunk idx).frozen.getD 0)) }

/-- chunk `idx` の凍らせた書き込みをすべて公開し終える -/
def publishChunk (s : SharedInode) (idx : Nat) : SharedInode :=
  { s.setChunk idx { s.chunk idx with frozen := none } with
    metaSize := max s.metaSize ((s.chunk idx).frozen.getD 0) }

/-- `GetAttr` が metadata の大きさ `size` を手元の状態と合わせる -/
def mergeAttr (s : SharedInode) (epoch size : Nat) : SharedInode :=
  { s with
    authoritativeSize := if s.sizeStateEpoch = epoch then some size else s.authoritativeSize }

def mergedSize (s : SharedInode) (epoch size : Nat) : Nat :=
  let size' := if s.sizeStateEpoch = epoch then size else max size (s.authoritativeSize.getD 0)
  max size' (s.liveSize.getD 0)

def truncated (s : SharedInode) : SharedInode :=
  { s with
    chunks := ∅, metaSize := 0, authoritativeSize := some 0, liveSize := none
    sizeStateEpoch := s.sizeStateEpoch + 1 }

end SharedInode

/-- Flush が始めに写した `write_epoch_` と `live_size_` -/
structure Barrier where
  epoch : Nat
  live : Option Nat
deriving DecidableEq, Repr

def SharedInode.finishFlush (s : SharedInode) (b : Barrier) : SharedInode :=
  { s with
    authoritativeSize := match b.live with
      | some l => some (max (s.authoritativeSize.getD 0) l)
      | none => s.authoritativeSize
    liveSize := if s.writeEpoch = b.epoch then none else s.liveSize
    sizeStateEpoch := if b.live.isSome then s.sizeStateEpoch + 1 else s.sizeStateEpoch }

/-! ## 判定 -/

/-- `open` の flag。`writable` は `O_ACCMODE` が `O_RDONLY` でないこと -/
structure AccessFlags where
  writable : Bool := false
  append : Bool := false
  trunc : Bool := false
deriving DecidableEq, Repr

def checkOpenPolicy (flags : InodeFlag) (o : AccessFlags) : Option Status :=
  if flags.immutable ∧ o.writable then
    some (.notPermitted "immutable inode rejects writable open")
  else if flags.appendOnly ∧ o.writable ∧ (!o.append ∨ o.trunc) then
    some (.notPermitted "append-only inode requires O_APPEND and rejects O_TRUNC")
  else none

def checkWritePolicy (flags : InodeFlag) (append : Bool) : Option Status :=
  if flags.immutable then some (.notPermitted "immutable inode rejects write")
  else if flags.appendOnly ∧ !append then
    some (.notPermitted "append-only inode requires O_APPEND")
  else none

def SharedInode.checkSizeCommitSafety (s : SharedInode) : Option Status :=
  if s.sizeCommitFailedClosed then
    some (.ioError
      "file size mutation may have partially committed; reopen after metadata diagnosis")
  else none

/-! ## program counter -/

/-- `FlushPendingWritesLocked` を呼んだもの -/
inductive FlushFor where
  /-- descriptor `fd` の Flush。`closing` なら最後の Close の中のもの -/
  | handle (fd : Nat) (closing : Bool)
  | setInodeFlags (f : InodeFlag)
deriving DecidableEq, Repr

/-- 呼び出しの結果。大きさを使う呼び出しは、その大きさを返す -/
inductive Outcome where
  | ok
  | size (n : Nat)
  | failed (e : Status)
deriving DecidableEq, Repr

/-- 一つの呼び出しが次に行う動作。`fd` は descriptor を開いた thread の番号 -/
inductive Pc where
  /-- `AcquireRefUnlessReclaiming` -/
  | openAcquire (o : AccessFlags)
  /-- `SnapshotInodeFlagEpoch` -/
  | openSnapshot (o : AccessFlags)
  /-- metadata の `Open` -/
  | openMeta (o : AccessFlags) (epoch : Nat)
  /-- `ReconcileOpenState` -/
  | openReconcile (o : AccessFlags) (epoch size : Nat) (flags : InodeFlag)
  /-- `O_TRUNC` の `Truncate(0)` -/
  | openTruncate (o : AccessFlags)
  /-- 失敗した Open の `ReleaseRef` -/
  | openRelease (e : Status)
  | createdAcquire
  /-- `InitializeCreatedState(0)` -/
  | createdInit
  | writeLock (fd off len : Nat) (append : Bool)
  | writeCheck (fd off len : Nat) (append : Bool)
  /-- chunk ごとの書き込み -/
  | writeLoop (fd cursor stop : Nat) (append nonempty : Bool)
  /-- 大きさへの反映 -/
  | writeFinish (fd stop : Nat) (append nonempty : Bool)
  | readLock
  | readSize
  | readMeta
  | readMerge (size : Nat)
  | attrLock
  | attrEpoch
  | attrMeta (epoch : Nat)
  | attrMerge (epoch size : Nat)
  | flushMutex (fd : Nat) (closing : Bool)
  | flushLock (fd : Nat) (closing : Bool)
  | flushBarrier (k : FlushFor)
  | flushPending (k : FlushFor) (b : Barrier)
  /-- `todo` はこれから、`inFlight` は途中の chunk -/
  | flushChunks (k : FlushFor) (b : Barrier) (todo inFlight : List Nat) (error : Option Status)
  /-- `PrepareClose` -/
  | closePrepare (fd : Nat)
  /-- Close の `ReleaseRef` -/
  | closeRelease (r : Outcome)
  | flagsLock (f : InodeFlag)
  | flagsCheck (f : InodeFlag)
  /-- metadata の `SetInodeFlags` -/
  | flagsCommit (f : InodeFlag)
  /-- `inode_flags_` と `inode_flag_epoch_` の更新 -/
  | flagsStore (f : InodeFlag)
  /-- `TryStartReclaim` -/
  | reclaimTry
  /-- metadata の `PrepareReclaim` -/
  | reclaimMeta
  /-- `FinishReclaim` -/
  | reclaimFinish (r : Outcome)
  | done (r : Outcome)
deriving DecidableEq, Repr

namespace Pc

/-- `FlushPendingWritesLocked` の中にいるなら、呼んだもの -/
def flushing : Pc → Option FlushFor
  | .flushBarrier k | .flushPending k _ | .flushChunks k _ _ _ _ => some k
  | _ => none

def holdsExclusive (pc : Pc) : Bool :=
  match pc with
  | .flagsCheck _ | .flagsCommit _ | .flagsStore _ => true
  | _ => match pc.flushing with
    | some (.setInodeFlags _) => true
    | _ => false

def holdsShared (pc : Pc) : Bool :=
  match pc with
  | .writeCheck .. | .writeLoop .. | .writeFinish .. | .readSize | .readMeta | .readMerge _
  | .attrEpoch | .attrMeta _ | .attrMerge .. => true
  | _ => match pc.flushing with
    | some (.handle ..) => true
    | _ => false

def holdsFlush (pc : Pc) : Bool :=
  match pc with
  | .flushLock .. => true
  | _ => match pc.flushing with
    | some (.handle ..) => true
    | _ => false

end Pc

/-- 他の thread が持つ lock -/
structure Locks where
  shared : Bool := false
  exclusive : Bool := false
  flush : Bool := false

/-- Flush の中の一動作。同じ batch の chunk は並列に進むので、どれを進めるかは外界が選ぶ -/
inductive FlushMove where
  /-- `todo` の `k` 番目を凍らせる -/
  | freeze (k : Nat)
  /-- `inFlight` の `k` 番目が、凍らせたものの一部を `stop` まで公開する -/
  | advance (k stop : Nat)
  /-- `inFlight` の `k` 番目の Flush が終わる -/
  | complete (k : Nat)
  /-- すべての chunk が終わった -/
  | finish
deriving DecidableEq, Repr

/-- 一つの動作で外界が選ぶもの。`fault` があれば、その動作の外部の呼び出しは失敗する -/
structure Oracle where
  fault : Option Status := none
  /-- 失敗を返した metadata の `SetInodeFlags` が、flag を書いている（結果不明） -/
  applied : Bool := false
  move : FlushMove := .finish

/-- Flush の結果を持って、呼んだものへ戻る -/
def FlushFor.resume : FlushFor → Option Status → Pc
  | .handle _ false, none => .done .ok
  | .handle _ false, some e => .done (.failed e)
  | .handle _ true, none => .closeRelease .ok
  | .handle _ true, some e => .closeRelease (.failed e)
  | .setInodeFlags f, none => .flagsCommit f
  | .setInodeFlags _, some e => .done (.failed e)

def flushStep (o : Oracle) (s : SharedInode) (k : FlushFor) (b : Barrier)
    (todo inFlight : List Nat) (error : Option Status) : Option (SharedInode × Pc) :=
  match o.move with
  | .freeze n => match todo[n]? with
    | none => none
    | some idx => some (s.setChunk idx (s.chunk idx).freeze,
        .flushChunks k b (todo.eraseIdx n) (idx :: inFlight) error)
  | .advance n stop => match inFlight[n]? with
    | none => none
    | some idx => some (s.publishUpTo idx stop, .flushChunks k b todo inFlight error)
  | .complete n => match inFlight[n]? with
    | none => none
    | some idx => match o.fault with
      | none => some (s.publishChunk idx, .flushChunks k b todo (inFlight.eraseIdx n) error)
      | some e => some (s, .flushChunks k b todo (inFlight.eraseIdx n) (error.or (some e)))
  | .finish =>
    if todo = [] ∧ inFlight = [] then
      match error with
      | none => some (s.finishFlush b, k.resume none)
      | some e => some (s, k.resume (some e))
    else none

/-- metadata の Open が見た flag を、その間に同じ mount の変更が無ければ取り込む -/
def SharedInode.adoptFlags (s : SharedInode) (epoch : Nat) (flags : InodeFlag) : SharedInode :=
  { s with inodeFlags := if s.inodeFlagEpoch = epoch then flags else s.inodeFlags }

def reconcileOpenState (s : SharedInode) (o : AccessFlags) (epoch size : Nat)
    (flags : InodeFlag) : SharedInode × Pc :=
  let s' := s.adoptFlags epoch flags
  match checkOpenPolicy s'.inodeFlags o with
  | some e => (s', .openRelease e)
  | none => (s'.initializeSize size, if o.trunc then .openTruncate o else .done .ok)

/-- 一つの thread の一動作。lock を待つ間は進めない -/
def Pc.exec (chunkSize : Nat) (l : Locks) (o : Oracle) (s : SharedInode) :
    Pc → Option (SharedInode × Pc)
  | .openAcquire a =>
    if s.reclaimStarted then some (s, .done (.failed (.notFound "inode is being reclaimed")))
    else some ({ s with openCount := s.openCount + 1 }, .openSnapshot a)
  | .openSnapshot a => some (s, .openMeta a s.inodeFlagEpoch)
  | .openMeta a epoch => match o.fault with
    | some e => some (s, .openRelease e)
    | none => some (s, .openReconcile a epoch s.metaSize s.metaFlags)
  | .openReconcile a epoch size flags => some (reconcileOpenState s a epoch size flags)
  | .openTruncate _ =>
    if l.shared ∨ l.exclusive then none
    else match o.fault with
      | some e => some (s, .openRelease e)
      | none => some (s.truncated, .done .ok)
  | .openRelease e => some ({ s with openCount := s.openCount - 1 }, .done (.failed e))
  | .createdAcquire =>
    if s.reclaimStarted then some (s, .done (.failed (.notFound "inode is being reclaimed")))
    else some ({ s with openCount := s.openCount + 1 }, .createdInit)
  | .createdInit => some (s.initializeSize 0, .done .ok)
  | .writeLock fd off len append =>
    if l.exclusive then none
    else match s.checkSizeCommitSafety with
      | some e => some (s, .done (.failed e))
      | none => some (s, .writeCheck fd off len append)
  | .writeCheck fd off len append => match checkWritePolicy s.inodeFlags append with
    | some e => some (s, .done (.failed e))
    | none => match calculateFileRangeEnd off len with
      | .error e => some (s, .done (.failed e))
      | .ok stop => some (s, .writeLoop fd off stop append (len ≠ 0))
  | .writeLoop fd cursor stop append nonempty =>
    if cursor < stop then
      match calculateChunkPosition cursor chunkSize, o.fault with
      | .error e, _ | .ok _, some e => some (s, .done (.failed e))
      | .ok position, none =>
        let next := cursor + min (stop - cursor) (chunkSize - position.offsetInChunk)
        some (s.setChunk position.index ((s.chunk position.index).accept next),
          .writeLoop fd next stop append nonempty)
    else some (s, .writeFinish fd stop append nonempty)
  | .writeFinish _ stop _ nonempty =>
    some (if nonempty then s.acceptWrite stop else s, .done .ok)
  | .readLock =>
    if l.exclusive then none
    else match s.checkSizeCommitSafety with
      | some e => some (s, .done (.failed e))
      | none => some (s, .readSize)
  | .readSize => match s.authoritativeSize with
    | some a => some (s, .done (.size (s.visibleSize a)))
    | none => some (s, .readMeta)
  | .readMeta => match o.fault with
    | some e => some (s, .done (.failed e))
    | none => some (s, .readMerge s.metaSize)
  | .readMerge size =>
    let s' := s.initializeSize size
    some (s', .done (.size (s'.visibleSize (s'.authoritativeSize.getD 0))))
  | .attrLock =>
    if l.exclusive then none
    else match s.checkSizeCommitSafety with
      | some e => some (s, .done (.failed e))
      | none => some (s, .attrEpoch)
  | .attrEpoch => some (s, .attrMeta s.sizeStateEpoch)
  | .attrMeta epoch => match o.fault with
    | some e => some (s, .done (.failed e))
    | none => some (s, .attrMerge epoch s.metaSize)
  | .attrMerge epoch size =>
    some (s.mergeAttr epoch size, .done (.size (s.mergedSize epoch size)))
  | .flushMutex fd closing => if l.flush then none else some (s, .flushLock fd closing)
  | .flushLock fd closing =>
    if l.exclusive then none else some (s, .flushBarrier (.handle fd closing))
  | .flushBarrier k => match s.checkSizeCommitSafety with
    | some e => some (s, k.resume (some e))
    | none => some (s, .flushPending k ⟨s.writeEpoch, s.liveSize⟩)
  | .flushPending k b => some (s, .flushChunks k b s.pendingWrites [] none)
  | .flushChunks k b todo inFlight error => flushStep o s k b todo inFlight error
  | .closePrepare fd =>
    if s.openCount = 1 then some (s, .flushMutex fd true)
    else some ({ s with openCount := s.openCount - 1 }, .done .ok)
  | .closeRelease r => some ({ s with openCount := s.openCount - 1 }, .done r)
  | .flagsLock f =>
    if l.shared ∨ l.exclusive then none
    else match s.checkSizeCommitSafety with
      | some e => some (s, .done (.failed e))
      | none => some (s, .flagsCheck f)
  | .flagsCheck f =>
    if f ≠ s.inodeFlags ∧ f ≠ {} then some (s, .flushBarrier (.setInodeFlags f))
    else some (s, .flagsCommit f)
  | .flagsCommit f => match o.fault with
    | some e => some (if o.applied then { s with metaFlags := f } else s, .done (.failed e))
    | none => some ({ s with metaFlags := f }, .flagsStore f)
  | .flagsStore f =>
    some ({ s with inodeFlags := f, inodeFlagEpoch := s.inodeFlagEpoch + 1 }, .done .ok)
  | .reclaimTry =>
    if s.openCount ≠ 0 ∨ s.reclaimStarted then some (s, .done .ok)
    else some ({ s with reclaimStarted := true }, .reclaimMeta)
  | .reclaimMeta => match o.fault with
    | some e => some (s, .reclaimFinish (.failed e))
    | none => some (s, .reclaimFinish .ok)
  | .reclaimFinish r => some ({ s with reclaimStarted := false }, .done r)
  | .done _ => none

/-! ## 呼び出しと実行 -/

/-- VFS からの呼び出し -/
inductive Call where
  | open (o : AccessFlags)
  | openCreated
  | write (fd off len : Nat) (append : Bool)
  | read
  | getAttr
  | flush (fd : Nat)
  | close (fd : Nat)
  | setInodeFlags (f : InodeFlag)
  | reclaim
deriving DecidableEq, Repr

def Call.entry : Call → Pc
  | .open o => .openAcquire o
  | .openCreated => .createdAcquire
  | .write fd off len append => .writeLock fd off len append
  | .read => .readLock
  | .getAttr => .attrLock
  | .flush fd => .flushMutex fd false
  | .close fd => .closePrepare fd
  | .setInodeFlags f => .flagsLock f
  | .reclaim => .reclaimTry

/-- 開いている descriptor の Flush なら、その descriptor -/
def FlushFor.usesFd : FlushFor → Option Nat
  | .handle fd false => some fd
  | _ => none

/-- 途中の書き込みか Flush が使っている descriptor -/
def Pc.usesFd : Pc → Option Nat
  | .writeLock fd .. | .writeCheck fd .. | .writeLoop fd .. | .writeFinish fd .. => some fd
  | .flushMutex fd closing | .flushLock fd closing => (FlushFor.handle fd closing).usesFd
  | .flushBarrier k | .flushPending k _ | .flushChunks k .. => k.usesFd
  | _ => none

def Pc.opens : Pc → Bool
  | .openReconcile .. | .openTruncate _ | .createdInit => true
  | _ => false

/-- inode、進行中の呼び出し、開いている descriptor（`FileHandle`） -/
structure System where
  inode : SharedInode := {}
  threads : List Pc := []
  fds : List Nat := []

/-- 外界からの一手。呼び出しを始めるか、進行中の呼び出しを一動作進める -/
inductive HandleEvent where
  | call (c : Call)
  | run (i : Nat) (o : Oracle)

/-- 起きたこと -/
inductive HandleLabel where
  | call (c : Call)
  | ran (i : Nat) (pc pc' : Pc)
deriving DecidableEq, Repr

namespace System

def locks (S : System) (i : Nat) : Locks where
  shared := (S.threads.eraseIdx i).any Pc.holdsShared
  exclusive := (S.threads.eraseIdx i).any Pc.holdsExclusive
  flush := (S.threads.eraseIdx i).any Pc.holdsFlush

/--
呼び出しを始められるか。書き込みと Flush は開いている descriptor で行う。kernel は、その descriptor の
操作がすべて終わってから RELEASE を送る。
-/
def enabled (S : System) : Call → Bool
  | .write fd .. | .flush fd => S.fds.contains fd
  | .close fd => S.fds.contains fd && S.threads.all fun pc => pc.usesFd ≠ some fd
  | _ => true

/-- 呼び出しを始める。閉じる descriptor はもう使えない -/
def start (S : System) (c : Call) : System :=
  { S with
    threads := S.threads ++ [c.entry]
    fds := match c with
      | .close fd => S.fds.erase fd
      | _ => S.fds }

/-- thread `i` が `pc` から `pc'` へ進んだところ -/
def advance (S : System) (i : Nat) (s : SharedInode) (pc pc' : Pc) : System where
  inode := s
  threads := S.threads.set i pc'
  fds := if pc.opens ∧ pc' = .done .ok then i :: S.fds else S.fds

def step (chunkSize : Nat) (S : System) : HandleEvent → Option (HandleLabel × System)
  | .call c => if S.enabled c then some (.call c, S.start c) else none
  | .run i o => match S.threads[i]? with
    | none => none
    | some pc => match pc.exec chunkSize (S.locks i) o S.inode with
      | none => none
      | some (s, pc') => some (.ran i pc pc', S.advance i s pc pc')

end System

/-- 実行の途中で見たことを `watch` で溜めながら進める -/
def System.runWith {γ : Type} (watch : γ → System → HandleLabel → γ) (chunkSize : Nat) :
    System × γ → List HandleEvent → System × γ :=
  Infra.runWith (System.step chunkSize) watch

end SwordFS.Vfs
