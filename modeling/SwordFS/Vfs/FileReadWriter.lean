import SwordFS.Chunk.Mechanism

/-!
# FileReadWriter

`FileReadWriter.cpp` を、chunk の方式 `M : Mechanism χ` に依らない形で写す。
一つの inode の書き込み、読み、Flush、大きさの変更を、手元の状態と外部状態の組の上で行う。

chunk の cache（`F14FastMap`）の走査順は決まっていないので、Flush の順序は外界が選ぶ。
同じ Flush の中の chunk は `max_parallel_flushes` 個ずつ並列に進む。
-/

namespace SwordFS.Vfs

open Infra Metadata Chunk

/-- `FileReadWriter` の手元の状態 -/
structure FileReadWriter (χ : Type) where
  chunks : Hash Nat χ := ∅
  authoritativeSize : Option Nat := none
  liveSize : Option Nat := none
  inodeFlags : InodeFlag := {}
  inodeFlagEpoch : Nat := 0
  sizeStateEpoch : Nat := 0
  writeEpoch : Nat := 0
  sizeCommitFailedClosed : Bool := false

/-- 新しい `FileReadWriter` が、`InodeHandle` の Open で `ReconcileOpenState` を経た状態 -/
def FileReadWriter.opened {χ : Type} (inode : SwordFsInode) : FileReadWriter χ where
  authoritativeSize := some inode.attr.size
  inodeFlags := inode.attr.inodeFlags
  sizeStateEpoch := 1

abbrev Mount (χ : Type) := FileReadWriter χ × Backend

abbrev FileIo (χ : Type) := SessionIo (FileReadWriter χ)

variable {χ α : Type}

/-! ## chunk の cache -/

/-- 位置 `idx` の session（`c` を指す `shared_ptr`）の上で走らせる -/
def onChunk (idx : Nat) (c : χ) (p : SessionIo χ α) : FileIo χ α :=
  Prog.zoom (fun s => ((s.1.chunks.lookup idx).getD c, s.2))
    (fun t s => ({ s.1 with chunks := AList.insert idx t.1 s.1.chunks }, t.2)) p

section

variable (M : Mechanism χ)

def getChunk (idx : Nat) (createIfMissing : Bool) : FileIo χ (Option χ) := do
  match (← getSession).chunks.lookup idx with
  | some c => return some c
  | none =>
    match ← onBackend (M.openSession idx createIfMissing) with
    | none => return none
    | some session =>
      modifySession fun (rw : FileReadWriter χ) =>
        match rw.chunks.lookup idx with
        | some c => (some c, rw)
        | none => (some session, { rw with chunks := AList.insert idx session rw.chunks })

/-- `FileChunkManager::GetPendingWrites`。順序は外界が選ぶ -/
def getPendingWrites : FileIo χ (List (Nat × χ)) :=
  Prog.step fun c s =>
    let pending := (s.1.chunks.entries.map fun e => (e.1, e.2)).filter fun e =>
      M.hasPendingWrites e.2
    (.ok (pending.permutations.getD c.pick pending), s)

def clampCachedPublishedPrefix (idx visiblePrefix : Nat) : FileIo χ Unit := do
  match (← getSession).chunks.lookup idx with
  | none => return ()
  | some c => onChunk idx c (M.clampPublishedPrefix visiblePrefix)

/-- 大きさ `size` の外にある chunk を cache から落とす -/
def dropBeyond (size chunkSize : Nat) (chunks : Hash Nat χ) : Hash Nat χ :=
  (chunks.entries.map (·.1)).foldl
    (fun h idx => if size ≤ idx * chunkSize then AList.erase idx h else h) chunks

/-- `FileChunkManager::TruncateToSize`。境界の chunk は残る prefix に切る -/
def truncateToSize (size chunkSize : Nat) : FileIo χ Unit := do
  modifySession fun (rw : FileReadWriter χ) =>
    ((), { rw with chunks := dropBeyond size chunkSize rw.chunks })
  match (← getSession).chunks.lookup (size / chunkSize) with
  | none => return ()
  | some c => onChunk (size / chunkSize) c (M.truncateLocal (size % chunkSize))

end

/-! ## 大きさ -/

def checkSizeCommitSafety : FileIo χ Unit := do
  failIf (← getSession).sizeCommitFailedClosed
    (.ioError "file size mutation may have partially committed; reopen after metadata diagnosis")

def FileReadWriter.visibleSize (rw : FileReadWriter χ) (authoritative : Nat) : Nat :=
  max authoritative (rw.liveSize.getD 0)

def getVisibleSize (ino : InodeID) : FileIo χ Nat := do
  let rw ← getSession
  match rw.authoritativeSize with
  | some a => return rw.visibleSize a
  | none =>
    let inode ← onBackend (observe (lookupInode ino))
    modifySession fun (rw : FileReadWriter χ) =>
      match rw.authoritativeSize with
      | some a => (rw.visibleSize a, rw)
      | none => (rw.visibleSize inode.attr.size, { rw with
          authoritativeSize := some inode.attr.size, sizeStateEpoch := rw.sizeStateEpoch + 1 })

def setCommittedSize (size : Nat) : FileIo χ Unit :=
  modifySession fun (rw : FileReadWriter χ) => ((), { rw with
    authoritativeSize := some size, liveSize := none, sizeStateEpoch := rw.sizeStateEpoch + 1 })

section

variable (M : Mechanism χ) (cx : MetaContext) (ino : InodeID)

/-! ## 書き込み -/

/-- 書き込みを chunk ごとに分けて渡す。一回で一 byte 以上進むので `fuel` は長さで足りる -/
def writeLoop : (fuel : Nat) → (cursor : Nat) → Bytes → FileIo χ Unit
  | 0, _, _ => return ()
  | fuel + 1, cursor, bytes =>
    if bytes.isEmpty then return ()
    else do
      let position ← ofResult (calculateChunkPosition cursor cx.chunkSize)
      match ← getChunk M position.index true with
      | none =>
        throw (.internal "FileReadWriter::Write: chunk lookup succeeded without a chunk")
      | some c =>
        let n := min bytes.length (cx.chunkSize - position.offsetInChunk)
        onChunk position.index c (M.write position.offsetInChunk (bytes.take n))
        writeLoop fuel (cursor + n) (bytes.drop n)

/-- `open` の flag のうち、書き込みの判定に使うもの -/
structure OpenFlags where
  append : Bool := false

def write (bytes : Bytes) (off : Int) (flags : OpenFlags) : FileIo χ Unit := do
  checkSizeCommitSafety
  let rw ← getSession
  failIf rw.inodeFlags.immutable (.notPermitted "immutable inode rejects write")
  failIf (rw.inodeFlags.appendOnly ∧ !flags.append)
    (.notPermitted "append-only inode requires O_APPEND")
  let writeEnd ← ofResult (calculateFileRangeEnd off bytes.length)
  writeLoop M cx bytes.length off.toNat bytes
  if bytes = [] then return ()
  else modifySession fun (rw : FileReadWriter χ) => ((), { rw with
    liveSize := some (max (rw.liveSize.getD 0) writeEnd)
    sizeStateEpoch := rw.sizeStateEpoch + 1
    writeEpoch := rw.writeEpoch + 1 })

/-! ## 読み -/

/-- 読む範囲の一部分。session が無ければ穴 -/
structure ReadSegment (χ : Type) where
  session : Option χ
  offset : Nat
  len : Nat

/-- 読む範囲を chunk ごとに分け、session を引く -/
def readLookup : (fuel : Nat) → (cursor remaining : Nat) → FileIo χ (List (ReadSegment χ))
  | 0, _, _ => return []
  | fuel + 1, cursor, remaining =>
    if remaining = 0 then return []
    else do
      let position ← ofResult (calculateChunkPosition cursor cx.chunkSize)
      let c ← getChunk M position.index false
      let n := min remaining (cx.chunkSize - position.offsetInChunk)
      let rest ← readLookup fuel (cursor + n) (remaining - n)
      return ⟨c, position.offsetInChunk, n⟩ :: rest

def readSegment (seg : ReadSegment χ) : Io Backend Bytes :=
  match seg.session with
  | some c => M.read c seg.offset seg.len
  | none => pure (List.replicate seg.len 0)

/-- 各部分を順に読み、つなげる。最初の失敗を返す -/
def readSegments : List (ReadSegment χ) → Io Backend Bytes
  | [] => pure []
  | seg :: segs => do
    let bytes ← readSegment M seg
    let rest ← readSegments segs
    return bytes ++ rest

def read (size : Nat) (off : Int) : FileIo χ Bytes := do
  checkSizeCommitSafety
  failIf (off < 0) (.invalidArgument "FileReadWriter::Read: negative offset")
  if size = 0 then return []
  else
    let visible ← getVisibleSize ino
    failIf (kMaxSupportedFileSize < visible)
      (.malformed "FileReadWriter::Read: file size exceeds supported range")
    if visible ≤ off.toNat then return []
    else
      let n := min size (visible - off.toNat)
      let segments ← readLookup M cx n off.toNat n
      onBackend (readSegments M segments)

/-! ## Flush -/

def batches {β : Type} (n : Nat) : (fuel : Nat) → List β → List (List β)
  | 0, _ => []
  | fuel + 1, l => if l.isEmpty then [] else l.take n :: batches n fuel (l.drop n)

def firstError : List (Result Unit) → Option Status
  | [] => none
  | .error e :: _ => some e
  | .ok () :: rs => firstError rs

/-- 一組を並列に Flush し、組の順で最初の失敗を返す -/
def flushBatch (batch : List (Nat × χ)) : FileIo χ (Option Status) := do
  let results ← (Prog.parAll (batch.map fun e => onChunk e.1 e.2 M.flush)).bind
    fun rs => (pure rs : FileIo χ (List (Result Unit)))
  return firstError results

/-- 組を順に Flush する。失敗しても残りの組を試す -/
def flushBatches : List (List (Nat × χ)) → FileIo χ (Option Status)
  | [] => return none
  | batch :: rest => do
    let first ← flushBatch M batch
    let later ← flushBatches rest
    return first.or later

def flush (maxParallelFlushes : Nat) : FileIo χ Unit := do
  checkSizeCommitSafety
  let barrier ← getSession
  let flushable ← getPendingWrites M
  match ← flushBatches M (batches (max 1 maxParallelFlushes) flushable.length flushable) with
  | some e => throw e
  | none =>
    modifySession fun (rw : FileReadWriter χ) => ((), { rw with
      authoritativeSize := match barrier.liveSize with
        | none => rw.authoritativeSize
        | some l => some (max (rw.authoritativeSize.getD 0) l)
      liveSize := if rw.writeEpoch = barrier.writeEpoch then none else rw.liveSize
      sizeStateEpoch := if barrier.liveSize.isSome then rw.sizeStateEpoch + 1
        else rw.sizeStateEpoch })

/-! ## 大きさの変更 -/

/-- 永続化された EOF と同じ大きさへの変更。内容の変更なので mtime は進める -/
def commitUnchangedSize (before : FileMappingSnapshot) (requested : SwordFsAttr)
    (f : SetAttrField) : FileIo χ SwordFsInode := do
  let fields := { f with size := false, mtimeNow := f.mtimeNow || !f.mtime }
  let out ← onBackend (transact cx fun cx => setAttr cx ino requested fields)
  let visiblePrefix := requested.size % cx.chunkSize
  let index := requested.size / cx.chunkSize
  match before.mappings.find? (·.index = index) with
  | none => return out
  | some m =>
    if visiblePrefix = 0 then return out
    else
      onBackend (M.sanitizeBoundary ⟨index, m.chunkId, visiblePrefix⟩)
      clampCachedPublishedPrefix M index visiblePrefix
      return out

/-- 途中の EOF と mapping の組み合わせを見たので、以後この file を使わせない -/
def failClosed : FileIo χ Unit :=
  modifySession fun (rw : FileReadWriter χ) => ((), { rw with sizeCommitFailedClosed := true })

/-- 保持された境界を整え、cache の prefix を合わせる -/
def sanitizeRetained (boundary : Option RetainedChunkBoundary) : FileIo χ Unit :=
  match boundary with
  | none => return ()
  | some b => do
    onBackend (M.sanitizeBoundary b)
    clampCachedPublishedPrefix M b.index b.visiblePrefix

/-- 読み返した snapshot への判定 -/
inductive SizeCommitVerdict where
  /-- 元のまま -/
  | unchanged
  /-- 変更がすべて済んでいる -/
  | committed
  /-- どちらでもない -/
  | mixed
deriving DecidableEq, Repr

/-- 読み返した EOF と mapping を、元の配置と変更後の配置に照らす -/
def sizeCommitVerdict (before : FileMappingSnapshot) (plan : ChunkSizePlan) (shrinking : Bool)
    (observed : FileMappingSnapshot) : SizeCommitVerdict :=
  let layoutEof := if shrinking then plan.targetEof else before.inode.attr.size
  match planChunkSizeLayout layoutEof cx.chunkSize with
  | .error _ => .mixed
  | .ok layout =>
    let expected := before.mappings.filter fun m => !layout.shouldDetach m.index
    if observed.inode.attr.size = plan.targetEof ∧ observed.mappings = expected then .committed
    else if observed.inode.attr.size = before.inode.attr.size ∧
        observed.mappings = before.mappings then .unchanged
    else .mixed

/-- 結果の分からない大きさの変更を、読み返して判定する。常に `e` か、より重い失敗を返す -/
def reconcileSizeCommit (before : FileMappingSnapshot) (plan : ChunkSizePlan) (shrinking : Bool)
    (e : Status) : FileIo χ Unit := do
  match ← attempt (onBackend (observe (readFileMappingSnapshot ino))) with
  | .error _ =>
    failClosed
    throw e
  | .ok observed =>
    match sizeCommitVerdict cx before plan shrinking observed with
    | .mixed =>
      failClosed
      throw e
    | .unchanged => throw e
    | .committed =>
      truncateToSize M observed.inode.attr.size cx.chunkSize
      setCommittedSize observed.inode.attr.size
      match plan.boundary with
      | none => throw e
      | some b =>
        if shrinking ∧ observed.mappings.any (· == ⟨b.index, b.chunkId⟩) then
          match ← attempt (onBackend (M.sanitizeBoundary b)) with
          | .error e' =>
            failClosed
            throw e'
          | .ok () =>
            clampCachedPublishedPrefix M b.index b.visiblePrefix
            throw e
        else throw e

def sizeCommitTxn (plan : ChunkSizePlan) (shrinking : Bool) (requested : SwordFsAttr)
    (f : SetAttrField) : KvTxn ChunkSizeCommitResult :=
  if shrinking then commitShrink cx ino plan requested f else commitGrow cx ino plan requested f

/-- 拡大では、古い EOF の外に残った byte を先に消す -/
def sanitizeBeforeGrow (plan : ChunkSizePlan) (shrinking : Bool) : FileIo χ Unit :=
  if shrinking then return () else sanitizeRetained M plan.boundary

/-- 失敗した commit。効果が有りうる失敗だけを読み返す -/
def commitFailed (before : FileMappingSnapshot) (plan : ChunkSizePlan) (shrinking : Bool)
    (e : Status) : FileIo χ SwordFsInode :=
  if e.isOutcomeUnknown ∨ e.isEio then do
    reconcileSizeCommit M cx ino before plan shrinking e
    throw e
  else throw e

/-- 成功した commit。縮小では、新しい EOF を手元に置いてから境界を整える -/
def applyCommitted (plan : ChunkSizePlan) (shrinking : Bool) (committed : ChunkSizeCommitResult) :
    FileIo χ SwordFsInode :=
  if shrinking ∧ plan.boundary.isSome then do
    truncateToSize M committed.inode.attr.size cx.chunkSize
    setCommittedSize committed.inode.attr.size
    sanitizeRetained M plan.boundary
    return committed.inode
  else return committed.inode

def commitChangedSize (before : FileMappingSnapshot) (requested : SwordFsAttr)
    (f : SetAttrField) : FileIo χ SwordFsInode := do
  let plan ← ofResult (planChunkSizeChange before.inode.attr.size requested.size cx.chunkSize
    before.mappings)
  let shrinking : Bool := requested.size < before.inode.attr.size
  sanitizeBeforeGrow M plan shrinking
  match ← attempt (onBackend (transact cx fun cx =>
      sizeCommitTxn cx ino plan shrinking requested f)) with
  | .error e => commitFailed M cx ino before plan shrinking e
  | .ok committed => applyCommitted M cx plan shrinking committed

def commitSizeChangeLocked (requested : SwordFsAttr) (f : SetAttrField) :
    FileIo χ SwordFsInode := do
  checkSizeCommitSafety
  let before ← onBackend (observe (readFileMappingSnapshot ino))
  let _ ← ofResult (prepareSetAttrMutation cx.now before.inode requested f)
  let out ←
    if requested.size = before.inode.attr.size then
      commitUnchangedSize M cx ino before requested f
    else commitChangedSize M cx ino before requested f
  truncateToSize M requested.size cx.chunkSize
  setCommittedSize requested.size
  return out

def truncate (size : Nat) : FileIo χ Unit := do
  failIf (kMaxSupportedFileSize < size)
    (.invalidArgument "FileReadWriter::Truncate: size exceeds supported range")
  let _ ← commitSizeChangeLocked M cx ino { size := size } { size := true }
  return ()

def applyLiveSize (inode : SwordFsInode) : FileIo χ SwordFsInode := do
  let rw ← getSession
  if rw.sizeCommitFailedClosed then return inode
  else match rw.liveSize with
    | none => return inode
    | some l => return { inode with attr := { inode.attr with size := max inode.attr.size l } }

def setAttr (requested : SwordFsAttr) (f : SetAttrField) : FileIo χ SwordFsInode := do
  checkSizeCommitSafety
  failIf (f.size ∧ kMaxSupportedFileSize < requested.size)
    (.invalidArgument "FileReadWriter::SetAttr: size exceeds supported range")
  if f.size then commitSizeChangeLocked M cx ino requested f
  else
    let out ← onBackend (transact cx fun cx => Metadata.setAttr cx ino requested f)
    applyLiveSize out

end

end SwordFS.Vfs
