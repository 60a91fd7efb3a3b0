import SwordFS.Chunk.Slice.SliceChunk

/-!
# Slice 方式の Flush と切り詰め

`SliceChunk.cpp` の `Flush`、`PublishFrozen`、`PrepareWindowCandidates`、`TruncateLocal` と、
`ChunkFactory.cpp` の Slice の入口を写す。
-/

namespace SwordFS.Chunk.Slice

open Infra Metadata

/-! ## window の併合 -/

/-- `GroupBuild`：一つの 1 MiB window に入る候補をまとめたもの -/
structure GroupBuild where
  base : Nat
  pos : Nat
  recordEnd : Nat
  dirtyEnd : Nat
  insertAfter : Nat
  intervalCount : Nat
deriving DecidableEq, Repr

def FrozenSlice.windowBase (c : FrozenSlice) : Nat := c.pos / kRmwWindowBytes * kRmwWindowBytes

/-- 併合してよい候補：準備を始めておらず、一つの window に収まる -/
def FrozenSlice.groupable (c : FrozenSlice) : Bool :=
  c.visibleLen ≠ 0 ∧ !c.windowGroup ∧ c.preparedId.isNone ∧ c.createdChunkId.isNone ∧
    c.recordedChunkId.isNone ∧ c.uncertainRecordChunkId.isNone ∧
    c.visibleLen < kRmwWindowBytes ∧ c.visibleLen ≤ c.windowBase + kRmwWindowBytes - c.pos

/-- `i` 番目の候補を、先頭の順に並んだ window の列に加える -/
def addInterval (i : Nat) (c : FrozenSlice) : List GroupBuild → List GroupBuild
  | [] => [⟨c.windowBase, c.pos, c.pos + c.visibleLen, c.pos + c.visibleLen, i, 1⟩]
  | g :: gs =>
    if c.windowBase < g.base then
      ⟨c.windowBase, c.pos, c.pos + c.visibleLen, c.pos + c.visibleLen, i, 1⟩ :: g :: gs
    else if c.windowBase = g.base then
      { g with
        pos := min g.pos c.pos
        recordEnd := max g.recordEnd (c.pos + c.visibleLen)
        dirtyEnd := max g.dirtyEnd (c.pos + c.visibleLen)
        insertAfter := max g.insertAfter i
        intervalCount := g.intervalCount + 1 } :: gs
    else g :: addInterval i c gs

def windowGroups (pending : List FrozenSlice) : List GroupBuild :=
  (pending.zipIdx.foldl (fun gs p => if p.1.groupable then addInterval p.2 p.1 gs else gs) []).filter
    fun g => 2 ≤ g.intervalCount

def windowSources (pending : List FrozenSlice) : List Nat :=
  (pending.zipIdx.filter fun p =>
    p.1.groupable && (windowGroups pending).any (·.base == p.1.windowBase)).map (·.2)

/-- 公開済みの内容 `payload` に、待っている候補を古い順に重ねる -/
def overlayPending (pending : List (FrozenSlice × Nat)) (g : GroupBuild) (payload : Bytes) :
    GroupBuild × Bytes :=
  pending.foldl (fun (g, payload) p =>
    let c := p.1
    let start := max g.pos c.pos
    let stop := min g.recordEnd (c.pos + c.visibleLen)
    if c.visibleLen = 0 ∨ stop ≤ start then (g, payload)
    else
      let dirtyEnd := c.pos + min c.eofLen c.visibleLen
      ({ g with
          dirtyEnd := if g.pos < dirtyEnd then max g.dirtyEnd (min dirtyEnd g.recordEnd)
            else g.dirtyEnd
          insertAfter := max g.insertAfter p.2 },
        overwrite payload (start - g.pos) (slice c.payload (start - c.pos) (stop - start))))
    (g, payload)

def groupCandidate (g : GroupBuild) (payload : Bytes) : FrozenSlice where
  pos := g.pos
  payload := payload
  visibleLen := payload.length
  eofLen := max g.pos (min g.dirtyEnd g.recordEnd) - g.pos
  windowGroup := true

/-- `sources` を除き、作った候補を指定の位置の後に挿し込む -/
def rebuildFrozen (sources : List Nat) (built : List (Nat × FrozenSlice))
    (frozen : List FrozenSlice) : List FrozenSlice :=
  frozen.zipIdx.flatMap fun p =>
    (if p.2 ∈ sources then [] else [p.1]) ++ (built.filter (·.1 = p.2)).map (·.2)

section

variable (cx : MetaContext) (ino : InodeID)

/-- window ごとに公開済みの内容を読み、候補を組み立てる -/
def buildGroups (sc : SliceChunk) (pending : List FrozenSlice) :
    List GroupBuild → Io Backend (List (Nat × FrozenSlice))
  | [] => pure []
  | g :: gs => do
    let committed ← sc.readCommittedRange cx ino g.pos (g.recordEnd - g.pos)
    let (g, payload) := overlayPending pending.zipIdx g committed
    let rest ← buildGroups sc pending gs
    return (g.insertAfter, groupCandidate g payload) :: rest

/-- `PrepareWindowCandidates`：候補の数を返す。`count` は併合しないときの数 -/
def prepareWindowCandidates (count : Nat) : (attempts : Nat) → SessionIo SliceChunk Nat
  | 0 => throw (.busy "Slice RMW preparation raced repeated local truncation")
  | attempts + 1 => do
    let sc ← getSession
    if windowSources sc.frozen = [] then return count
    else
      let built ← onBackend (buildGroups cx ino sc sc.frozen (windowGroups sc.frozen))
      let sources := windowSources sc.frozen
      let installed ← modifySession fun (now : SliceChunk) =>
        if now.truncateEpoch = sc.truncateEpoch then
          (true, { now with frozen := rebuildFrozen sources built now.frozen })
        else (false, now)
      if installed then return (rebuildFrozen sources built sc.frozen).length
      else prepareWindowCandidates count attempts

/-! ## 公開 -/

def candidate (k : Nat) : SessionIo SliceChunk (Option FrozenSlice) := do
  return (← getSession).frozen[k]?

def modifyCandidate (k : Nat) (f : FrozenSlice → FrozenSlice) : SessionIo SliceChunk Unit :=
  modifySession fun sc => ((), { sc with frozen := sc.frozen.modify k f })

/-- 候補の object を上げる。既に上げたものは上げ直さない -/
def prepareObject (index k : Nat) : SessionIo SliceChunk Unit := do
  match ← candidate k with
  | none => return ()
  | some c =>
    if c.visibleLen = 0 ∨ c.preparedId.isSome then return ()
    else
      failIf (c.payload = [] ∨ kMaxU32 < c.payload.length)
        (.invalidArgument "invalid prepared Slice payload")
      let id ← onBackend (allocateSliceID index)
      failIf (id = 0 ∨ kMaxChunkIDValue < id)
        (.malformed "Slice allocator returned an invalid physical identity")
      onBackend (put (.slice id) c.payload)
      modifyCandidate k fun c =>
        if c.visibleLen ≠ 0 then { c with preparedId := some id } else c

def FrozenSlice.record (c : FrozenSlice) (id : SliceID) : SliceRecord :=
  ⟨c.pos, id, c.payload.length, 0, c.visibleLen⟩

/-- `matches`：record が index にあるかを読み返す -/
def recordPresent (id : ChunkID) (record : SliceRecord) : Io Backend Bool := do
  match ← attempt (readRecords cx id) with
  | .error e => if e.isNotFound then return false else throw e
  | .ok records => return records.any (· == record)

/-- 公開に使う ChunkID。取り付けられていなければ、候補のものを使うか新しく割り当てる -/
def publicationID (index k : Nat) (c : FrozenSlice) (attached : Option ChunkID) :
    SessionIo SliceChunk ChunkID :=
  match attached, c.createdChunkId with
  | some id, _ => pure id
  | none, some id => pure id
  | none, none => do
    let id ← onBackend (allocateChunkID index)
    failIf (id = 0 ∨ kMaxChunkIDValue < id)
      (.malformed "Slice allocator returned an invalid ChunkID")
    modifyCandidate k fun c => { c with createdChunkId := some id }
    return id

/-- 候補の record を index に書いたことを記録する -/
def markRecorded (k : Nat) (id : ChunkID) : SessionIo SliceChunk Unit :=
  modifyCandidate k fun c =>
    { c with recordedChunkId := some id, uncertainRecordChunkId := none }

/-- 候補の record を index に書く。結果の分からない書き込みは、繰り返さずに読み返す -/
def recordCandidate (k : Nat) (c : FrozenSlice) (record : SliceRecord) (id : ChunkID)
    (attached : Bool) : SessionIo SliceChunk Unit := do
  if c.recordedChunkId = some id then return ()
  else if c.uncertainRecordChunkId = some id then
    match ← attempt (onBackend (recordPresent cx id record)) with
    | .ok true => markRecorded k id
    | _ => throw (.outcomeUnknown "Slice record append outcome is still ambiguous")
  else
    match ← attempt (onBackend
        (if attached then appendRecord cx id record else createIndex cx id record)) with
    | .ok () => markRecorded k id
    | .error e =>
      if e.isOutcomeUnknown then
        modifyCandidate k fun c => { c with uncertainRecordChunkId := some id }
        match ← attempt (onBackend (recordPresent cx id record)) with
        | .ok true => markRecorded k id
        | _ => throw e
      else throw e

/-- 取り付けの返事が失われたとき、新しい snapshot で確かめる -/
def confirmAttachment (index endOff : Nat) (id : ChunkID) : Io Backend Bool := do
  match ← attempt (readSnapshot cx ino index) with
  | .error _ => return false
  | .ok observed => return observed.chunkId = some id ∧ endOff ≤ observed.inode.attr.size

/-- `PublishFrozen` の loop。確定した前提の衝突だけを繰り返す -/
def publishAttempts (index k : Nat) (record : SliceRecord) (endOff : Nat) :
    (attempts : Nat) → SessionIo SliceChunk Unit
  | 0 => throw (.alreadyExists "Slice publication lost too many EOF/attachment races")
  | attempts + 1 => do
    let snapshot ← onBackend (readSnapshot cx ino index)
    let expected : FileSizePrecondition := ⟨snapshot.inode.attr.size, snapshot.eofBoundary⟩
    match ← candidate k with
    | none => return ()
    | some c =>
      let id ← publicationID index k c snapshot.chunkId
      recordCandidate cx k c record id snapshot.chunkId.isSome
      match ← attempt (onBackend (transact cx fun cx =>
          if snapshot.chunkId.isSome then finalizeAttachedWrite cx ino index id endOff expected
          else attachPrepared cx ino index id endOff expected)) with
      | .ok () => return ()
      | .error e =>
        if e.isOutcomeUnknown then
          if snapshot.chunkId.isSome then throw e
          else if ← onBackend (confirmAttachment cx ino index endOff id) then return ()
          else throw e
        else if e.isEexist then publishAttempts index k record endOff attempts
        else throw e

def publishFrozen (index k : Nat) : SessionIo SliceChunk Unit := do
  match ← candidate k with
  | none => return ()
  | some c =>
    if c.visibleLen = 0 then return ()
    else match c.preparedId with
      | none => throw (.internal "Slice physical object is not prepared")
      | some sliceId =>
        let record := c.record sliceId
        ofResult (validateRecord record cx.chunkSize)
        let start ← ofResult (calculateChunkStartOffset index cx.chunkSize)
        failIf (kMaxSupportedFileSize - start < record.pos ∨
            kMaxSupportedFileSize - (start + record.pos) < record.len)
          (.invalidArgument "Slice published record exceeds supported file size")
        publishAttempts cx ino index k record
          (start + record.pos + min c.eofLen c.visibleLen) 8

def SliceChunk.rebuildDirty (sc : SliceChunk) : SliceChunk :=
  let fromFrozen := sc.frozen.foldl (fun ranges c =>
    if 0 < c.visibleLen then (acceptWrite ranges c.pos (c.payload.take c.visibleLen)).1
    else ranges) []
  { sc with dirty := sc.active.foldl (fun ranges r => (acceptWrite ranges r.1 r.2).1) fromFrozen }

/-- `retire_committed`：公開し終えた候補を外す -/
def SliceChunk.retire (sc : SliceChunk) (committed : List Nat) : SliceChunk :=
  if committed = [] then sc
  else
    let remaining := (sc.frozen.zipIdx.filter fun p => p.2 ∉ committed).map (·.1)
    { sc with frozen := remaining }.rebuildDirty

/-- 候補を順に公開する。最初の失敗で、それまでに公開したものを外して止まる -/
def publishAll (gate : Gate) (index : Nat) :
    (candidates committed : List Nat) → SessionIo SliceChunk Unit
  | [], committed => modifySession fun sc => ((), sc.retire committed)
  | k :: ks, committed => do
    match ← candidate k with
    | none => publishAll gate index ks committed
    | some c =>
      if c.visibleLen = 0 then publishAll gate index ks committed
      else
        match ← attempt (gate.run (publishFrozen cx ino index k)) with
        | .error e =>
          modifySession fun sc => ((), sc.retire committed)
          throw e
        | .ok () => publishAll gate index ks (committed ++ [k])

/-- `Flush` の本体。`count` は凍結した候補の数 -/
def flushCandidates (gate : Gate) (index count : Nat) : SessionIo SliceChunk Unit := do
  let count ← prepareWindowCandidates cx ino count kMaxRmwInstallAttempts
  forEach (prepareObject index) (List.range count)
  publishAll cx ino gate index (List.range count) []

def SliceChunk.flush (index : Nat) (gate : Gate := .exclusive) : SessionIo SliceChunk Unit := do
  failIf (kMaxU32 < cx.chunkSize) (.invalidArgument "Slice flush exceeds 32-bit record range")
  let started ← modifySession fun (sc : SliceChunk) =>
    if sc.flushing then (none, sc)
    else
      let sc := { sc with flushing := true }.freezeActive
      (some sc.frozen.length, sc)
  match started with
  | none => throw (.busy "Slice flush preparation already in flight")
  | some count =>
    let result ← attempt (flushCandidates cx ino gate index count)
    modifySession fun (sc : SliceChunk) => ((), { sc with flushing := false })
    ofResult result

/-! ## 切り詰め -/

def boundarySource (index : Nat) : Io Backend (Option ChunkID × Nat) := do
  let snapshot ← readSnapshot cx ino index
  match snapshot.chunkId with
  | none => return (none, 0)
  | some id =>
    let records ← readMappedRecords cx id
      "mapped ChunkID has no records when capturing Slice boundary"
    return (some id, records.length)

def SliceChunk.addBoundary (sc : SliceChunk) (visiblePrefix : Nat) (id : Option ChunkID)
    (count : Nat) : SliceChunk :=
  let boundaries := match sc.boundaries.getLast? with
    | none => []
    | some last => if last.chunkId ≠ id then [] else sc.boundaries
  let sc := { sc with boundaryError := none, boundaries := boundaries }
  let clamp : BoundaryClamp := ⟨min visiblePrefix cx.chunkSize, id, count⟩
  match boundaries.getLast? with
  | none => { sc with boundaries := [clamp] }
  | some last =>
    let tighter := { last with visiblePrefix := min clamp.visiblePrefix last.visiblePrefix }
    if count < last.recordCount then
      let e : Status := .malformed "Slice history shrank during repeated sanitation"
      { sc with boundaryError := some e }
    else if count = last.recordCount then
      { sc with boundaries := boundaries.dropLast ++ [tighter] }
    else { sc with boundaries := boundaries ++ [clamp] }

def captureBoundary (index visiblePrefix : Nat) : SessionIo SliceChunk Unit := do
  let source ← attempt (onBackend (boundarySource cx ino index))
  modifySession fun (sc : SliceChunk) =>
    match source with
    | .error e => ((), { sc with boundaryError := some e })
    | .ok (id, count) => ((), sc.addBoundary cx visiblePrefix id count)

/-- 候補の見える長さを `size` までに縮める -/
def FrozenSlice.clip (c : FrozenSlice) (size : Nat) : FrozenSlice :=
  { c with
    visibleLen := min c.visibleLen (size - c.pos)
    eofLen := min c.eofLen (min c.visibleLen (size - c.pos)) }

/-- `TruncateLocal` のうち、手元の書き込みの切り詰め -/
def SliceChunk.clip (sc : SliceChunk) (size : Nat) : SliceChunk :=
  let active := clipRanges sc.active size
  { sc with
    truncateEpoch := sc.truncateEpoch + 1
    dirty := clipRanges sc.dirty size
    active := active
    activeBytes := (active.map (·.2.length)).sum
    frozen := (sc.frozen.map (·.clip size)).filter (·.visibleLen ≠ 0) }

def truncateLocal (index size : Nat) : SessionIo SliceChunk Unit := do
  captureBoundary cx ino index size
  modifySession fun sc => ((), sc.clip size)

/-! ## factory の入口 -/

/-- `ChunkFactory::SanitizeBoundary` の Slice の場合：zero cover を足す -/
def sanitizeBoundary (boundary : RetainedChunkBoundary) : Io Backend Unit := do
  failIf (!isValidChunkID boundary.chunkId ∨ boundary.visiblePrefix = 0 ∨
      cx.chunkSize ≤ boundary.visiblePrefix ∨ kMaxU32 < cx.chunkSize)
    (.invalidArgument "invalid retained Slice boundary")
  let attached ← observe (probeAttachment ino boundary.index)
  if attached ≠ some boundary.chunkId then return ()
  else
    match ← attempt (appendRecord cx boundary.chunkId
        ⟨boundary.visiblePrefix, 0, 0, 0, cx.chunkSize - boundary.visiblePrefix⟩) with
    | .ok () => return ()
    | .error e =>
      if e.isNotFound then
        let attached ← observe (probeAttachment ino boundary.index)
        failIf (attached = some boundary.chunkId)
          (.malformed "mapped ChunkID is missing its Slice index")
      else throw e

def openSession (index : Nat) (createIfMissing : Bool) : Io Backend (Option SliceChunk) := do
  failIf (cx.chunkSize = 0) (.internal "ChunkFactory is not fully initialized")
  let file ← readSnapshot cx ino index
  if file.chunkId = none ∧ !createIfMissing then return none
  else return some { index := index }

def write (offset : Nat) (bytes : Bytes) : SessionIo SliceChunk Unit := do
  failIf (cx.chunkSize < offset ∨ cx.chunkSize - offset < bytes.length)
    (.invalidArgument "SliceChunk::Write exceeds logical chunk bounds")
  if bytes = [] then return ()
  else modifySession fun (sc : SliceChunk) => ((), sc.accept offset bytes)

def withIndex {α : Type} (f : Nat → SessionIo SliceChunk α) : SessionIo SliceChunk α := do
  f (← getSession).index

def mechanism (gate : Gate := .exclusive) : Mechanism SliceChunk where
  openSession := openSession cx ino
  read := SliceChunk.read cx ino
  write := write cx
  flush := withIndex fun i => SliceChunk.flush cx ino i gate
  truncateLocal := fun size => withIndex fun i => truncateLocal cx ino i size
  clampPublishedPrefix := fun p => withIndex fun i => captureBoundary cx ino i p
  hasPendingWrites := fun sc => !sc.dirty.isEmpty
  sanitizeBoundary := sanitizeBoundary cx ino

end

end SwordFS.Chunk.Slice
