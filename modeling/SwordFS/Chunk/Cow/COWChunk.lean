import SwordFS.Chunk.Mechanism

/-!
# COW 方式の session

`COWChunk.cpp`、`WriteBuf.cpp`、`COWChunkBoundary.cpp` と、`ChunkFactory.cpp` の COW の部分を写す。
chunk 全体を一つの buffer に持ち、Flush のたびに新しい revision の object を上げて、
head を比較交換で差し替える。

`flushing_wb_` が `wb_` と同じ buffer を指すかは `shared` で表す。
-/

namespace SwordFS.Chunk.Cow

open Infra Metadata

inductive State where
  | clean
  | dirty
  | flushing
deriving DecidableEq, Repr

structure COWChunk where
  index : Nat
  attachedId : Option ChunkID := none
  publishedHead : Option COWChunkHead := none
  visiblePrefix : Nat := 0
  state : State := .dirty
  wb : Option Bytes := none
  flushingWb : Option Bytes := none
  shared : Bool := false
deriving DecidableEq, Repr

/-! ## 手元の buffer -/

/-- `WriteBuf::Write`：終端より後への書き込みは、間を零で埋める -/
def writeBuf (buf : Bytes) (offset : Nat) (data : Bytes) : Bytes :=
  overwrite (padTo 0 offset buf) offset data

def readLocal (buf : Bytes) (offset len : Nat) : Bytes := padTo 0 len (slice buf offset len)

namespace COWChunk

/-- `VisibleBytesForHeadLocked`：手元の head と同じ revision なら、手元の prefix でも切る -/
def visibleBytesForHead (c : COWChunk) (head : COWChunkHead) : Nat :=
  if c.publishedHead.map (·.revision) = some head.revision then min head.size c.visiblePrefix
  else head.size

def clampPublishedPrefix (c : COWChunk) (visiblePrefix : Nat) : COWChunk :=
  { c with
    visiblePrefix := min c.visiblePrefix visiblePrefix
    publishedHead := c.publishedHead.map fun h => { h with size := min h.size visiblePrefix } }

def truncateLocal (c : COWChunk) (size : Nat) : COWChunk :=
  let c := c.clampPublishedPrefix size
  if c.state = .clean then c else { c with wb := c.wb.map (·.take size) }

def hasPendingWrites (c : COWChunk) : Bool :=
  c.state ≠ .clean ∧ c.wb.any fun buf => 0 < buf.length

end COWChunk

def validateRange (offset len chunkSize : Nat) (operation : String) : Result Unit :=
  Result.failIf (chunkSize < offset ∨ chunkSize - offset < len)
    (.invalidArgument (operation ++ ": range crosses chunk boundary"))

section

variable (cx : MetaContext) (ino : InodeID)

/-- 取り付け済みの `id` の head。無ければ壊れている -/
def mappedHead (id : ChunkID) (msg : String) : Io Backend COWChunkHead := do
  match ← attempt (getHead id) with
  | .error e => throw (if e.isNotFound then .malformed msg else e)
  | .ok head => return head

/-! ## 読みと書き -/

/-- `HydrateForWrite`：公開済みの見える部分を手元の buffer に読む -/
def hydrateForWrite (c : COWChunk) (id : ChunkID) (head : COWChunkHead) : Io Backend Bytes := do
  failIf (cx.chunkSize < head.size ∨ cx.chunkSize < c.visiblePrefix)
    (.malformed "COWChunk::HydrateForWrite: published chunk exceeds configured chunk size")
  let visible := c.visibleBytesForHead head
  if visible = 0 then return []
  else
    let persisted ← get (.cow id head.revision) 0 visible
    failIf (persisted.length ≠ visible)
      (.ioError "COWChunk::HydrateForWrite: persisted object is shorter than metadata descriptor")
    return persisted

/-- 公開済みの session を、書き込める状態にする -/
def hydrate (c : COWChunk) : SessionIo COWChunk Unit :=
  match c.attachedId, c.publishedHead with
  | some id, some head => do
    failIf (cx.chunkSize < head.size ∨ cx.chunkSize < c.visiblePrefix)
      (.malformed "COWChunk::HydrateForWrite: published chunk exceeds configured chunk size")
    let current ← onBackend (mappedHead id
      "COWChunk::Write: attached ChunkID has no private COW head")
    let hydrated ← onBackend (hydrateForWrite cx c id current)
    modifySession fun (c : COWChunk) => ((), { c with
      publishedHead := some current, wb := some hydrated, shared := false, state := .dirty })
  | _, _ => throw (.internal "clean COW session without a published head")

def write (offset : Nat) (data : Bytes) : SessionIo COWChunk Unit := do
  ofResult (validateRange offset data.length cx.chunkSize "COWChunk::Write")
  let c ← getSession
  if c.state = .clean then hydrate cx c else pure ()
  -- 公開中の buffer と同じものには書かず、写しに書く
  modifySession fun (c : COWChunk) => ((), { c with
    wb := some (writeBuf (c.wb.getD []) offset data), shared := false })

/-- 公開済みの内容を読む。object が消えていれば、新しい head で読み直す -/
def readAttempts (c : COWChunk) (id : ChunkID) (offset len : Nat) :
    (attempts : Nat) → Io Backend Bytes
  | 0 => throw (.busy "COWChunk::Read: private head changed repeatedly while reading")
  | attempts + 1 => do
    let head ← mappedHead id "COWChunk::Read: attached ChunkID has no private COW head"
    failIf (!isValidHead head ∨ cx.chunkSize < head.size ∨ cx.chunkSize < c.visiblePrefix)
      (.malformed "COWChunk::Read: invalid typed private head")
    let visible := c.visibleBytesForHead head
    let available := if offset < visible then min len (visible - offset) else 0
    if available = 0 then return List.replicate len 0
    else
      match ← attempt (get (.cow id head.revision) offset available) with
      | .error failure =>
        let refreshed ← getHead id
        if refreshed.revision = head.revision then throw failure
        else readAttempts c id offset len attempts
      | .ok bytes =>
        failIf (bytes.length ≠ available)
          (.ioError "COWChunk::Read: backend returned a short read")
        return padTo 0 len bytes

def COWChunk.read (c : COWChunk) (offset len : Nat) : Io Backend Bytes := do
  ofResult (validateRange offset len cx.chunkSize "COWChunk::Read")
  if len = 0 then return []
  else if c.state ≠ .clean then return readLocal (c.wb.getD []) offset len
  else match c.attachedId with
    | some id => readAttempts cx c id offset len 3
    | none => throw (.internal "clean COW session without a published head")

/-! ## 公開 -/

/-- Flush を始めた時点の session -/
structure Generation where
  index : Nat
  bytes : Bytes
  sessionId : Option ChunkID
  sessionHead : Option COWChunkHead

/-- 一つの候補についての確定の結果 -/
inductive FinalizeOutcome where
  | finalized
  | retryFresh (observed : FileChunkSnapshot)
  | exhausted (e : Status)

/-- `mark_head_published`：取り付け済みの ID への比較交換が済んだことを記録する -/
def markHeadPublished (g : Generation) (replacement : COWChunkHead) : SessionIo COWChunk Unit :=
  modifySession fun (c : COWChunk) =>
    ((), if g.sessionId.isSome then { c with publishedHead := some replacement } else c)

/-- EOF は同じで、その境界の attachment だけが変わった -/
def boundaryChangedAtSameEof (file observed : FileChunkSnapshot) : Bool :=
  observed.inode.attr.size == file.inode.attr.size &&
    match observed.eofBoundary, file.eofBoundary with
    | some o, some f => o.chunkId != f.chunkId
    | _, _ => false

/-- 確定の loop。確定した前提の衝突だけを、新しい snapshot で繰り返す -/
def finalizeAttempts (g : Generation) (endOff : Nat) (id : ChunkID) (replacement : COWChunkHead) :
    (attempts : Nat) → FileChunkSnapshot → Status → SessionIo COWChunk FinalizeOutcome
  | 0, _, last => return .exhausted last
  | attempts + 1, file, _ => do
    let expected : FileSizePrecondition := ⟨file.inode.attr.size, file.eofBoundary⟩
    match ← attempt (onBackend (transact cx fun cx =>
        if g.sessionId.isSome then finalizeAttachedWrite cx ino g.index id endOff expected
        else attachPrepared cx ino g.index id endOff expected)) with
    | .ok () => return .finalized
    | .error e =>
      if !e.isOutcomeUnknown ∧ !e.isEexist then
        markHeadPublished g replacement
        throw e
      else
        match ← attempt (onBackend (readSnapshot cx ino g.index)) with
        | .error probe =>
          markHeadPublished g replacement
          throw probe
        | .ok observed =>
          if g.sessionId.isNone then
            if e.isOutcomeUnknown then
              if observed.chunkId = some id ∧ endOff ≤ observed.inode.attr.size then
                let current ← onBackend (getHead id)
                if current = replacement then return .finalized else throw e
              else throw e
            else if observed.chunkId = none ∧ (file.inode.attr.size < observed.inode.attr.size ∨
                boundaryChangedAtSameEof file observed) then
              return .retryFresh observed
            else throw e
          else if e.isOutcomeUnknown then
            markHeadPublished g replacement
            throw e
          else
            failIf (observed.chunkId ≠ some id)
              (.alreadyExists "COWChunk::Flush: attached ChunkID was replaced")
            let current ← onBackend (getHead id)
            failIf (current ≠ replacement)
              (.alreadyExists "COWChunk::Flush: candidate COW head was superseded")
            if observed.inode.attr.size < file.inode.attr.size then
              markHeadPublished g replacement
              throw (.alreadyExists "COWChunk::Flush: EOF shrank during finalization")
            else finalizeAttempts g endOff id replacement attempts observed e

/-- head の比較交換。返事が失われたときは読み返して確かめる -/
def publishHead (id : ChunkID) (expected : Option COWChunkHead) (replacement : COWChunkHead) :
    Io Backend Unit := do
  match ← attempt (compareExchangeHead id expected replacement) with
  | .ok () => return ()
  | .error e =>
    if e.isOutcomeUnknown then
      match ← attempt (getHead id) with
      | .ok observed => failIf (observed ≠ replacement) e
      | .error _ => throw e
    else throw e

/-- 公開する ID。取り付けられていなければ、試すたびに新しく割り当てる -/
def candidateID (g : Generation) : Io Backend ChunkID :=
  match g.sessionId with
  | some id => pure id
  | none => allocateChunkID g.index

/-- 公開の loop。取り付けの競合に負けるたびに、新しい候補を作り直す -/
def candidateAttempts (g : Generation) (endOff : Nat) :
    (attempts : Nat) → FileChunkSnapshot → SessionIo COWChunk (ChunkID × COWChunkHead)
  | 0, _ => throw (.alreadyExists "COWChunk::Flush: too many concurrent attachment changes")
  | attempts + 1, file => do
    let id ← onBackend (candidateID g)
    ofResult (validateFileChunkWrite g.index id endOff cx.chunkSize)
    let revision ← onBackend (allocateRevision id)
    let replacement : COWChunkHead := ⟨revision, g.bytes.length⟩
    onBackend (put (.cow id revision) g.bytes)
    onBackend (publishHead id g.sessionHead replacement)
    match ← finalizeAttempts cx ino g endOff id replacement 3 file (.internal "unreachable") with
    | .finalized => return (id, replacement)
    | .retryFresh observed => candidateAttempts g endOff attempts observed
    | .exhausted e =>
      markHeadPublished g replacement
      throw e

def publish (g : Generation) : SessionIo COWChunk (ChunkID × COWChunkHead) := do
  let file ← onBackend (readSnapshot cx ino g.index)
  failIf (file.chunkId ≠ g.sessionId)
    (.alreadyExists "COWChunk::Flush: attachment changed; session is stale")
  match g.sessionId with
  | none => pure ()
  | some id =>
    let current ← onBackend (mappedHead id "COWChunk::Flush: attached ChunkID has no COW head")
    failIf (some current ≠ g.sessionHead)
      (.alreadyExists "COWChunk::Flush: private COW head has changed")
  let start ← ofResult (calculateChunkStartOffset g.index cx.chunkSize)
  failIf (kMaxSupportedFileSize - start < g.bytes.length)
    (.invalidArgument "COWChunk::Flush: file range exceeds supported size")
  candidateAttempts cx ino g (start + g.bytes.length) 8 file

/-- 置き換えられた revision を cleanup の queue に入れる。失敗しても公開は取り消さない -/
def retireRevision (g : Generation) (id : ChunkID) (replacement : COWChunkHead) :
    SessionIo COWChunk Unit :=
  match g.sessionId, g.sessionHead with
  | some _, some old =>
    if old.revision ≠ replacement.revision ∧ isValidChunkID id ∧ isValidHead old then do
      let _ ← attempt (onBackend (transact cx fun _ =>
        queuePendingDelete ⟨.cowRevision id old.revision, .revision id old.revision⟩))
      return ()
    else pure ()
  | _, _ => pure ()

/-- Flush を始める。始めなくてよければ `none` -/
def beginFlush : SessionIo COWChunk (Option (Result Generation)) :=
  modifySession fun (c : COWChunk) =>
    if c.state = .clean ∨ (c.state = .dirty ∧ (c.wb.getD []).length = 0) then (none, c)
    else if c.state = .flushing then
      (some (.error (.busy "COWChunk::Flush: publication already in flight")), c)
    else
      (some (.ok ⟨c.index, c.wb.getD [], c.attachedId, c.publishedHead⟩),
        { c with state := .flushing, flushingWb := c.wb, shared := true })

def COWChunk.published (c : COWChunk) (g : Generation) (id : ChunkID) (head : COWChunkHead) :
    COWChunk :=
  let c := { c with
    attachedId := some id, publishedHead := some head, visiblePrefix := g.bytes.length,
    flushingWb := none }
  if c.shared then { c with wb := none, shared := false, state := .clean }
  else { c with state := .dirty }

def flush : SessionIo COWChunk Unit := do
  match ← beginFlush with
  | none => return ()
  | some (.error e) => throw e
  | some (.ok g) =>
    match ← attempt (publish cx ino g) with
    | .error e =>
      modifySession fun (c : COWChunk) => ((), { c with
        state := .dirty, flushingWb := none, shared := false })
      throw e
    | .ok (id, replacement) =>
      modifySession fun (c : COWChunk) => ((), c.published g id replacement)
      retireRevision cx g id replacement

/-! ## factory の入口 -/

/--
`SanitizeCOWBoundary` の loop。

source の loop には上限が無い。`fuel` が尽きた場合は、呼び出しがまだ返っていないことを表す。
-/
def sanitizeLoop (boundary : RetainedChunkBoundary) : (fuel : Nat) → Io Backend Unit
  | 0 => throw (.unavailable "COW boundary sanitation has not returned")
  | fuel + 1 => do
    match ← attempt (getHead boundary.chunkId) with
    | .error e =>
      if e.isNotFound then
        let attached ← observe (probeAttachment ino boundary.index)
        failIf (attached = some boundary.chunkId)
          (.malformed "FileMetadata references a missing COW chunk head")
      else throw e
    | .ok current =>
      if current.size ≤ boundary.visiblePrefix then return ()
      else
        match ← attempt (compareExchangeHead boundary.chunkId (some current)
            { current with size := boundary.visiblePrefix }) with
        | .ok () => return ()
        | .error e =>
          if e.isNotFound ∨ e.isEexist ∨ e.isOutcomeUnknown then sanitizeLoop boundary fuel
          else throw e

def sanitizeBoundary (fuel : Nat) (boundary : RetainedChunkBoundary) : Io Backend Unit := do
  failIf (!isValidChunkID boundary.chunkId ∨ boundary.visiblePrefix = 0)
    (.invalidArgument "invalid COW boundary sanitation request")
  sanitizeLoop ino boundary fuel

def openSession (index : Nat) (createIfMissing : Bool) : Io Backend (Option COWChunk) := do
  failIf (cx.chunkSize = 0) (.internal "ChunkFactory is not fully initialized")
  let file ← readSnapshot cx ino index
  match file.chunkId with
  | some id =>
    let head ← mappedHead id
      "ChunkFactory::Open: mapped ChunkID is missing its private COW head"
    failIf (!isValidHead head ∨ cx.chunkSize < head.size)
      (.malformed "ChunkFactory::Open: invalid private COW head")
    let start ← ofResult (calculateChunkStartOffset index cx.chunkSize)
    let visible := if start < file.inode.attr.size then min head.size (file.inode.attr.size - start)
      else 0
    return some { index := index, attachedId := some id, publishedHead := some head,
                  visiblePrefix := visible, state := .clean }
  | none =>
    if !createIfMissing then return none
    else return some { index := index, wb := some [] }

def mechanism (fuel : Nat) : Mechanism COWChunk where
  openSession := openSession cx ino
  read := COWChunk.read cx
  write := write cx
  flush := flush cx ino
  truncateLocal := fun size => modifySession fun c => ((), c.truncateLocal size)
  clampPublishedPrefix := fun p => modifySession fun c => ((), c.clampPublishedPrefix p)
  hasPendingWrites := COWChunk.hasPendingWrites
  sanitizeBoundary := sanitizeBoundary ino fuel

end

end SwordFS.Chunk.Cow
