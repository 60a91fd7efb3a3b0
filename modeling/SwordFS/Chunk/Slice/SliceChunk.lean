import SwordFS.Chunk.Mechanism
import SwordFS.Chunk.Slice.DirtyRanges

/-!
# Slice 方式の session

`SliceChunk.cpp` と `ChunkFactory.cpp` の Slice の部分を写す。
書き込みは `dirty`（読みに見える全体）と `active`（まだ凍結していない分）に入り、
凍結されて `frozen` の候補になり、object に上げてから record として公開される。

候補の `shared_ptr` は `frozen` の中の位置で表す。Flush の途中で位置を変えるのは
`TruncateLocal` だけで、それは inode の操作 lock で排除される。

inode ごとの publication gate は `Gate` で表す。
-/

namespace SwordFS.Chunk.Slice

open Infra Metadata

/-- `FrozenSlice`：公開を待つ不変の候補 -/
structure FrozenSlice where
  pos : Nat
  payload : Bytes
  visibleLen : Nat
  eofLen : Nat
  windowGroup : Bool := false
  preparedId : Option SliceID := none
  recordedChunkId : Option ChunkID := none
  createdChunkId : Option ChunkID := none
  uncertainRecordChunkId : Option ChunkID := none
deriving DecidableEq, Repr

/-- `BoundaryClamp`：捕えた時点の record だけを切り詰める -/
structure BoundaryClamp where
  visiblePrefix : Nat
  chunkId : Option ChunkID
  recordCount : Nat
deriving DecidableEq, Repr

structure SliceChunk where
  index : Nat
  dirty : DirtyRanges := []
  active : DirtyRanges := []
  activeBytes : Nat := 0
  frozen : List FrozenSlice := []
  flushing : Bool := false
  boundaries : List BoundaryClamp := []
  boundaryError : Option Status := none
  truncateEpoch : Nat := 0
deriving DecidableEq, Repr

def kMaxActiveSliceBytes : Nat := 4 * 1024 * 1024
def kRmwWindowBytes : Nat := 1024 * 1024
def kMaxRmwInstallAttempts : Nat := 4
def kMaxU32 : Nat := 2 ^ 32 - 1

/--
inode ごとの publication gate の臨界区間の扱い。

`exclusive` は臨界区間を一動作とみなす。gate の外で同時に進む同じ mount の動作は、読みと、
自分だけが知る新しい object の Put だけなので、他の mount が動かなければこれで足りる。
`interleaved` は臨界区間の中にもあらゆる動作の割り込みを許し、実際の実行をすべて含む。
-/
inductive Gate where
  | exclusive
  | interleaved
deriving DecidableEq, Repr

def Gate.run {ε σ α : Type} : Gate → Prog ε σ α → Prog ε σ α
  | .exclusive, p => Prog.atomic p
  | .interleaved, p => p

/-! ## 書き込み -/

def SliceChunk.freezeActive (sc : SliceChunk) : SliceChunk :=
  { sc with
    frozen := sc.frozen ++ sc.active.map fun r =>
      { pos := r.1, payload := r.2, visibleLen := r.2.length, eofLen := r.2.length }
    active := []
    activeBytes := if sc.active.isEmpty then sc.activeBytes else 0 }

/-- `[partStart, partEnd)` のうち、既に `ranges` が覆う byte 数 -/
def coveredBytes (ranges : DirtyRanges) (partStart partEnd : Nat) : Nat :=
  (ranges.map fun r => min (rangeEnd r) partEnd - max r.1 partStart).sum

/-- 上限までの一部分を `active` に受け入れる -/
def SliceChunk.acceptPart (sc : SliceChunk) (partStart : Nat) (part : Bytes) : SliceChunk :=
  let covered := coveredBytes sc.active partStart (partStart + part.length)
  let sc :=
    if kMaxActiveSliceBytes < sc.activeBytes + part.length ∧
        kMaxActiveSliceBytes < sc.activeBytes + part.length - covered then sc.freezeActive
    else sc
  let (active, fresh) := acceptWrite sc.active partStart part
  let sc := { sc with active := active, activeBytes := sc.activeBytes + fresh }
  if kMaxActiveSliceBytes ≤ sc.activeBytes then sc.freezeActive else sc

/-- 書き込みを上限ごとに分けて受け入れる。一回で一 byte 以上進むので `fuel` は長さで足りる -/
def SliceChunk.acceptParts : (fuel : Nat) → SliceChunk → Nat → Bytes → SliceChunk
  | 0, sc, _, _ => sc
  | fuel + 1, sc, start, bytes =>
    if bytes.isEmpty then sc
    else
      let part := bytes.take kMaxActiveSliceBytes
      acceptParts fuel (sc.acceptPart start part) (start + part.length)
        (bytes.drop kMaxActiveSliceBytes)

def SliceChunk.accept (sc : SliceChunk) (offset : Nat) (bytes : Bytes) : SliceChunk :=
  { sc with dirty := (acceptWrite sc.dirty offset bytes).1 }.acceptParts bytes.length offset bytes

/-! ## 公開された内容 -/

/-- record の番号 `i` に効く境界を新しい順に取り込む -/
def takeBoundaries (i : Nat) : List BoundaryClamp → Nat → Nat × List BoundaryClamp
  | [], visiblePrefix => (visiblePrefix, [])
  | b :: bs, visiblePrefix =>
    if i ≤ b.recordCount then takeBoundaries i bs (min visiblePrefix b.visiblePrefix)
    else (visiblePrefix, b :: bs)

/-- 新しい順の record を、同じく新しい順の境界で切り詰める -/
def sanitizeNewest (chunkSize : Nat) :
    List SliceRecord → List BoundaryClamp → Nat → Result (List SliceRecord)
  | [], _, _ => .ok []
  | r :: older, bs, visiblePrefix => do
    let (visiblePrefix, bs) := takeBoundaries (older.length + 1) bs visiblePrefix
    validateRecord r chunkSize
    let rest ← sanitizeNewest chunkSize older bs visiblePrefix
    if visiblePrefix ≤ r.pos then return rest
    else return { r with len := min r.len (visiblePrefix - r.pos) } :: rest

/-- 取り付け済みの `id` の `[offset, offset + len)` を、境界を考慮して解決する -/
def committedSpans (chunkSize : Nat) (boundaries : List BoundaryClamp) (id : ChunkID)
    (records : List SliceRecord) (offset len : Nat) : Result (List ResolvedSlice) :=
  match boundaries.getLast? with
  | none => resolveRange records chunkSize offset len
  | some last =>
    if last.chunkId = some id then do
      Result.failIf (records.length < last.recordCount)
        (.malformed "Slice history shrank after retained boundary sanitation")
      let sanitized ← sanitizeNewest chunkSize records.reverse boundaries.reverse chunkSize
      resolveRange sanitized.reverse chunkSize offset len
    else resolveRange records chunkSize offset len

section

variable (cx : MetaContext) (ino : InodeID)

/-- 取り付け済みの `id` の record を読む。一つも無ければ壊れている -/
def readMappedRecords (id : ChunkID) (msg : String) : Io Backend (List SliceRecord) := do
  match ← attempt (readRecords cx id) with
  | .error e => throw (if e.isNotFound then .malformed msg else e)
  | .ok records =>
    failIf (records = []) (.malformed msg)
    return records

/-- object の `[start, stop)` に当たる部分を `result` に写す -/
def fetchRange (offset : Nat) (span : ResolvedSlice) (start stop : Nat) (short : String)
    (result : Bytes) : Io Backend Bytes :=
  if start = stop then pure result
  else do
    let physical ← get (.slice span.id) (span.off + (start - span.pos)) (stop - start)
    failIf (physical.length ≠ stop - start) (.ioError short)
    return overwrite result (start - offset) physical

/-- 一区間のうち、手元の書き込み `overlays` に覆われない部分だけを取り寄せる -/
def fetchUncovered (offset : Nat) (span : ResolvedSlice) (short : String) :
    List (Nat × Bytes) → Nat → Bytes → Io Backend Bytes
  | [], cursor, result => fetchRange offset span cursor (span.pos + span.len) short result
  | o :: os, cursor, result =>
    let dirtyStart := offset + o.1
    let dirtyEnd := dirtyStart + o.2.length
    if span.pos + span.len ≤ cursor ∨ span.pos + span.len ≤ dirtyStart then
      fetchRange offset span cursor (span.pos + span.len) short result
    else if dirtyEnd ≤ cursor then fetchUncovered offset span short os cursor result
    else do
      let result ←
        if cursor < dirtyStart then fetchRange offset span cursor dirtyStart short result
        else pure result
      fetchUncovered offset span short os (min (span.pos + span.len) dirtyEnd) result

/-- 解決された区間を順に取り寄せる。通り過ぎた `overlays` は捨てる -/
def fetchSpans (offset : Nat) (short : String) :
    List (Nat × Bytes) → List ResolvedSlice → Bytes → Io Backend Bytes
  | _, [], result => pure result
  | overlays, span :: spans, result =>
    if span.id = 0 then fetchSpans offset short overlays spans result
    else do
      let overlays := overlays.dropWhile fun o => offset + o.1 + o.2.length ≤ span.pos
      let result ← fetchUncovered offset span short overlays span.pos result
      fetchSpans offset short overlays spans result

/-- 読む範囲に掛かる手元の書き込み。位置は範囲の先頭から数える -/
def overlaysIn (dirty : DirtyRanges) (offset len : Nat) : List (Nat × Bytes) :=
  dirty.filterMap fun r =>
    let start := max offset r.1
    let stop := min (offset + len) (rangeEnd r)
    if start < stop then some (start - offset, slice r.2 (start - r.1) (stop - start)) else none

def SliceChunk.read (sc : SliceChunk) (offset len : Nat) : Io Backend Bytes := do
  failIf (cx.chunkSize < offset ∨ cx.chunkSize - offset < len)
    (.invalidArgument "SliceChunk::Read invalid buffer or range")
  if len = 0 then return []
  else
    let overlays := overlaysIn sc.dirty offset len
    ofResult (match sc.boundaryError with
      | some e => .error e
      | none => .ok ())
    let snapshot ← readSnapshot cx ino sc.index
    let result ← match snapshot.chunkId with
      | none => pure (List.replicate len 0)
      | some id => do
        failIf (kMaxU32 < cx.chunkSize)
          (.invalidArgument "Slice chunk exceeds 32-bit record range")
        let records ← readMappedRecords cx id
          "mapped ChunkID is missing authoritative Slice records"
        let _ ← ofResult (calculateChunkStartOffset sc.index cx.chunkSize)
        let atEof := sizeAtEof sc.index cx.chunkSize snapshot.inode.attr.size
        let published := if offset < atEof then min len (atEof - offset) else 0
        let spans ← ofResult
          (committedSpans cx.chunkSize sc.boundaries id records offset published)
        fetchSpans offset "SliceChunk::Read: short object range" overlays spans
          (List.replicate len 0)
    return overlays.foldl (fun buf o => overwrite buf o.1 o.2) result

/-- `ReadCommittedRange`：手元の書き込みを除いた、公開済みの内容 -/
def SliceChunk.readCommittedRange (sc : SliceChunk) (offset len : Nat) : Io Backend Bytes := do
  failIf (cx.chunkSize < offset ∨ cx.chunkSize - offset < len)
    (.invalidArgument "SliceChunk::ReadCommittedRange invalid range")
  failIf (kMaxU32 < cx.chunkSize) (.invalidArgument "Slice chunk exceeds 32-bit record range")
  let blank : Bytes := List.replicate len 0
  if len = 0 then return blank
  else
    ofResult (match sc.boundaryError with
      | some e => .error e
      | none => .ok ())
    let snapshot ← readSnapshot cx ino sc.index
    match snapshot.chunkId with
    | none => return blank
    | some id =>
      let records ← readMappedRecords cx id "mapped ChunkID is missing authoritative Slice records"
      let _ ← ofResult (calculateChunkStartOffset sc.index cx.chunkSize)
      let atEof := sizeAtEof sc.index cx.chunkSize snapshot.inode.attr.size
      if atEof ≤ offset then return blank
      else
        let spans ← ofResult (committedSpans cx.chunkSize sc.boundaries id records offset
          (min len (atEof - offset)))
        fetchSpans offset "SliceChunk::ReadCommittedRange: short object range" [] spans blank

end

end SwordFS.Chunk.Slice
