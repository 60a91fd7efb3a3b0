import SwordFS.Metadata.InodePolicy
import SwordFS.Metadata.ChunkSizePlan
import SwordFS.Metadata.Redis.KvTxn

/-!
# FileMetadata の transaction

`RedisMetaTxn.cpp` のうち、inode 一つと file の mapping を扱う transaction を写す。
どれも WATCH した読みの後に書き込みを溜め、失敗すれば何も書かない。

`MetaContext` は transaction が参照する volume の設定と現在時刻である。
-/

namespace SwordFS.Metadata

open Infra

/-- transaction の外から与えられるもの -/
structure MetaContext where
  chunkSize : Nat
  chunkType : ChunkType
  now : Int

/-! ## cleanup の符号化 -/

def detachedDelete (t : ChunkType) (ino : InodeID) (m : ChunkMapping) : PendingDelete where
  id := match t with
    | .chunkSlice => .sliceChunk m.chunkId
    | .cow => .cowChunk m.chunkId
  payload := .detached ino m

/-- `EncodeDetachedDelete`。message だけが方式によって違う -/
def encodeDetachedDelete (t : ChunkType) (ino : InodeID) (m : ChunkMapping) :
    Result PendingDelete := do
  Result.failIf (ino = 0 ∨ !isValidChunkID m.chunkId) (match t with
    | .chunkSlice => .invalidArgument "invalid deferred Slice detached identity"
    | .cow => .invalidArgument "invalid detached COW cleanup identity")
  return detachedDelete t ino m

def encodeDetachedReclaim (t : ChunkType) (ino : InodeID) (ms : List ChunkMapping) :
    Result ReclaimWork :=
  match t with
  | .chunkSlice =>
    if ino = 0 then .error (.invalidArgument "invalid deferred Slice reclaim identity")
    else if ms.any fun m => !isValidChunkID m.chunkId then
      .error (.invalidArgument "invalid ChunkID in deferred Slice reclaim")
    else .ok ⟨ino, ms⟩
  | .cow =>
    if ino = 0 ∨ 2 ^ 32 - 1 < ms.length then .error (.invalidArgument "invalid typed COW reclaim")
    else if ms.any fun m => !isValidChunkID m.chunkId then
      .error (.invalidArgument "invalid attached ChunkID for typed reclaim")
    else .ok ⟨ino, ms⟩

/-! ## 読み -/

def findInode (ino : InodeID) : KvTxn (Option SwordFsInode) := do
  match ← KvTxn.getInode ino with
  | none => pure none
  | some inode =>
    if inode.ino = 0 then Txn.throw (.malformed "Malformed inode record: decode failure")
    else pure (some inode)

def lookupInode (ino : InodeID) : KvTxn SwordFsInode := do
  match ← findInode ino with
  | none => Txn.throw (.notFound "Redis key not found")
  | some inode => pure inode

def parseAttachedChunkID (value : ChunkID) : Result ChunkID :=
  if !isValidChunkID value then .error (.malformed "FileMetadata contains an invalid ChunkID")
  else .ok value

def lookupAttachment (ino : InodeID) (index : Nat) : KvTxn (Option ChunkID) := do
  let refs ← KvTxn.getChunkRefs ino
  match refs.lookup index with
  | none => pure none
  | some value => Txn.ofExcept ((parseAttachedChunkID value).map some)

def hasAdjacentDuplicate : List ChunkMapping → Bool
  | a :: b :: rest => a.index == b.index || hasAdjacentDuplicate (b :: rest)
  | _ => false

/-- HSCAN で読んだ mapping を検査し、index の順に並べる -/
def decodeMappings (refs : Hash Nat ChunkID) : Result (List ChunkMapping) := do
  let ms ← refs.entries.mapM fun e => (parseAttachedChunkID e.2).map fun id => ⟨e.1, id⟩
  Result.failIf (hasAdjacentDuplicate (sortMappings ms))
    (.malformed "duplicate FileMetadata chunk index")
  return sortMappings ms

def readFileMappingSnapshot (ino : InodeID) : KvTxn FileMappingSnapshot := do
  let inode ← lookupInode ino
  Txn.failIf (!inode.isRegular) (.invalidArgument "not a regular file")
  let refs ← KvTxn.getChunkRefs ino
  let mappings ← Txn.ofExcept (decodeMappings refs)
  return ⟨inode, mappings⟩

def probeAttachment (ino : InodeID) (index : Nat) : KvTxn (Option ChunkID) := do
  let _ ← lookupInode ino
  lookupAttachment ino index

/--
`ReadFileChunkSnapshot`。inode の像が変わっていないことを確かめながら attachment を読むので、
一つの store の上の coherent な読みである。
-/
def readFileChunkSnapshot (chunkSize : Nat) (s : Redis) (ino : InodeID) (index : Nat) :
    Result FileChunkSnapshot := do
  let some inode := s (.inode ino) | throw (.notFound "Redis key not found")
  Result.failIf (inode.ino = 0) (.malformed "Malformed inode record: decode failure")
  Result.failIf (inode.ino ≠ ino) (.malformed "Redis inode record identity mismatch")
  Result.failIf (!inode.isRegular) (.invalidArgument "not a regular file")
  let layout ← planChunkSizeLayout inode.attr.size chunkSize
  let attachment (i : Nat) : Result (Option ChunkID) :=
    match (s (.chunkRefs ino)).lookup i with
    | none => .ok none
    | some value => (parseAttachedChunkID value).map some
  let chunkId ← attachment index
  match layout.boundary with
  | none => return ⟨inode, chunkId, none⟩
  | some b => return ⟨inode, chunkId, some ⟨b.index, ← attachment b.index, b.visiblePrefix⟩⟩

/-! ## 書き -/

def setInode (inode : SwordFsInode) : KvTxn Unit :=
  if inode.ino = 0 then Txn.throw (.invalidArgument "invalid inode record")
  else Txn.write (KvCmd.setInode inode)

def clearOrphanMarker (ino : InodeID) : KvTxn Unit := Txn.write (KvCmd.hdelOrphan ino)

def completeReclaim (ino : InodeID) : KvTxn Unit := Txn.write (KvCmd.hdelReclaim ino)

def queuePendingDelete (work : PendingDelete) : KvTxn Unit :=
  Txn.write (KvCmd.hsetPendingDelete work)

section

variable (cx : MetaContext)

def setAttr (ino : InodeID) (requested : SwordFsAttr) (f : SetAttrField) :
    KvTxn SwordFsInode := do
  Txn.failIf f.size (.invalidArgument "size changes require FileReadWriter")
  let inode ← lookupInode ino
  Txn.ofExcept (checkSetAttrPolicy inode.attr f)
  let a := mergeAttr cx.now requested f inode.attr
  let a := if f.ctime then a else a.touch cx.now { ctime := true }
  let next := { inode with attr := a }
  let next ← if f.mode then Txn.ofExcept (syncPosixAccessAclForMode next a.mode) else pure next
  setInode next
  return next

/-- 境界の attachment が前提と同じことを確かめる。`msg` は変わっていたときの message -/
def checkBoundary (ino : InodeID) (boundary : Option ChunkBoundarySnapshot) (msg : String) :
    KvTxn Unit :=
  match boundary with
  | none => pure ()
  | some b => do
    let observed ← lookupAttachment ino b.index
    Txn.failIf (observed ≠ b.chunkId) (.alreadyExists msg)

def extendEof (inode : SwordFsInode) (endOff : Nat) : SwordFsInode :=
  { inode with attr := { inode.attr with size := max inode.attr.size endOff } }.touch cx.now
    { mtime := true, ctime := true }

/-- `AttachPrepared`：準備した ChunkID を取り付け、EOF を進める -/
def attachPrepared (ino : InodeID) (index : Nat) (chunkId : ChunkID) (endOff : Nat)
    (expected : FileSizePrecondition) : KvTxn Unit := do
  Txn.ofExcept (validateFileChunkWrite index chunkId endOff cx.chunkSize)
  Txn.ofExcept (validateFileSizePrecondition expected cx.chunkSize)
  let inode ← lookupInode ino
  Txn.failIf (!inode.isRegular) (.invalidArgument "not a regular file")
  let current ← lookupAttachment ino index
  Txn.ofExcept (checkContentMetadataMutationPolicy inode.attr "attach chunk")
  Txn.failIf (inode.attr.size ≠ expected.eof ∨ current.isSome)
    (.alreadyExists "FileMetadata changed before chunk attachment")
  checkBoundary ino expected.boundary "FileMetadata EOF boundary changed before attachment"
  -- EOF を先に書くので、途中で止まった EXEC が見せるのは穴だけである
  setInode (extendEof cx inode endOff)
  Txn.write (KvCmd.hsetChunkRef ino index chunkId)

/-- `FinalizeAttachedWrite`：取り付け済みの ChunkID への書き込みを EOF に反映する -/
def finalizeAttachedWrite (ino : InodeID) (index : Nat) (chunkId : ChunkID) (endOff : Nat)
    (expected : FileSizePrecondition) : KvTxn Unit := do
  Txn.ofExcept (validateFileChunkWrite index chunkId endOff cx.chunkSize)
  Txn.ofExcept (validateFileSizePrecondition expected cx.chunkSize)
  let inode ← lookupInode ino
  Txn.failIf (!inode.isRegular) (.invalidArgument "not a regular file")
  let current ← lookupAttachment ino index
  Txn.failIf (current ≠ some chunkId)
    (.alreadyExists "FileMetadata attachment changed before finalization")
  checkBoundary ino expected.boundary "FileMetadata EOF boundary changed before finalization"
  Txn.failIf (inode.attr.size ≠ expected.eof)
    (.alreadyExists "FileMetadata EOF changed before finalization")
  Txn.ofExcept (checkContentMetadataMutationPolicy inode.attr "finalize chunk write")
  setInode (extendEof cx inode endOff)

/-- 切り離す mapping を順に cleanup の queue に入れる -/
def queueDetached (ino : InodeID) : List ChunkMapping → KvTxn Unit
  | [] => pure ()
  | m :: ms => do
    let work ← Txn.ofExcept (encodeDetachedDelete cx.chunkType ino m)
    queuePendingDelete work
    queueDetached ino ms

def detachMappings (ino : InodeID) : List ChunkMapping → KvTxn Unit
  | [] => pure ()
  | m :: ms => do
    Txn.write (KvCmd.hdelChunkRef ino m.index)
    detachMappings ino ms

/-- `CommitSizeChange`：EOF の変更と mapping の切り離しを一度に commit する -/
def commitSizeChange (ino : InodeID) (plan : ChunkSizePlan) (requested : SwordFsAttr)
    (f : SetAttrField) (isShrink : Bool) : KvTxn ChunkSizeCommitResult := do
  Txn.failIf (!f.size ∨ requested.size ≠ plan.targetEof)
    (.invalidArgument "typed size commit requires matching SetAttr size and result")
  let snapshot ← readFileMappingSnapshot ino
  let current ← Txn.ofExcept (validateSizeCommitPlan plan snapshot.inode.attr.size cx.chunkSize
    snapshot.mappings isShrink)
  let updated ← Txn.ofExcept (prepareSetAttrMutation cx.now snapshot.inode requested f)
  let oldLayout ← Txn.ofExcept (planChunkSizeLayout snapshot.inode.attr.size cx.chunkSize)
  let newLayout ← Txn.ofExcept (planChunkSizeLayout plan.targetEof cx.chunkSize)
  let detached := snapshot.mappings.filter fun m =>
    (if isShrink then newLayout else oldLayout).shouldDetach m.index
  queueDetached cx ino detached
  -- 縮小は EOF を先に、拡大は切り離しを先に書く
  if isShrink then
    setInode updated
    detachMappings ino detached
  else
    detachMappings ino detached
    setInode updated
  return ⟨updated, detached, current.boundary⟩

def commitShrink (ino : InodeID) (plan : ChunkSizePlan) (requested : SwordFsAttr)
    (f : SetAttrField) : KvTxn ChunkSizeCommitResult :=
  commitSizeChange cx ino plan requested f true

def commitGrow (ino : InodeID) (plan : ChunkSizePlan) (requested : SwordFsAttr)
    (f : SetAttrField) : KvTxn ChunkSizeCommitResult :=
  commitSizeChange cx ino plan requested f false

/-- 回収する inode の mapping。regular file だけが持つ -/
def reclaimMappings (ino : InodeID) (inode : SwordFsInode) : KvTxn (List ChunkMapping) :=
  if inode.isRegular then do
    let snapshot ← readFileMappingSnapshot ino
    return snapshot.mappings
  else pure []

/-- `PrepareReclaim`：最後の link を失った inode を回収する -/
def prepareReclaim (ino : InodeID) : KvTxn (Option ReclaimWork) := do
  match ← findInode ino with
  | none =>
    clearOrphanMarker ino
    return none
  | some inode =>
    if inode.isDir ∨ inode.attr.nlink ≠ 0 then
      -- directory や生き返った inode は回収しない
      clearOrphanMarker ino
      completeReclaim ino
      return none
    else
      let mappings ← reclaimMappings ino inode
      let pending ← Txn.ofExcept (encodeDetachedReclaim cx.chunkType ino mappings)
      -- inode を先に消し、mapping だけが消えた inode を残さない
      Txn.write (KvCmd.delInode ino)
      Txn.write (KvCmd.delChunkRefs ino)
      clearOrphanMarker ino
      Txn.write (KvCmd.hsetReclaim pending)
      return some pending

section

variable (inode : SwordFsInode) (e : Nat)

@[simp] theorem extendEof_ino : (extendEof cx inode e).ino = inode.ino := rfl
@[simp] theorem extendEof_size : (extendEof cx inode e).attr.size = max inode.attr.size e := rfl
@[simp] theorem extendEof_inodeFlags :
    (extendEof cx inode e).attr.inodeFlags = inode.attr.inodeFlags := rfl
@[simp] theorem extendEof_nlink : (extendEof cx inode e).attr.nlink = inode.attr.nlink := rfl
@[simp] theorem extendEof_isRegular : (extendEof cx inode e).isRegular = inode.isRegular := rfl

end

end

end SwordFS.Metadata
