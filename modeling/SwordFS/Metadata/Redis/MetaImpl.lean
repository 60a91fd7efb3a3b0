import SwordFS.Metadata.Redis.NamespaceTxn

/-!
# namespace の操作

`RedisMetaImpl.cpp` の Create、MkNod、MkDir、Symlink、Link、Unlink、RmDir、Rename を写す。
新しい inode の番号は transaction の前に `AllocateInode` が取り、引数として渡る。
-/

namespace SwordFS.Metadata

open Infra

/-- `SwordFsContext`：呼び出し元 -/
structure SwordFsContext where
  uid : Nat
  gid : Nat
  umask : Mode
deriving DecidableEq, Repr

/-! ## 引数の検査 -/

def validateNameComponent (name : String) : Result Unit :=
  Result.failIf (kMaxNameLength < name.utf8ByteSize) (.nameTooLong "name exceeds maximum length")

def validateMknodMode (mode : Mode) : Result Unit :=
  Result.failIf (mode &&& sIfmt ∉ [sIfreg, sIfifo, sIfchr, sIfblk, sIfsock])
    (.invalidArgument "unsupported mknod file type")

def normalizeMknodRdev (mode : Mode) (rdev : Nat) : Nat :=
  if mode &&& sIfmt = sIfchr ∨ mode &&& sIfmt = sIfblk then rdev else 0

/-- `ResolveCreateInheritance` の結果 -/
structure CreateInheritance where
  gid : Nat
  mode : Mode

def resolveCreateInheritance (callerGid : Nat) (parent : SwordFsAttr) (childMode : Mode) :
    CreateInheritance :=
  if parent.mode &&& sIsgid != 0 then
    ⟨parent.gid, if isDirMode childMode then childMode ||| sIsgid else childMode⟩
  else ⟨callerGid, childMode⟩

/-! ## 操作 -/

variable (ctx : SwordFsContext) (now : Int)

/-- 親を読み、directory であることを確かめる -/
def lookupParent (ino : InodeID) (msg : String) : KvTxn SwordFsInode := do
  let parent ← lookupInode ino
  Txn.failIf (!parent.isDir) (.notDirectory msg)
  return parent

def createNode (childIno parentIno : InodeID) (name : String) (mode : Mode) (rdev : Nat) :
    KvTxn SwordFsInode := do
  let parent ← lookupParent parentIno "parent is not a directory"
  let inheritance := resolveCreateInheritance ctx.gid parent.attr mode
  let attr := SwordFsAttr.create now inheritance.mode ctx.uid inheritance.gid
  let child ← Txn.ofExcept (applyPosixAclCreateInheritance parent ctx.umask
    { ino := childIno, attr := { attr with rdev }, parentIno })
  addEntry now parentIno name child parent
  return child

def create (childIno parentIno : InodeID) (name : String) (mode : Mode) :
    KvTxn SwordFsInode := do
  Txn.ofExcept (validateNameComponent name)
  createNode ctx now childIno parentIno name (sIfreg ||| (mode &&& 0xFFF#32)) 0

def mkNod (childIno parentIno : InodeID) (name : String) (mode : Mode) (rdev : Nat) :
    KvTxn SwordFsInode := do
  Txn.ofExcept (validateNameComponent name)
  Txn.ofExcept (validateMknodMode mode)
  createNode ctx now childIno parentIno name mode (normalizeMknodRdev mode rdev)

def mkDir (childIno parentIno : InodeID) (name : String) (mode : Mode) :
    KvTxn SwordFsInode := do
  Txn.ofExcept (validateNameComponent name)
  createNode ctx now childIno parentIno name (sIfdir ||| (mode &&& 0x1FF#32)) 0

def symlink (childIno parentIno : InodeID) (name link : String) : KvTxn SwordFsInode := do
  Txn.ofExcept (validateNameComponent name)
  let parent ← lookupParent parentIno "parent is not a directory"
  let inheritance := resolveCreateInheritance ctx.gid parent.attr (sIflnk ||| 0x1FF#32)
  let attr := SwordFsAttr.create now inheritance.mode ctx.uid inheritance.gid
  let child : SwordFsInode := {
    ino := childIno
    attr := { attr with size := link.utf8ByteSize }
    parentIno
    symlinkTarget := link }
  addEntry now parentIno name child parent
  return child

def link (ino newParentIno : InodeID) (newName : String) : KvTxn SwordFsInode := do
  Txn.ofExcept (validateNameComponent newName)
  let inode ← lookupInode ino
  Txn.failIf inode.isDir (.notPermitted "cannot hard-link directory")
  let parent ← lookupParent newParentIno "new parent is not a directory"
  linkExistingEntry now newParentIno newName parent inode

def unlink (parentIno : InodeID) (name : String) (expectedIno : Option InodeID) :
    KvTxn Unit := do
  Txn.ofExcept (validateNameComponent name)
  Txn.failIf (name = "." ∨ name = "..") (.invalidArgument "cannot unlink . or ..")
  let parent ← lookupParent parentIno "parent is not a directory"
  let child ← lookupEntry parent name
  Txn.failIf (expectedIno.any (child.ino != ·))
    (.busy "temporary entry inode changed before unlink")
  Txn.failIf child.isDir (.invalidArgument "cannot unlink directory")
  Txn.failIf (!parent.checkStickyDelete ctx.uid child) (.permission "sticky bit denied")
  let _ ← unlinkFile now parentIno name parent child

def rmDir (parentIno : InodeID) (name : String) : KvTxn Unit := do
  Txn.ofExcept (validateNameComponent name)
  Txn.failIf (name = "." ∨ name = "..") (.invalidArgument "cannot remove . or ..")
  let parent ← lookupParent parentIno "parent is not a directory"
  let child ← lookupEntry parent name
  Txn.failIf (!child.isDir) (.notDirectory "not a directory")
  Txn.failIf (!parent.checkStickyDelete ctx.uid child) (.permission "sticky bit denied")
  let _ ← removeDirectory now parentIno name parent child

/-- rename の二つの parent を読む。同じ番号なら一度しか読まない -/
def lookupParents (r : RenameNames) : KvTxn RenameParents := do
  let old ← lookupParent r.oldParentIno "old parent is not a directory"
  if r.newParentIno = r.oldParentIno then pure ⟨old, none⟩
  else do
    let new ← lookupParent r.newParentIno "new parent is not a directory"
    pure ⟨old, some new⟩

def renameResolved (steps : Nat) (r : RenameNames) (flags : RenameFlag) (p : RenameParents)
    (source : SwordFsInode) (target : Option SwordFsInode) : KvTxn Unit := do
  Txn.failIf (flags.noReplace ∧ target.isSome) (.alreadyExists "target entry exists")
  if target.any (·.ino == source.ino) then pure ()
  else do
    Txn.failIf (target.any (!p.new.checkStickyDelete ctx.uid ·))
      (.permission "sticky bit denied on target")
    if flags.exchange then
      match target with
      | none => Txn.throw (.notFound "target does not exist for RENAME_EXCHANGE")
      | some target => exchangeEntries now steps r p source target
    else moveEntry now steps r p source target (!flags.noReplace)

def rename (steps : Nat) (r : RenameNames) (flags : RenameFlag) : KvTxn Unit := do
  Txn.ofExcept (validateNameComponent r.oldName)
  Txn.ofExcept (validateNameComponent r.newName)
  Txn.failIf (r.oldName = "." ∨ r.oldName = ".." ∨ r.newName = "." ∨ r.newName = "..")
    (.busy "cannot rename . or ..")
  Txn.failIf flags.unsupported (.invalidArgument "unsupported rename flags")
  Txn.failIf (flags.noReplace ∧ flags.exchange)
    (.invalidArgument "RENAME_NOREPLACE and RENAME_EXCHANGE cannot be combined")
  let p ← lookupParents r
  let source ← lookupEntry p.old r.oldName
  Txn.failIf (!p.old.checkStickyDelete ctx.uid source) (.permission "sticky bit denied on source")
  let target ← findEntry p.new r.newName
  renameResolved ctx now steps r flags p source target

/-! ## volume の初期化 -/

/-- `FormatVolume` が書く root。所有者は format を実行した process -/
def rootInode (uid gid : Nat) : SwordFsInode where
  ino := kRootInodeId
  attr := SwordFsAttr.create now (sIfdir ||| 0x1ED#32) uid gid
  parentIno := kRootInodeId

def formattedStore (uid gid : Nat) : Redis
  | .inode ino => if ino = kRootInodeId then some (rootInode now uid gid) else none
  | .directory _ => (∅ : Hash String SwordFsEntry)
  | .chunkRefs _ => (∅ : Hash Nat ChunkID)
  | .orphans => (∅ : Hash InodeID Unit)
  | .reclaims => (∅ : Hash InodeID ReclaimWork)
  | .pendingDeletes => (∅ : Hash CleanupId PendingDelete)
  | .inodeCount => (1 : Int)

end SwordFS.Metadata
