import Mathlib.Data.List.AList
import SwordFS.Utils.Status

/-!
# metadata の型

`src/metadata/types` の record を写す。
識別子と大きさは自然数で表し、範囲の検査は code が行う所にそのまま書く。
永続化の byte 表現は扱わず、store には record そのものが入る。
-/

namespace SwordFS.Metadata

abbrev InodeID := Nat
abbrev ChunkID := Nat
abbrev Bytes := List UInt8

abbrev Hash (κ ν : Type) := AList (fun _ : κ => ν)

def kRootInodeId : InodeID := 1

def kMaxSupportedFileSize : Nat := 2 ^ 63 - 1

def kMaxChunkIDValue : Nat := 2 ^ 63 - 1

def kMaxNameLength : Nat := 255

/-- `SetAttrField` の bit の集合 -/
structure SetAttrField where
  mode : Bool := false
  uid : Bool := false
  gid : Bool := false
  size : Bool := false
  atime : Bool := false
  mtime : Bool := false
  atimeNow : Bool := false
  mtimeNow : Bool := false
  ctime : Bool := false
  killSuidGid : Bool := false
deriving DecidableEq, Repr

/-- `InodeFlag` の bit の集合 -/
structure InodeFlag where
  immutable : Bool := false
  appendOnly : Bool := false
deriving DecidableEq, Repr

/-- `RenameFlag` の bit の集合。`unsupported` は定義されていない bit のどれか -/
structure RenameFlag where
  noReplace : Bool := false
  exchange : Bool := false
  unsupported : Bool := false
deriving DecidableEq, Repr

/-! ## mode の bit -/

abbrev Mode := BitVec 32

def sIfmt : Mode := 0xF000#32
def sIfsock : Mode := 0xC000#32
def sIflnk : Mode := 0xA000#32
def sIfreg : Mode := 0x8000#32
def sIfblk : Mode := 0x6000#32
def sIfdir : Mode := 0x4000#32
def sIfchr : Mode := 0x2000#32
def sIfifo : Mode := 0x1000#32
def sIsuid : Mode := 0x800#32
def sIsgid : Mode := 0x400#32
def sIsvtx : Mode := 0x200#32
def sIxgrp : Mode := 0x8#32

def isDirMode (m : Mode) : Bool := m &&& sIfmt == sIfdir
def isRegMode (m : Mode) : Bool := m &&& sIfmt == sIfreg
def isLnkMode (m : Mode) : Bool := m &&& sIfmt == sIflnk

/-! ## inode -/

/-- 秒と nanosecond -/
structure TimeSpec where
  sec : Int := 0
  nsec : Int := 0
deriving DecidableEq, Repr

/-- `SwordFsAttr`。`ino` は `SwordFsInode` と同じ値なので持たない -/
structure SwordFsAttr where
  mode : Mode := 0
  nlink : Nat := 0
  uid : Nat := 0
  gid : Nat := 0
  rdev : Nat := 0
  size : Nat := 0
  blksize : Nat := 0
  atime : TimeSpec := {}
  mtime : TimeSpec := {}
  ctime : TimeSpec := {}
  btime : TimeSpec := {}
  inodeFlags : InodeFlag := {}
deriving DecidableEq, Repr

structure SwordFsInode where
  ino : InodeID
  attr : SwordFsAttr
  parentIno : InodeID := 0
  symlinkTarget : String := ""
  xattrs : Hash String Bytes := ∅
deriving DecidableEq

namespace SwordFsAttr

/-- 新しい inode の属性。`now` は秒単位の現在時刻 -/
def create (now : Int) (mode : Mode) (uid gid : Nat) : SwordFsAttr where
  mode := mode
  nlink := if isDirMode mode then 2 else 1
  uid := uid
  gid := gid
  size := if isDirMode mode then 4096 else 0
  blksize := 4096
  atime := ⟨now, 0⟩
  mtime := ⟨now, 0⟩
  ctime := ⟨now, 0⟩
  btime := ⟨now, 0⟩

def clearSetidForKillPriv (mode : Mode) : Mode :=
  let mode := mode &&& ~~~sIsuid
  if mode &&& sIxgrp != 0 then mode &&& ~~~sIsgid else mode

/-- `Touch`：指定された時刻を現在時刻にする -/
def touch (now : Int) (fields : SetAttrField) (a : SwordFsAttr) : SwordFsAttr :=
  { a with
    atime := if fields.atime then ⟨now, 0⟩ else a.atime
    mtime := if fields.mtime then ⟨now, 0⟩ else a.mtime
    ctime := if fields.ctime then ⟨now, 0⟩ else a.ctime }

variable (now : Int) (fields : SetAttrField) (a : SwordFsAttr)

@[simp] theorem touch_mode : (a.touch now fields).mode = a.mode := rfl
@[simp] theorem touch_nlink : (a.touch now fields).nlink = a.nlink := rfl
@[simp] theorem touch_size : (a.touch now fields).size = a.size := rfl
@[simp] theorem touch_inodeFlags : (a.touch now fields).inodeFlags = a.inodeFlags := rfl

end SwordFsAttr

namespace SwordFsInode

def isDir (i : SwordFsInode) : Bool := isDirMode i.attr.mode
def isRegular (i : SwordFsInode) : Bool := isRegMode i.attr.mode
def isSymlink (i : SwordFsInode) : Bool := isLnkMode i.attr.mode

def touch (now : Int) (fields : SetAttrField) (i : SwordFsInode) : SwordFsInode :=
  { i with attr := i.attr.touch now fields }

def checkStickyDelete (dir : SwordFsInode) (uid : Nat) (target : SwordFsInode) : Bool :=
  if dir.attr.mode &&& sIsvtx == 0 then true
  else uid == 0 || uid == dir.attr.uid || uid == target.attr.uid

variable (now : Int) (fields : SetAttrField) (i : SwordFsInode)

@[simp] theorem touch_ino : (i.touch now fields).ino = i.ino := rfl
@[simp] theorem touch_parentIno : (i.touch now fields).parentIno = i.parentIno := rfl
@[simp] theorem touch_attr : (i.touch now fields).attr = i.attr.touch now fields := rfl
@[simp] theorem touch_isDir : (i.touch now fields).isDir = i.isDir := rfl
@[simp] theorem touch_isRegular : (i.touch now fields).isRegular = i.isRegular := rfl

end SwordFsInode

/-! ## directory entry -/

/-- `dirent` の種別 -/
inductive Dt where
  | unknown | fifo | chr | dir | blk | reg | lnk | sock
deriving DecidableEq, Repr

def modeToDt (mode : Mode) : Dt :=
  let t := mode &&& sIfmt
  if t == sIfdir then .dir
  else if t == sIfreg then .reg
  else if t == sIflnk then .lnk
  else if t == sIfblk then .blk
  else if t == sIfchr then .chr
  else if t == sIfifo then .fifo
  else if t == sIfsock then .sock
  else .unknown

structure SwordFsEntry where
  name : String
  type : Dt
  ino : InodeID
deriving DecidableEq, Repr

/-! ## FileMetadata の mapping -/

/-- chunk の番号とそこに取り付けられた ChunkID -/
structure ChunkMapping where
  index : Nat
  chunkId : ChunkID
deriving DecidableEq, Repr

/-- EOF を内部に含む chunk の写し。`chunkId` が無い位置は穴 -/
structure ChunkBoundarySnapshot where
  index : Nat
  chunkId : Option ChunkID
  visiblePrefix : Nat
deriving DecidableEq, Repr

/-- 取り付けられた ChunkID の境界 -/
structure RetainedChunkBoundary where
  index : Nat
  chunkId : ChunkID
  visiblePrefix : Nat
deriving DecidableEq, Repr

/-- 公開の前に再検査する古い EOF と境界 -/
structure FileSizePrecondition where
  eof : Nat
  boundary : Option ChunkBoundarySnapshot
deriving DecidableEq, Repr

structure FileChunkSnapshot where
  inode : SwordFsInode
  chunkId : Option ChunkID
  eofBoundary : Option ChunkBoundarySnapshot
deriving DecidableEq

structure FileMappingSnapshot where
  inode : SwordFsInode
  mappings : List ChunkMapping
deriving DecidableEq

structure ChunkSizeCommitResult where
  inode : SwordFsInode
  detached : List ChunkMapping
  boundary : Option RetainedChunkBoundary
deriving DecidableEq

/-! ## background の cleanup -/

/-- volume の chunk の方式 -/
inductive ChunkType where
  | chunkSlice | cow
deriving DecidableEq, Repr

/--
`PendingDelete::id`。queue の中の識別子であり、
順に `slice:chunk:<id>`、`cow:chunk:<id>`、`cow:revision:<id>:<revision>` の形を持つ。
-/
inductive CleanupId where
  | sliceChunk (id : ChunkID)
  | cowChunk (id : ChunkID)
  | cowRevision (id : ChunkID) (revision : Nat)
deriving DecidableEq, Repr

/-- `PendingDelete::payload` -/
inductive CleanupPayload where
  | detached (ino : InodeID) (m : ChunkMapping)
  | revision (id : ChunkID) (revision : Nat)
deriving DecidableEq, Repr

/-- 切り離された chunk や古い revision の削除候補 -/
structure PendingDelete where
  id : CleanupId
  payload : CleanupPayload
deriving DecidableEq, Repr

/-- 回収された inode が持っていた mapping -/
structure ReclaimWork where
  ino : InodeID
  mappings : List ChunkMapping
deriving DecidableEq, Repr

end SwordFS.Metadata
