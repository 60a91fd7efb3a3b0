import SwordFS.Metadata.Redis.FileTxn

/-!
# directory の transaction

`RedisMetaTxn.cpp` のうち、directory entry と link count を動かす部分を写す。
C++ が pointer で受け取って書き換える inode は、書き換えた後の値を返す形にした。

`IsDescendantOf` の loop は親を辿る歩数 `steps` を上限とする。
歩数が尽きた実行は、まだ戻っていない呼び出しを表す。
-/

namespace SwordFS.Metadata

open Infra

/-! ## 読み -/

def parseEntry (e : SwordFsEntry) : Result Unit :=
  Result.failIf (e.name = "" ∨ e.ino = 0) (.malformed "Malformed directory entry record")

def findEntry (parent : SwordFsInode) (name : String) : KvTxn (Option SwordFsInode) := do
  Txn.failIf (!parent.isDir) (.notDirectory "parent is not a directory")
  let dir ← KvTxn.getDirectory parent.ino
  match dir.lookup name with
  | none => pure none
  | some e => do
    Txn.ofExcept (parseEntry e)
    match ← findInode e.ino with
    | none => Txn.throw (.malformed "directory entry references missing inode")
    | some inode => pure (some inode)

def lookupEntry (parent : SwordFsInode) (name : String) : KvTxn SwordFsInode := do
  match ← findEntry parent name with
  | none => Txn.throw (.notFound "Redis hash field not found")
  | some inode => pure inode

/-- `IsDescendantOf` の loop。`visited` は既に通った inode -/
def ancestorWalk (ancestor : InodeID) : Nat → List InodeID → InodeID → KvTxn Bool
  | 0, _, _ => Txn.throw (.internal "ancestor walk has not returned")
  | steps + 1, visited, current =>
    if current = 0 then pure false
    else if current ∈ visited then Txn.throw (.malformed "directory parent cycle detected")
    else if current = ancestor then pure true
    else do
      let inode ← lookupInode current
      if inode.parentIno = current then pure false
      else ancestorWalk ancestor steps (current :: visited) inode.parentIno

/-- `IsDescendantOf`：`child` から親を辿って `ancestor` に着くか -/
def isDescendantOf (steps : Nat) (ancestor child : InodeID) : KvTxn Bool :=
  ancestorWalk ancestor steps [] child

/-! ## entry と link count -/

/-- `SwordFsEntry::SerializeTo` の検査をして HSET する -/
def putEntry (parentIno : InodeID) (name : String) (child : SwordFsInode) : KvTxn Unit := do
  Txn.failIf (name = "" ∨ child.ino = 0) (.invalidArgument "Invalid directory entry record")
  Txn.write (KvCmd.hsetDirectory parentIno name ⟨name, modeToDt child.attr.mode, child.ino⟩)

def touchEntry (now : Int) (parent : SwordFsInode) : SwordFsInode :=
  parent.touch now { mtime := true, ctime := true }

def withNlink (inode : SwordFsInode) (nlink : Nat) : SwordFsInode :=
  { inode with attr := { inode.attr with nlink } }

def adjustNlink (inode : SwordFsInode) (delta : Int) : Result SwordFsInode := do
  Result.failIf ((inode.attr.nlink : Int) + delta < 0) (.malformed "inode link count underflow")
  return withNlink inode (inode.attr.nlink + delta).toNat

def linkEntry (now : Int) (parentIno : InodeID) (name : String) (child parent : SwordFsInode) :
    KvTxn SwordFsInode := do
  Txn.failIf (!parent.isDir) (.notDirectory "parent is not a directory")
  putEntry parentIno name child
  return touchEntry now
    (if child.isDir then withNlink parent (parent.attr.nlink + 1) else parent)

def detachEntry (now : Int) (parentIno : InodeID) (name : String) (target parent : SwordFsInode) :
    KvTxn SwordFsInode := do
  Txn.failIf (!parent.isDir) (.notDirectory "parent is not a directory")
  Txn.failIf (target.isDir ∧ parent.attr.nlink ≤ 2)
    (.malformed "directory parent link count underflow")
  Txn.write (KvCmd.hdelDirectory parentIno name)
  return touchEntry now
    (if target.isDir then withNlink parent (parent.attr.nlink - 1) else parent)

def replaceEntry (now : Int) (parentIno : InodeID) (name : String) (child parent : SwordFsInode) :
    KvTxn SwordFsInode := do
  Txn.failIf (!parent.isDir) (.notDirectory "parent is not a directory")
  putEntry parentIno name child
  return touchEntry now parent

def deleteInode (ino : InodeID) : KvTxn Unit := do
  Txn.write (KvCmd.delInode ino)
  Txn.write (KvCmd.incrInodeCount (-1))

/-! ## entry を足す、外す -/

def addEntry (now : Int) (parentIno : InodeID) (name : String) (child parent : SwordFsInode) :
    KvTxn Unit := do
  Txn.failIf (parent.ino ≠ parentIno ∨ child.parentIno ≠ parentIno)
    (.invalidArgument "entry parent mismatch")
  Txn.ofExcept (checkDirectoryAdditionPolicy parent.attr)
  let dir ← KvTxn.getDirectory parentIno
  match dir.lookup name with
  | some e => do
    Txn.ofExcept (parseEntry e)
    match ← findInode e.ino with
    | none => Txn.throw (.malformed "directory entry references missing inode")
    | some _ => Txn.throw (.alreadyExists "entry already exists")
  | none => do
    setInode child
    let parent ← linkEntry now parentIno name child parent
    setInode parent
    Txn.write (KvCmd.incrInodeCount 1)

/-- 最後の名前を失った inode を orphan の候補にする -/
def markOrphan (child : SwordFsInode) : KvTxn Unit :=
  if child.attr.nlink = 0 then Txn.write (KvCmd.hsetOrphan child.ino) else pure ()

def unlinkFile (now : Int) (parentIno : InodeID) (name : String) (parent child : SwordFsInode) :
    KvTxn SwordFsInode := do
  Txn.failIf (parent.ino ≠ parentIno) (.invalidArgument "entry parent mismatch")
  Txn.failIf child.isDir (.invalidArgument "cannot unlink directory")
  Txn.ofExcept (checkDirectoryRemovalPolicy parent.attr)
  Txn.ofExcept (checkContentMetadataMutationPolicy child.attr "unlink")
  let child ← Txn.ofExcept (adjustNlink child (-1))
  let child := child.touch now { ctime := true }
  let parent ← detachEntry now parentIno name child parent
  setInode parent
  setInode child
  markOrphan child
  return parent

def removeDirectory (now : Int) (parentIno : InodeID) (name : String)
    (parent child : SwordFsInode) : KvTxn SwordFsInode := do
  Txn.failIf (parent.ino ≠ parentIno ∨ child.parentIno ≠ parentIno)
    (.invalidArgument "entry parent mismatch")
  Txn.failIf (!child.isDir) (.notDirectory "not a directory")
  Txn.ofExcept (checkDirectoryRemovalPolicy parent.attr)
  Txn.ofExcept (checkContentMetadataMutationPolicy child.attr "rmdir")
  let dir ← KvTxn.getDirectory child.ino
  Txn.failIf (dir.entries.length ≠ 0) (.notEmpty "directory not empty")
  let parent ← detachEntry now parentIno name child parent
  deleteInode child.ino
  setInode parent
  return parent

def clearRevived (wasOrphan : Bool) (ino : InodeID) : KvTxn Unit :=
  if wasOrphan then clearOrphanMarker ino else pure ()

/-- `LinkExistingEntry`。書き換えた inode を返す -/
def linkExistingEntry (now : Int) (parentIno : InodeID) (name : String)
    (parent inode : SwordFsInode) : KvTxn SwordFsInode := do
  Txn.failIf (parent.ino ≠ parentIno) (.invalidArgument "entry parent mismatch")
  Txn.failIf (!parent.isDir) (.notDirectory "parent is not a directory")
  Txn.failIf inode.isDir (.notPermitted "cannot hard-link directory")
  Txn.ofExcept (checkDirectoryAdditionPolicy parent.attr)
  Txn.ofExcept (checkContentMetadataMutationPolicy inode.attr "link")
  match ← findEntry parent name with
  | some _ => Txn.throw (.alreadyExists "entry already exists")
  | none => do
    let parent ← linkEntry now parentIno name inode parent
    let linked ← Txn.ofExcept (adjustNlink inode 1)
    clearRevived (inode.attr.nlink = 0) inode.ino
    let linked := linked.touch now { ctime := true }
    setInode parent
    setInode linked
    return linked

/-! ## rename -/

/--
rename の二つの parent。`other = none` は、C++ の二つの pointer が同じ object を指す場合である。
-/
structure RenameParents where
  old : SwordFsInode
  other : Option SwordFsInode

namespace RenameParents

def new (p : RenameParents) : SwordFsInode := p.other.getD p.old

def setOld (p : RenameParents) (n : SwordFsInode) : RenameParents := { p with old := n }

/-- 移動先の parent を書き換える。同じ object なら移動元も変わる -/
def setNew (p : RenameParents) (n : SwordFsInode) : RenameParents :=
  match p.other with
  | none => { p with old := n }
  | some _ => { p with other := some n }

def store (p : RenameParents) : KvTxn Unit := do
  setInode p.old
  match p.other with
  | none => pure ()
  | some n => setInode n

end RenameParents

/-- 移動先の名前と移動元の名前 -/
structure RenameNames where
  oldParentIno : InodeID
  oldName : String
  newParentIno : InodeID
  newName : String

def checkParents (op : String) (r : RenameNames) (p : RenameParents) : KvTxn Unit := do
  Txn.failIf (p.old.ino ≠ r.oldParentIno ∨ p.new.ino ≠ r.newParentIno)
    (.invalidArgument (op ++ " parent mismatch"))
  Txn.failIf ((r.oldParentIno = r.newParentIno) ≠ (p.other = none))
    (.invalidArgument (op ++ " parent state mismatch"))
  Txn.failIf (!p.old.isDir || !p.new.isDir)
    (.notDirectory (op ++ " parent is not a directory"))

def checkDestination (steps : Nat) (msg : String) (inode : SwordFsInode) (parentIno : InodeID) :
    KvTxn Unit := do
  if inode.isDir then
    let cycle ← isDescendantOf steps inode.ino parentIno
    Txn.failIf cycle (.invalidArgument msg)
  else pure ()

/-- `MoveEntry` の後半：source の entry を付け替える -/
def relocate (now : Int) (r : RenameNames) (p : RenameParents) (source : SwordFsInode) :
    KvTxn Unit := do
  let old ← detachEntry now r.oldParentIno r.oldName source p.old
  let p := p.setOld old
  let new ← linkEntry now r.newParentIno r.newName source p.new
  let p := p.setNew new
  let source := { source with parentIno := r.newParentIno }.touch now { ctime := true }
  p.store
  setInode source

def moveEntry (now : Int) (steps : Nat) (r : RenameNames) (p : RenameParents)
    (source : SwordFsInode) (target : Option SwordFsInode) (overwrite : Bool) : KvTxn Unit := do
  checkParents "rename" r p
  Txn.ofExcept (checkDirectoryRemovalPolicy p.old.attr)
  Txn.ofExcept (checkDirectoryAdditionPolicy p.new.attr)
  Txn.ofExcept (checkContentMetadataMutationPolicy source.attr "rename")
  checkDestination steps "cannot move directory into its descendant" source r.newParentIno
  match target with
  | none => relocate now r p source
  | some target => do
    Txn.failIf (!overwrite) (.alreadyExists "target entry exists")
    if target.ino = source.ino then pure ()
    else do
      Txn.ofExcept (checkDirectoryRemovalPolicy p.new.attr)
      Txn.ofExcept (checkContentMetadataMutationPolicy target.attr "rename replacement")
      Txn.failIf (source.isDir ≠ target.isDir)
        (if source.isDir then .notDirectory "target is not a directory"
          else .isDirectory "target is a directory")
      let new ← if target.isDir then removeDirectory now r.newParentIno r.newName p.new target
        else unlinkFile now r.newParentIno r.newName p.new target
      relocate now r (p.setNew new) source

/-- 異なる parent の間の exchange で、子 directory の差だけ link count を動かす -/
def balanceParents (p : RenameParents) (source target : SwordFsInode) : Result RenameParents :=
  match p.other with
  | none => .ok p
  | some new =>
    let delta : Int := target.isDir.toNat - source.isDir.toNat
    if delta = 0 then .ok p
    else do
      let old ← adjustNlink p.old delta
      let new ← adjustNlink new (-delta)
      return ⟨old, some new⟩

def exchangeEntries (now : Int) (steps : Nat) (r : RenameNames) (p : RenameParents)
    (source target : SwordFsInode) : KvTxn Unit := do
  checkParents "exchange" r p
  Txn.ofExcept (checkDirectoryRemovalPolicy p.old.attr)
  Txn.ofExcept (checkDirectoryRemovalPolicy p.new.attr)
  Txn.ofExcept (checkContentMetadataMutationPolicy source.attr "rename exchange")
  Txn.ofExcept (checkContentMetadataMutationPolicy target.attr "rename exchange")
  if source.ino = target.ino then pure ()
  else do
    checkDestination steps "cannot exchange directory into its descendant" source r.newParentIno
    checkDestination steps "cannot exchange directory into its descendant" target r.oldParentIno
    let p ← Txn.ofExcept (balanceParents p source target)
    let old ← replaceEntry now r.oldParentIno r.oldName target p.old
    let p := p.setOld old
    let new ← replaceEntry now r.newParentIno r.newName source p.new
    let p := p.setNew new
    let source := { source with parentIno := r.newParentIno }.touch now { ctime := true }
    let target := { target with parentIno := r.oldParentIno }.touch now { ctime := true }
    p.store
    setInode source
    setInode target

end SwordFS.Metadata
