import SwordFS.Metadata.Redis.FileTxn

/-!
# xattr の操作

`PosixAcl.cpp` の `SetPosixAclXAttr` と `RemovePosixAclXAttr`、
`types/Inode.cpp` の `SetXAttr` と `RemoveXAttr`、それらを commit する transaction を写す。
C++ が pointer で受け取って書き換える inode は、書き換えた後の値を返す形にした。
C++ はすべての検査の後で初めて書き換えるので、失敗した呼び出しの inode は元のままである。
-/

namespace SwordFS.Metadata

open Infra

def kMaxXAttrNameLength : Nat := 255
def kMaxXAttrValueSize : Nat := 64 * 1024
def kMaxXAttrListSize : Nat := 64 * 1024

inductive XAttrSetMode where
  | upsert | createOnly | replaceOnly
deriving DecidableEq, Repr

def isPosixAclXAttrName (name : String) : Bool :=
  name == kPosixAclAccessXAttr || name == kPosixAclDefaultXAttr

/-! ## 検査 -/

def checkSetMode (inode : SwordFsInode) (name : String) : XAttrSetMode → Result Unit
  | .upsert => .ok ()
  | .createOnly => Result.failIf (name ∈ inode.xattrs) (.alreadyExists "xattr already exists")
  | .replaceOnly => Result.failIf (name ∉ inode.xattrs) (.noData "xattr not found")

/-- listxattr が返す名前の列の大きさ。名前ごとに終端の NUL が付く -/
def xattrListBytes (inode : SwordFsInode) : Nat :=
  (inode.xattrs.keys.map (·.utf8ByteSize + 1)).sum

/-- `CheckInsertListSize`：名前が増えるときだけ、名前の列の大きさを検査する -/
def checkInsertListSize (inode : SwordFsInode) (name : String) : Result Unit :=
  Result.failIf (name ∉ inode.xattrs ∧
      kMaxXAttrListSize < name.utf8ByteSize + 1 + xattrListBytes inode)
    (.range "xattr name list exceeds maximum size")

/-- `SetPosixAclXAttr` と `RemovePosixAclXAttr` に共通の、ACL を持てる inode かの検査 -/
def checkPosixAclTarget (inode : SwordFsInode) (name : String) : Result Unit := do
  Result.failIf (!isPosixAclXAttrName name) (.invalidArgument "not a POSIX ACL xattr")
  Result.failIf inode.isSymlink
    (.operationNotSupported "POSIX ACLs are not supported on symlinks")
  Result.failIf (name = kPosixAclDefaultXAttr ∧ !inode.isDir)
    (.permission "default POSIX ACL requires a directory")

/-! ## inode の更新 -/

variable (now : Int)

def touchCtime (inode : SwordFsInode) : SwordFsInode := inode.touch now { ctime := true }

/-- 検査を終えた ACL を inode に書く。最小の access ACL は mode だけで表す -/
def storePosixAcl (inode : SwordFsInode) (name : String) (acl : List AclEntry) : SwordFsInode :=
  if name = kPosixAclAccessXAttr then
    { inode with
      attr := { inode.attr with mode := (inode.attr.mode &&& ~~~0x1FF#32) ||| aclPermissionsMode acl }
      xattrs := if aclIsMinimal acl then inode.xattrs.erase name
        else inode.xattrs.insert name (serializeAcl acl) }
  else { inode with xattrs := inode.xattrs.insert name (serializeAcl acl) }

def setPosixAclXAttr (inode : SwordFsInode) (name : String) (value : Bytes) (mode : XAttrSetMode) :
    Result SwordFsInode := do
  checkPosixAclTarget inode name
  Result.failIf (kMaxXAttrValueSize < value.length) (.range "xattr value exceeds maximum size")
  checkSetMode inode name mode
  let acl ← parseAcl value
  if name = kPosixAclDefaultXAttr ∨ !aclIsMinimal acl then
    checkInsertListSize inode name
  return touchCtime now (storePosixAcl inode name acl)

def removePosixAclXAttr (inode : SwordFsInode) (name : String) : Result SwordFsInode := do
  checkPosixAclTarget inode name
  Result.failIf (name ∉ inode.xattrs) (.noData "POSIX ACL xattr not found")
  return touchCtime now { inode with xattrs := inode.xattrs.erase name }

namespace SwordFsInode

def setXAttr (inode : SwordFsInode) (name : String) (value : Bytes) (mode : XAttrSetMode) :
    Result SwordFsInode :=
  if isPosixAclXAttrName name then setPosixAclXAttr now inode name value mode
  else do
    Result.failIf (name = "") (.invalidArgument "xattr name is empty")
    Result.failIf (kMaxXAttrNameLength < name.utf8ByteSize)
      (.range "xattr name exceeds maximum length")
    Result.failIf (kMaxXAttrValueSize < value.length) (.range "xattr value exceeds maximum size")
    checkSetMode inode name mode
    checkInsertListSize inode name
    return touchCtime now { inode with xattrs := inode.xattrs.insert name value }

def removeXAttr (inode : SwordFsInode) (name : String) : Result SwordFsInode :=
  if isPosixAclXAttrName name then removePosixAclXAttr now inode name
  else do
    Result.failIf (kMaxXAttrNameLength < name.utf8ByteSize)
      (.range "xattr name exceeds maximum length")
    Result.failIf (name ∉ inode.xattrs) (.noData "xattr not found")
    return touchCtime now { inode with xattrs := inode.xattrs.erase name }

end SwordFsInode

/-! ## transaction -/

def setXAttr (ino : InodeID) (name : String) (value : Bytes) (mode : XAttrSetMode) :
    KvTxn Unit := do
  let inode ← lookupInode ino
  Txn.ofExcept (checkContentMetadataMutationPolicy inode.attr "setxattr")
  let next ← Txn.ofExcept (inode.setXAttr now name value mode)
  setInode next

def removeXAttr (ino : InodeID) (name : String) : KvTxn Unit := do
  let inode ← lookupInode ino
  Txn.ofExcept (checkContentMetadataMutationPolicy inode.attr "removexattr")
  let next ← Txn.ofExcept (inode.removeXAttr now name)
  setInode next

/-! ## 成功した更新の形 -/

variable {now : Int} {inode next : SwordFsInode} {name : String} {value : Bytes}
  {mode : XAttrSetMode}

theorem checkPosixAclTarget_ok (h : checkPosixAclTarget inode name = .ok u) :
    inode.isSymlink = false ∧ (name = kPosixAclDefaultXAttr → inode.isDir = true) := by
  simp only [checkPosixAclTarget, Result.bind_ok_iff, Result.failIf_ok_iff] at h
  obtain ⟨-, -, -, hs, hd⟩ := h
  refine ⟨by simpa using hs, fun hn => ?_⟩
  simpa [hn] using hd

theorem setPosixAclXAttr_ok (h : setPosixAclXAttr now inode name value mode = .ok next) :
    inode.isSymlink = false ∧ (name = kPosixAclDefaultXAttr → inode.isDir = true) ∧
      ∃ acl, parseAcl value = .ok acl ∧ next = touchCtime now (storePosixAcl inode name acl) := by
  simp only [setPosixAclXAttr, Result.bind_ok_iff] at h
  obtain ⟨_, htarget, _, -, _, -, acl, hacl, h⟩ := h
  obtain ⟨hs, hd⟩ := checkPosixAclTarget_ok htarget
  refine ⟨hs, hd, acl, hacl, ?_⟩
  split at h
  · obtain ⟨_, -, h⟩ := Result.bind_ok_iff.mp h
    exact (Result.pure_ok_iff.mp h).symm
  · exact (Result.pure_ok_iff.mp h).symm

/-- 成功した SetXAttr は、ACL を書くか、ACL でない名前に値を書くかのどちらか -/
theorem SwordFsInode.setXAttr_ok (h : inode.setXAttr now name value mode = .ok next) :
    (isPosixAclXAttrName name = true ∧ inode.isSymlink = false ∧
      (name = kPosixAclDefaultXAttr → inode.isDir = true) ∧
      ∃ acl, parseAcl value = .ok acl ∧ next = touchCtime now (storePosixAcl inode name acl)) ∨
    (isPosixAclXAttrName name = false ∧
      next = touchCtime now { inode with xattrs := inode.xattrs.insert name value }) := by
  unfold setXAttr at h
  split at h
  · next hn => exact .inl ⟨hn, setPosixAclXAttr_ok h⟩
  · next hn =>
    simp only [Result.bind_ok_iff, Result.pure_ok_iff] at h
    obtain ⟨_, -, _, -, _, -, _, -, _, -, rfl⟩ := h
    exact .inr ⟨by simpa using hn, rfl⟩

theorem SwordFsInode.removeXAttr_ok (h : inode.removeXAttr now name = .ok next) :
    next = touchCtime now { inode with xattrs := inode.xattrs.erase name } := by
  unfold removeXAttr at h
  split at h
  · simp only [removePosixAclXAttr, Result.bind_ok_iff, Result.pure_ok_iff] at h
    obtain ⟨_, -, _, -, rfl⟩ := h
    rfl
  · simp only [Result.bind_ok_iff, Result.pure_ok_iff] at h
    obtain ⟨_, -, _, -, rfl⟩ := h
    rfl

end SwordFS.Metadata
