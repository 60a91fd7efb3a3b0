import SwordFS.Metadata.Types

/-!
# POSIX ACL

`src/metadata/PosixAcl.cpp` のうち、inode の生成と chmod が使う部分を写す。
xattr の byte 列から entry を読み、検査し、mode と同期して書き戻す。
ACL を名指しする setxattr と removexattr は `Metadata/XAttr.lean` にある。
-/

namespace SwordFS.Metadata

def kPosixAclAccessXAttr : String := "system.posix_acl_access"
def kPosixAclDefaultXAttr : String := "system.posix_acl_default"

def kAclXattrVersion : Nat := 2
def kAclUserObj : BitVec 16 := 0x01#16
def kAclUser : BitVec 16 := 0x02#16
def kAclGroupObj : BitVec 16 := 0x04#16
def kAclGroup : BitVec 16 := 0x08#16
def kAclMask : BitVec 16 := 0x10#16
def kAclOther : BitVec 16 := 0x20#16
def kAclPermMask : BitVec 16 := 0x07#16
def kAclUndefinedId : BitVec 32 := 0xFFFFFFFF#32

structure AclEntry where
  tag : BitVec 16
  perm : BitVec 16
  id : BitVec 32
deriving DecidableEq, Repr

/-! ## byte 列との変換 -/

def readLe16 (b0 b1 : UInt8) : BitVec 16 := BitVec.ofNat 16 (b0.toNat + 256 * b1.toNat)

def readLe32 (b0 b1 b2 b3 : UInt8) : BitVec 32 :=
  BitVec.ofNat 32 (b0.toNat + 256 * (b1.toNat + 256 * (b2.toNat + 256 * b3.toNat)))

def appendLe16 (v : BitVec 16) : Bytes :=
  [UInt8.ofNat v.toNat, UInt8.ofNat (v.toNat / 256)]

def appendLe32 (v : BitVec 32) : Bytes :=
  [UInt8.ofNat v.toNat, UInt8.ofNat (v.toNat / 256), UInt8.ofNat (v.toNat / 65536),
    UInt8.ofNat (v.toNat / 16777216)]

def parseAclEntries : Bytes → List AclEntry
  | b0 :: b1 :: b2 :: b3 :: b4 :: b5 :: b6 :: b7 :: rest =>
    ⟨readLe16 b0 b1, readLe16 b2 b3, readLe32 b4 b5 b6 b7⟩ :: parseAclEntries rest
  | _ => []

/-! ## 検査 -/

/-- entry を順に読むときの状態 -/
inductive AclState where
  | userObj | users | groupObj | groups | mask | other | done
deriving DecidableEq, Repr

structure AclScan where
  state : AclState := .userObj
  userIds : List (BitVec 32) := []
  groupIds : List (BitVec 32) := []
  hasNamed : Bool := false
  hasMask : Bool := false

def AclScan.step (s : AclScan) (e : AclEntry) : Result AclScan :=
  let named := e.tag == kAclUser || e.tag == kAclGroup
  if e.perm &&& ~~~kAclPermMask != 0 then
    .error (.invalidArgument "POSIX ACL entry has invalid permission bits")
  else if named && e.id == kAclUndefinedId then
    .error (.invalidArgument "named POSIX ACL entry has undefined id")
  else if !named && e.id != kAclUndefinedId then
    .error (.invalidArgument "POSIX ACL object entry has a concrete id")
  else if e.tag == kAclUserObj then
    if s.state != .userObj then
      .error (.invalidArgument "POSIX ACL user_obj entry is out of order")
    else .ok { s with state := .users }
  else if e.tag == kAclUser then
    if s.state != .users then
      .error (.invalidArgument "POSIX ACL user entry is out of order")
    else if s.userIds.contains e.id then
      .error (.invalidArgument "POSIX ACL contains duplicate named user")
    else .ok { s with userIds := e.id :: s.userIds, hasNamed := true }
  else if e.tag == kAclGroupObj then
    if s.state != .users then
      .error (.invalidArgument "POSIX ACL group_obj entry is out of order")
    else .ok { s with state := .groups }
  else if e.tag == kAclGroup then
    if s.state != .groups then
      .error (.invalidArgument "POSIX ACL group entry is out of order")
    else if s.groupIds.contains e.id then
      .error (.invalidArgument "POSIX ACL contains duplicate named group")
    else .ok { s with groupIds := e.id :: s.groupIds, hasNamed := true }
  else if e.tag == kAclMask then
    if s.state != .groups then
      .error (.invalidArgument "POSIX ACL mask entry is out of order")
    else .ok { s with hasMask := true, state := .other }
  else if e.tag == kAclOther then
    if s.state != .groups && s.state != .other then
      .error (.invalidArgument "POSIX ACL other entry is out of order")
    else .ok { s with state := .done }
  else .error (.invalidArgument "POSIX ACL entry has unsupported tag")

def validateAcl (entries : List AclEntry) : Result Unit := do
  if entries.length < 3 then
    throw (.invalidArgument "POSIX ACL is missing required entries")
  let s ← entries.foldlM AclScan.step {}
  if s.state != .done then
    throw (.invalidArgument "POSIX ACL is missing required owner/group/other entries")
  if s.hasNamed && !s.hasMask then
    throw (.invalidArgument "extended POSIX ACL is missing mask entry")

def parseAcl (data : Bytes) : Result (List AclEntry) :=
  match data with
  | b0 :: b1 :: b2 :: b3 :: rest =>
    if rest.length % 8 != 0 then .error (.invalidArgument "malformed POSIX ACL xattr size")
    else if readLe32 b0 b1 b2 b3 != BitVec.ofNat 32 kAclXattrVersion then
      .error (.invalidArgument "unsupported POSIX ACL xattr version")
    else (validateAcl (parseAclEntries rest)).map fun _ => parseAclEntries rest
  | _ => .error (.invalidArgument "malformed POSIX ACL xattr size")

def serializeAcl (entries : List AclEntry) : Bytes :=
  appendLe32 (BitVec.ofNat 32 kAclXattrVersion) ++
    entries.flatMap fun e => appendLe16 e.tag ++ appendLe16 e.perm ++ appendLe32 e.id

/-! ## mode との同期 -/

def aclIsMinimal (entries : List AclEntry) : Bool :=
  entries.map (·.tag) == [kAclUserObj, kAclGroupObj, kAclOther]

def findAcl (tag : BitVec 16) (entries : List AclEntry) : Option AclEntry :=
  entries.find? (·.tag == tag)

/-- 最初に `tag` を持つ entry の permission を書き換える -/
def modifyAcl (tag : BitVec 16) (f : BitVec 16 → BitVec 16) : List AclEntry → List AclEntry
  | [] => []
  | e :: es => if e.tag == tag then { e with perm := f e.perm } :: es else e :: modifyAcl tag f es

/-- group class の permission を持つ tag。mask があれば mask が優先する -/
def aclGroupClass (entries : List AclEntry) : BitVec 16 :=
  if (findAcl kAclMask entries).isSome then kAclMask else kAclGroupObj

def aclPerm (tag : BitVec 16) (entries : List AclEntry) : Mode :=
  (((findAcl tag entries).map AclEntry.perm).getD 0).zeroExtend 32

def aclPermissionsMode (entries : List AclEntry) : Mode :=
  (aclPerm kAclUserObj entries <<< 6) ||| (aclPerm (aclGroupClass entries) entries <<< 3) |||
    aclPerm kAclOther entries

/-- mode の三つの class を entry に書く。`f` は古い permission と新しい permission を合わせる -/
def aclUpdate (f : BitVec 16 → BitVec 16 → BitVec 16) (mode : Mode) (entries : List AclEntry) :
    List AclEntry :=
  let bits (shift : Nat) : BitVec 16 := (mode >>> shift).truncate 16 &&& kAclPermMask
  modifyAcl kAclOther (f · (bits 0))
    (modifyAcl (aclGroupClass entries) (f · (bits 3)) (modifyAcl kAclUserObj (f · (bits 6)) entries))

def aclApplyMode : Mode → List AclEntry → List AclEntry := aclUpdate fun _ new => new

def aclRestrictToMode : Mode → List AclEntry → List AclEntry := aclUpdate fun old new => old &&& new

/-- `SyncPosixAccessAclForMode`：chmod の後で access ACL を mode に合わせる -/
def syncPosixAccessAclForMode (inode : SwordFsInode) (mode : Mode) : Result SwordFsInode :=
  match inode.xattrs.lookup kPosixAclAccessXAttr with
  | none => .ok inode
  | some value =>
    match parseAcl value with
    | .error _ => .error (.malformed "stored POSIX ACL is malformed")
    | .ok acl => .ok { inode with
        xattrs := inode.xattrs.insert kPosixAclAccessXAttr (serializeAcl (aclApplyMode mode acl)) }

/-- `ApplyPosixAclCreateInheritance`：parent の default ACL を新しい inode に引き継ぐ -/
def applyPosixAclCreateInheritance (parent : SwordFsInode) (umask : Mode) (child : SwordFsInode) :
    Result SwordFsInode :=
  if child.isSymlink then .ok child
  else match parent.xattrs.lookup kPosixAclDefaultXAttr with
  | none =>
    let mode := child.attr.mode
    .ok { child with attr := { child.attr with
      mode := (mode &&& ~~~0x1FF#32) ||| ((mode &&& 0x1FF#32) &&& ~~~umask) } }
  | some value =>
    match parseAcl value with
    | .error _ => .error (.malformed "parent default POSIX ACL is malformed")
    | .ok acl =>
      let access := aclRestrictToMode child.attr.mode acl
      let mode := (child.attr.mode &&& ~~~0x1FF#32) ||| aclPermissionsMode access
      let xattrs := if aclIsMinimal access then child.xattrs
        else child.xattrs.insert kPosixAclAccessXAttr (serializeAcl access)
      .ok { child with
        attr := { child.attr with mode := mode }
        xattrs := if isDirMode mode then xattrs.insert kPosixAclDefaultXAttr value else xattrs }

theorem syncPosixAccessAclForMode_attr (h : syncPosixAccessAclForMode inode mode = .ok inode') :
    inode'.ino = inode.ino ∧ inode'.attr = inode.attr ∧ inode'.parentIno = inode.parentIno := by
  unfold syncPosixAccessAclForMode at h
  split at h
  · cases h; exact ⟨rfl, rfl, rfl⟩
  · split at h
    · cases h
    · cases h; exact ⟨rfl, rfl, rfl⟩

/-! ## 継承が種別を保つこと -/

def AclEntry.PermOk (e : AclEntry) : Prop := e.perm &&& ~~~kAclPermMask = 0

theorem AclScan.step_permOk {s s' : AclScan} (h : s.step e = .ok s') : e.PermOk := by
  unfold AclScan.step at h
  dsimp only at h
  split at h
  · cases h
  · next hp => simpa [AclEntry.PermOk] using hp

theorem foldlM_permOk : ∀ {entries : List AclEntry} {s s' : AclScan},
    entries.foldlM AclScan.step s = Except.ok s' → ∀ e ∈ entries, e.PermOk
  | [], _, _, _ => fun _ h => nomatch h
  | a :: es, s, s', h => by
    rw [List.foldlM_cons] at h
    obtain ⟨s₁, h₁, h₂⟩ := Result.bind_ok_iff.mp h
    exact List.forall_mem_cons.mpr ⟨AclScan.step_permOk h₁, foldlM_permOk h₂⟩

theorem parseAcl_permOk (h : parseAcl data = .ok acl) : ∀ e ∈ acl, e.PermOk := by
  unfold parseAcl at h
  split at h
  · split at h
    · cases h
    split at h
    · cases h
    obtain ⟨u, hv, rfl⟩ := Result.map_ok_iff.mp h
    unfold validateAcl at hv
    split at hv
    · cases hv
    · obtain ⟨s, hs, -⟩ := Result.bind_ok_iff.mp hv
      exact foldlM_permOk hs
  · cases h

theorem modifyAcl_permOk : ∀ {entries : List AclEntry},
    (∀ e ∈ entries, e.PermOk) → ∀ e ∈ modifyAcl tag (· &&& new) entries, e.PermOk
  | [], h => h
  | a :: es, h => by
    obtain ⟨ha, hes⟩ := List.forall_mem_cons.mp h
    unfold modifyAcl
    split
    · refine List.forall_mem_cons.mpr ⟨?_, hes⟩
      show (a.perm &&& new) &&& ~~~kAclPermMask = 0
      rw [BitVec.and_assoc, BitVec.and_comm new, ← BitVec.and_assoc, ha]
      simp
    · exact List.forall_mem_cons.mpr ⟨ha, modifyAcl_permOk hes⟩

variable {entries : List AclEntry}

section

variable (h : ∀ e ∈ entries, e.PermOk)
include h

theorem aclRestrictToMode_permOk : ∀ e ∈ aclRestrictToMode mode entries, e.PermOk :=
  modifyAcl_permOk (modifyAcl_permOk (modifyAcl_permOk h))

/-- permission は三 bit なので、`k` bit 動かしても `k + 3` bit 目には届かない -/
theorem aclPerm_getLsbD (tag : BitVec 16) (hi : k + 3 ≤ i) :
    (aclPerm tag entries <<< k).getLsbD i = false := by
  have hperm : (((findAcl tag entries).map AclEntry.perm).getD 0).getLsbD (i - k) = false := by
    cases hf : findAcl tag entries with
    | none => simp
    | some e =>
      have he : e.PermOk := h e (List.mem_of_find?_eq_some hf)
      have hbit : ∀ j < 16, 3 ≤ j → (~~~kAclPermMask).getLsbD j = true := by decide
      by_cases h16 : i - k < 16
      · have hb := congrArg (BitVec.getLsbD · (i - k)) he
        simpa [BitVec.getLsbD_and, hbit _ h16 (by omega)] using hb
      · exact BitVec.getLsbD_of_ge _ _ (by omega)
  unfold aclPerm
  rw [BitVec.getLsbD_shiftLeft, BitVec.zeroExtend_eq_setWidth, BitVec.getLsbD_setWidth, hperm]
  simp

theorem aclPermissionsMode_and :
    aclPermissionsMode entries &&& 0x1FF#32 = aclPermissionsMode entries := by
  have hlow : ∀ i < 9, (0x1FF#32).getLsbD i = true := by decide
  refine BitVec.eq_of_getLsbD_eq fun i hi => ?_
  rw [BitVec.getLsbD_and]
  by_cases h9 : i < 9
  · rw [hlow i h9, Bool.and_true]
  · have h0 := aclPerm_getLsbD h kAclOther (k := 0) (i := i) (by omega)
    rw [BitVec.shiftLeft_zero] at h0
    rw [aclPermissionsMode, BitVec.getLsbD_or, BitVec.getLsbD_or, aclPerm_getLsbD h _ (by omega),
      aclPerm_getLsbD h _ (by omega), h0]
    rfl

theorem aclPermissionsMode_fmt : aclPermissionsMode entries &&& sIfmt = 0#32 := by
  have hdisjoint : 0x1FF#32 &&& sIfmt = 0#32 := by decide
  rw [← aclPermissionsMode_and h, BitVec.and_assoc, hdisjoint, BitVec.and_zero]

end

theorem replaceLow_fmt (hx : x &&& sIfmt = 0#32) :
    ((m &&& ~~~0x1FF#32) ||| x) &&& sIfmt = m &&& sIfmt := by
  have h1 : ~~~0x1FF#32 &&& sIfmt = sIfmt := by decide
  rw [BitVec.and_or_distrib_right, hx, BitVec.and_assoc, h1, BitVec.or_zero]

theorem applyPosixAclCreateInheritance_ok
    (h : applyPosixAclCreateInheritance parent umask child = .ok child') :
    child'.ino = child.ino ∧ child'.parentIno = child.parentIno ∧
      child'.attr.nlink = child.attr.nlink ∧
      child'.attr.mode &&& sIfmt = child.attr.mode &&& sIfmt := by
  unfold applyPosixAclCreateInheritance at h
  split at h
  · cases h; exact ⟨rfl, rfl, rfl, rfl⟩
  split at h
  · cases h
    refine ⟨rfl, rfl, rfl, replaceLow_fmt ?_⟩
    have h1 : 0x1FF#32 &&& sIfmt = 0#32 := by decide
    rw [BitVec.and_assoc, BitVec.and_comm (~~~umask), ← BitVec.and_assoc,
      BitVec.and_assoc child.attr.mode, h1]
    simp
  · split at h
    · cases h
    · next acl hacl =>
      cases h
      exact ⟨rfl, rfl, rfl,
        replaceLow_fmt (aclPermissionsMode_fmt (aclRestrictToMode_permOk (parseAcl_permOk hacl)))⟩

end SwordFS.Metadata
