import SwordFS.Metadata.PosixAcl

/-!
# inode の policy と属性の更新

`InodePolicy.hpp` の検査と、`Utils.cpp` の `PrepareSetAttrMutation` を写す。
immutable はすべての変更を、append-only は追記の帰結以外の変更を拒む。
-/

namespace SwordFS.Metadata

def isImmutable (a : SwordFsAttr) : Bool := a.inodeFlags.immutable
def isAppendOnly (a : SwordFsAttr) : Bool := a.inodeFlags.appendOnly
def hasRestrictiveInodePolicy (a : SwordFsAttr) : Bool := isImmutable a || isAppendOnly a

/-- `CheckSetAttrPolicy`。append-only では now 以外の明示的な時刻も拒む -/
def checkSetAttrPolicy (a : SwordFsAttr) (f : SetAttrField) : Result Unit :=
  if isImmutable a then .error (.notPermitted "immutable inode rejects setattr")
  else if !isAppendOnly a then .ok ()
  else
    let explicitAtime := f.atime && !f.atimeNow
    let explicitMtime := f.mtime && !f.mtimeNow
    if f.mode || f.uid || f.gid || f.size || explicitAtime || explicitMtime then
      .error (.notPermitted "append-only inode rejects setattr")
    else .ok ()

/-- `CheckContentMetadataMutationPolicy`。`operation` は message の先頭に付く -/
def checkContentMetadataMutationPolicy (a : SwordFsAttr) (operation : String) : Result Unit :=
  if hasRestrictiveInodePolicy a then
    .error (.notPermitted (operation ++ " rejected by inode policy"))
  else .ok ()

def checkDirectoryAdditionPolicy (parent : SwordFsAttr) : Result Unit :=
  if isImmutable parent then .error (.notPermitted "immutable directory rejects entry addition")
  else .ok ()

def checkDirectoryRemovalPolicy (parent : SwordFsAttr) : Result Unit :=
  if hasRestrictiveInodePolicy parent then
    .error (.notPermitted "directory policy rejects entry removal")
  else .ok ()

theorem checkContentMetadataMutationPolicy_ok_iff :
    checkContentMetadataMutationPolicy a op = .ok u ↔ hasRestrictiveInodePolicy a = false := by
  unfold checkContentMetadataMutationPolicy
  split <;> simp_all

/-! ## SetAttr -/

/--
`requested` のうち `fields` が選ぶ属性を写す。時刻の now 指定は明示された値より後に効く。
-/
def mergeAttr (now : Int) (requested : SwordFsAttr) (f : SetAttrField) (a : SwordFsAttr) :
    SwordFsAttr :=
  let mode := if f.mode then (a.mode &&& sIfmt) ||| (requested.mode &&& 0xFFF#32) else a.mode
  { a with
    mode := if f.killSuidGid then SwordFsAttr.clearSetidForKillPriv mode else mode
    uid := if f.uid then requested.uid else a.uid
    gid := if f.gid then requested.gid else a.gid
    size := if f.size then requested.size else a.size
    atime := if f.atimeNow then ⟨now, 0⟩ else if f.atime then requested.atime else a.atime
    mtime := if f.mtimeNow then ⟨now, 0⟩ else if f.mtime then requested.mtime else a.mtime
    ctime := if f.ctime then requested.ctime else a.ctime }

/-- `PrepareSetAttrMutation`：SetAttr の効果を検査つきで計算する -/
def prepareSetAttrMutation (now : Int) (current : SwordFsInode) (requested : SwordFsAttr)
    (f : SetAttrField) : Result SwordFsInode := do
  checkSetAttrPolicy current.attr f
  let sizeChanged := f.size && requested.size != current.attr.size
  let a := mergeAttr now requested f current.attr
  let a := if sizeChanged && !f.mtime && !f.mtimeNow then a.touch now { mtime := true } else a
  let a := if f.ctime then a else a.touch now { ctime := true }
  let next := { current with attr := a }
  if f.mode then syncPosixAccessAclForMode next a.mode else pure next

/-! ## 更新が保つもの -/

theorem clearSetidForKillPriv_fmt (m : Mode) :
    SwordFsAttr.clearSetidForKillPriv m &&& sIfmt = m &&& sIfmt := by
  have h1 : ~~~sIsuid &&& sIfmt = sIfmt := by decide
  have h2 : ~~~sIsgid &&& sIfmt = sIfmt := by decide
  unfold SwordFsAttr.clearSetidForKillPriv
  dsimp only
  split
  · rw [BitVec.and_assoc, h2, BitVec.and_assoc, h1]
  · rw [BitVec.and_assoc, h1]

theorem replacePerm_fmt (m r : Mode) :
    ((m &&& sIfmt) ||| (r &&& 0xFFF#32)) &&& sIfmt = m &&& sIfmt := by
  have h1 : 0xFFF#32 &&& sIfmt = 0#32 := by decide
  rw [BitVec.and_or_distrib_right, BitVec.and_assoc, BitVec.and_self, BitVec.and_assoc, h1]
  simp

theorem mergeAttr_fmt (now : Int) (requested : SwordFsAttr) (f : SetAttrField)
    (a : SwordFsAttr) : (mergeAttr now requested f a).mode &&& sIfmt = a.mode &&& sIfmt := by
  simp only [mergeAttr]
  split
  · rw [clearSetidForKillPriv_fmt]
    split
    · exact replacePerm_fmt ..
    · rfl
  · split
    · exact replacePerm_fmt ..
    · rfl

/-- `PrepareSetAttrMutation` が変えるのは属性だけで、種別と flag は変わらない -/
theorem prepareSetAttrMutation_ok (h : prepareSetAttrMutation now current requested f = .ok next) :
    checkSetAttrPolicy current.attr f = .ok () ∧ next.ino = current.ino ∧
      next.parentIno = current.parentIno ∧
      next.attr.size = (if f.size then requested.size else current.attr.size) ∧
      next.attr.nlink = current.attr.nlink ∧
      next.attr.inodeFlags = current.attr.inodeFlags ∧
      next.attr.mode &&& sIfmt = current.attr.mode &&& sIfmt := by
  unfold prepareSetAttrMutation at h
  cases hp : checkSetAttrPolicy current.attr f with
  | error e => rw [hp] at h; cases h
  | ok u =>
    rw [hp] at h
    dsimp only [bind, Except.bind] at h
    -- chmod のときだけ ACL の同期が挟まるが、属性には触れない
    have hattr : next.ino = current.ino ∧ next.parentIno = current.parentIno ∧ ∃ a,
        next.attr = a ∧ a.size = (mergeAttr now requested f current.attr).size ∧
        a.nlink = (mergeAttr now requested f current.attr).nlink ∧
        a.inodeFlags = (mergeAttr now requested f current.attr).inodeFlags ∧
        a.mode = (mergeAttr now requested f current.attr).mode := by
      split at h
      · obtain ⟨h1, h2, h3⟩ := syncPosixAccessAclForMode_attr h
        refine ⟨h1, h3, _, h2, ?_⟩
        dsimp only
        split <;> split <;> exact ⟨rfl, rfl, rfl, rfl⟩
      · cases h
        refine ⟨rfl, rfl, _, rfl, ?_⟩
        dsimp only
        split <;> split <;> exact ⟨rfl, rfl, rfl, rfl⟩
    obtain ⟨h1, h2, a, rfl, hs, hn, hf, hm⟩ := hattr
    exact ⟨rfl, h1, h2, hs, hn, hf, by rw [hm, mergeAttr_fmt]⟩

theorem prepareSetAttrMutation_isRegular
    (h : prepareSetAttrMutation now current requested f = .ok next) :
    next.isRegular = current.isRegular := by
  simp only [SwordFsInode.isRegular, isRegMode, (prepareSetAttrMutation_ok h).2.2.2.2.2.2]

end SwordFS.Metadata
