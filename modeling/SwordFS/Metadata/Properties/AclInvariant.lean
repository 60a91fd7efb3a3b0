import SwordFS.Metadata.Properties.AclShape
import SwordFS.Metadata.Properties.NamespaceTxn

/-!
# ACL と mode の不変条件

mode と access ACL は同じ permission の二つの表現である。
生成、SetXAttr、RemoveXAttr、SetAttr、大きさを変える SetAttr を任意の順に commit しても、
二つの表現が食い違わないことを示す。
-/

namespace SwordFS.Metadata

open Infra Txn

/-! ## inode の不変条件 -/

/-- 保存された ACL が読め、置ける inode にあり、access ACL は mode の下位 9 bit を表す -/
structure AclOk (n : SwordFsInode) : Prop where
  access : ∀ value, n.xattrs.lookup kPosixAclAccessXAttr = some value →
    ∃ acl, parseAcl value = .ok acl ∧ aclIsMinimal acl = false ∧ n.isSymlink = false ∧
      aclPermissionsMode acl = n.attr.mode &&& 0x1FF#32
  default : ∀ value, n.xattrs.lookup kPosixAclDefaultXAttr = some value →
    (∃ acl, parseAcl value = .ok acl) ∧ n.isDir = true

/-- 名前 `name` の ACL が名指しする user と group の entry -/
def namedEntries (n : SwordFsInode) (name : String) : List AclEntry :=
  match n.xattrs.lookup name with
  | none => []
  | some value =>
    match parseAcl value with
    | .error _ => []
    | .ok acl => acl.filter AclEntry.isNamed

section

variable {n n' : SwordFsInode}

theorem namedEntries_some
    (h : n.xattrs.lookup name = some value) (hacl : parseAcl value = .ok acl) :
    namedEntries n name = acl.filter AclEntry.isNamed := by
  simp only [namedEntries, h, hacl]

theorem namedEntries_congr (h : n'.xattrs.lookup name = n.xattrs.lookup name) :
    namedEntries n' name = namedEntries n name := by
  unfold namedEntries
  rw [h]

theorem aclOk_of_no_xattrs (h : n.xattrs = ∅) : AclOk n := by
  constructor <;> intro value hv <;> rw [h, AList.lookup_empty] at hv <;> cases hv

theorem AclOk.congr (h : AclOk n)
    (ha : n'.xattrs.lookup kPosixAclAccessXAttr = n.xattrs.lookup kPosixAclAccessXAttr)
    (hd : n'.xattrs.lookup kPosixAclDefaultXAttr = n.xattrs.lookup kPosixAclDefaultXAttr)
    (hfmt : n'.attr.mode &&& sIfmt = n.attr.mode &&& sIfmt)
    (hperm : n'.attr.mode &&& 0x1FF#32 = n.attr.mode &&& 0x1FF#32) : AclOk n' := by
  refine ⟨fun value hv => ?_, fun value hv => ?_⟩
  · obtain ⟨acl, h1, h2, h3, h4⟩ := h.access value (ha ▸ hv)
    refine ⟨acl, h1, h2, ?_, h4.trans hperm.symm⟩
    simpa only [SwordFsInode.isSymlink, isLnkMode, hfmt] using h3
  · obtain ⟨h1, h2⟩ := h.default value (hd ▸ hv)
    exact ⟨h1, by simpa only [SwordFsInode.isDir, isDirMode, hfmt] using h2⟩

end

/-! ## mode の更新 -/

theorem clearSetidForKillPriv_perm (m : Mode) :
    SwordFsAttr.clearSetidForKillPriv m &&& 0x1FF#32 = m &&& 0x1FF#32 := by
  have h1 : ~~~sIsuid &&& 0x1FF#32 = 0x1FF#32 := by decide
  have h2 : ~~~sIsgid &&& 0x1FF#32 = 0x1FF#32 := by decide
  unfold SwordFsAttr.clearSetidForKillPriv
  dsimp only
  split
  · rw [BitVec.and_assoc, h2, BitVec.and_assoc, h1]
  · rw [BitVec.and_assoc, h1]

variable {f : SetAttrField}

theorem mergeAttr_perm (now : Int) (requested : SwordFsAttr) (hf : f.mode = false) (a : SwordFsAttr) :
    (mergeAttr now requested f a).mode &&& 0x1FF#32 = a.mode &&& 0x1FF#32 := by
  simp only [mergeAttr, hf, Bool.false_eq_true, if_false]
  split
  · exact clearSetidForKillPriv_perm _
  · rfl

theorem replaceLow_perm (hx : x &&& 0x1FF#32 = x) :
    ((m &&& ~~~0x1FF#32) ||| x) &&& 0x1FF#32 = x := by
  have h1 : ~~~0x1FF#32 &&& 0x1FF#32 = 0#32 := by decide
  rw [BitVec.and_or_distrib_right, hx, BitVec.and_assoc, h1, BitVec.and_zero, BitVec.zero_or]

/-- `SyncPosixAccessAclForMode` は access ACL を新しい mode に合わせ、名指しの entry を保つ -/
theorem syncPosixAccessAclForMode_aclOk (h : AclOk n)
    (hfmt : a.mode &&& sIfmt = n.attr.mode &&& sIfmt)
    (hs : syncPosixAccessAclForMode { n with attr := a } a.mode = .ok next) :
    AclOk next ∧ ∀ name, namedEntries next name = namedEntries n name := by
  unfold syncPosixAccessAclForMode at hs
  have hdir : ({ n with attr := a } : SwordFsInode).isDir = n.isDir := by
    simp only [SwordFsInode.isDir, isDirMode, hfmt]
  have hlnk : ({ n with attr := a } : SwordFsInode).isSymlink = n.isSymlink := by
    simp only [SwordFsInode.isSymlink, isLnkMode, hfmt]
  split at hs
  · next hnone =>
    cases hs
    refine ⟨⟨fun value hv => ?_, fun value hv => ?_⟩, fun name => namedEntries_congr rfl⟩
    · rw [hnone] at hv
      cases hv
    · exact ⟨(h.default value hv).1, hdir.trans (h.default value hv).2⟩
  · next old hold =>
    have hold : n.xattrs.lookup kPosixAclAccessXAttr = some old := hold
    split at hs
    · cases hs
    · next acl hacl =>
      cases hs
      obtain ⟨acl', hacl', hmin, hns, -⟩ := h.access old hold
      obtain rfl : acl' = acl := by rw [hacl'] at hacl; cases hacl; rfl
      have hre : Reperm acl' (aclApplyMode a.mode acl') :=
        aclApplyMode_reperm (parseAcl_permOk hacl) a.mode
      have hvalid : validateAcl acl' = .ok () := parseAcl_valid hacl
      have hparse : parseAcl (serializeAcl (aclApplyMode a.mode acl')) =
          .ok (aclApplyMode a.mode acl') := parseAcl_serializeAcl (hre.validate.trans hvalid)
      refine ⟨⟨fun value hv => ?_, fun value hv => ?_⟩, fun name => ?_⟩
      · rw [AList.lookup_insert] at hv
        cases hv
        exact ⟨_, hparse, hre.isMinimal.trans hmin, hlnk.trans hns,
          aclPermissionsMode_aclApplyMode hvalid a.mode⟩
      · rw [AList.lookup_insert_ne (by decide)] at hv
        exact ⟨(h.default value hv).1, hdir.trans (h.default value hv).2⟩
      · by_cases hname : name = kPosixAclAccessXAttr
        · subst hname
          rw [namedEntries_some (AList.lookup_insert _) hparse, namedEntries_some hold hacl,
            hre.filter_isNamed]
        · exact namedEntries_congr (AList.lookup_insert_ne hname)

/-- SetAttr の最後の段：chmod のときだけ ACL を合わせる -/
def syncIfMode (f : SetAttrField) (n : SwordFsInode) : Result SwordFsInode :=
  if f.mode then syncPosixAccessAclForMode n n.attr.mode else .ok n

theorem syncIfMode_aclOk (h : AclOk n) (ha : a.mode = (mergeAttr now requested f n.attr).mode)
    (hs : syncIfMode f { n with attr := a } = .ok next) :
    AclOk next ∧ next.ino = n.ino ∧ ∀ name, namedEntries next name = namedEntries n name := by
  have hfmt : a.mode &&& sIfmt = n.attr.mode &&& sIfmt := by rw [ha, mergeAttr_fmt]
  unfold syncIfMode at hs
  split at hs
  · obtain ⟨hok, hnamed⟩ := syncPosixAccessAclForMode_aclOk h hfmt hs
    exact ⟨hok, (syncPosixAccessAclForMode_attr hs).1, hnamed⟩
  · next hf =>
    cases hs
    have hperm : a.mode &&& 0x1FF#32 = n.attr.mode &&& 0x1FF#32 := by
      rw [ha, mergeAttr_perm now requested (by simpa using hf)]
    exact ⟨h.congr rfl rfl hfmt hperm, rfl, fun name => namedEntries_congr rfl⟩

theorem prepareSetAttrMutation_sync
    (h : prepareSetAttrMutation now current requested f = .ok next) :
    ∃ a, a.mode = (mergeAttr now requested f current.attr).mode ∧
      syncIfMode f { current with attr := a } = .ok next := by
  simp only [prepareSetAttrMutation, Result.bind_ok_iff] at h
  obtain ⟨-, -, h⟩ := h
  refine ⟨_, ?_, h⟩
  split <;> split <;> rfl

/-! ## xattr の更新 -/

theorem isPosixAclXAttrName_iff : isPosixAclXAttrName name = true ↔
    name = kPosixAclAccessXAttr ∨ name = kPosixAclDefaultXAttr := by
  simp [isPosixAclXAttrName]

section

variable {now : Int} {n next : SwordFsInode} {name : String} {value : Bytes}

theorem storePosixAcl_aclOk (h : AclOk n) (hacl : parseAcl value = .ok acl)
    (hname : isPosixAclXAttrName name = true) (hs : n.isSymlink = false)
    (hd : name = kPosixAclDefaultXAttr → n.isDir = true) : AclOk (storePosixAcl n name acl) := by
  have hparse : parseAcl (serializeAcl acl) = .ok acl := parseAcl_serializeAcl (parseAcl_valid hacl)
  have hpermOk := parseAcl_permOk hacl
  unfold storePosixAcl
  split
  · next hna =>
    subst hna
    have hfmt := replaceLow_fmt (m := n.attr.mode) (aclPermissionsMode_fmt hpermOk)
    have hlow := replaceLow_perm (m := n.attr.mode) (aclPermissionsMode_and hpermOk)
    refine ⟨fun v hv => ?_, fun v hv => ?_⟩
    · dsimp only at hv
      split at hv
      · rw [AList.lookup_erase] at hv
        cases hv
      · next hmin =>
        rw [AList.lookup_insert] at hv
        cases hv
        refine ⟨acl, hparse, by simpa using hmin, ?_, hlow.symm⟩
        simpa only [SwordFsInode.isSymlink, isLnkMode, hfmt] using hs
    · have hv : n.xattrs.lookup kPosixAclDefaultXAttr = some v := by
        dsimp only at hv
        split at hv
        · rwa [AList.lookup_erase_ne (by decide)] at hv
        · rwa [AList.lookup_insert_ne (by decide)] at hv
      refine ⟨(h.default v hv).1, ?_⟩
      simpa only [SwordFsInode.isDir, isDirMode, hfmt] using (h.default v hv).2
  · next hna =>
    obtain rfl := (isPosixAclXAttrName_iff.mp hname).resolve_left hna
    refine ⟨fun v hv => ?_, fun v hv => ?_⟩
    · rw [AList.lookup_insert_ne (by decide)] at hv
      exact h.access v hv
    · exact ⟨by rw [AList.lookup_insert] at hv; cases hv; exact ⟨acl, hparse⟩, hd rfl⟩

theorem lookup_storePosixAcl_ne (hne : other ≠ name) :
    (storePosixAcl n name acl).xattrs.lookup other = n.xattrs.lookup other := by
  unfold storePosixAcl
  split
  · dsimp only
    split
    · exact AList.lookup_erase_ne hne
    · exact AList.lookup_insert_ne hne
  · exact AList.lookup_insert_ne hne

/-- 成功した SetXAttr は不変条件を保ち、ほかの名前の値に触れない -/
theorem SwordFsInode.setXAttr_aclOk (h : AclOk n) (hs : n.setXAttr now name value mode = .ok next) :
    AclOk next ∧ next.ino = n.ino ∧
      ∀ other, other ≠ name → next.xattrs.lookup other = n.xattrs.lookup other := by
  rcases SwordFsInode.setXAttr_ok hs with ⟨hname, hns, hd, acl, hacl, rfl⟩ | ⟨hname, rfl⟩
  · have hstored := storePosixAcl_aclOk h hacl hname hns hd
    refine ⟨hstored.congr rfl rfl rfl rfl, ?_, fun other hne => lookup_storePosixAcl_ne hne⟩
    show (storePosixAcl n name acl).ino = n.ino
    unfold storePosixAcl
    split <;> rfl
  · have hne : kPosixAclAccessXAttr ≠ name ∧ kPosixAclDefaultXAttr ≠ name := by
      constructor <;> rintro rfl <;> exact absurd hname (by decide)
    exact ⟨h.congr (AList.lookup_insert_ne hne.1) (AList.lookup_insert_ne hne.2) rfl rfl, rfl,
      fun other hne => AList.lookup_insert_ne hne⟩

theorem lookup_of_erase {h : Hash String Bytes}
    (hv : (h.erase key).lookup other = some v) : h.lookup other = some v := by
  by_cases hne : other = key
  · subst hne
    rw [AList.lookup_erase] at hv
    cases hv
  · rwa [AList.lookup_erase_ne hne] at hv

theorem SwordFsInode.removeXAttr_aclOk (h : AclOk n) (hs : n.removeXAttr now name = .ok next) :
    AclOk next ∧ next.ino = n.ino ∧ next.xattrs.lookup name = none ∧
      ∀ other, other ≠ name → next.xattrs.lookup other = n.xattrs.lookup other := by
  obtain rfl := SwordFsInode.removeXAttr_ok hs
  refine ⟨⟨fun v hv => ?_, fun v hv => ?_⟩, rfl, AList.lookup_erase .., fun other hne =>
    AList.lookup_erase_ne hne⟩
  · exact h.access v (lookup_of_erase hv)
  · exact h.default v (lookup_of_erase hv)

end

/-! ## 生成 -/

theorem applyPosixAclCreateInheritance_aclOk (hx : child.xattrs = ∅)
    (h : applyPosixAclCreateInheritance parent umask child = .ok child') : AclOk child' := by
  unfold applyPosixAclCreateInheritance at h
  split at h
  · cases h
    exact aclOk_of_no_xattrs hx
  next hlnk =>
    split at h
    · cases h
      exact aclOk_of_no_xattrs hx
    · next value hvalue =>
      split at h
      · cases h
      · next acl hacl =>
        cases h
        have hre : Reperm acl (aclRestrictToMode child.attr.mode acl) :=
          aclRestrictToMode_reperm (parseAcl_permOk hacl) _
        have hparse := parseAcl_serializeAcl (hre.validate.trans (parseAcl_valid hacl))
        have hfmt := replaceLow_fmt (m := child.attr.mode) (aclPermissionsMode_fmt hre.permOk)
        have hlow := replaceLow_perm (m := child.attr.mode) (aclPermissionsMode_and hre.permOk)
        refine ⟨fun v hv => ?_, fun v hv => ?_⟩
        · -- directory なら default ACL も書くが、access ACL の名前とは別である
          have hv : (if aclIsMinimal (aclRestrictToMode child.attr.mode acl) then child.xattrs
              else child.xattrs.insert kPosixAclAccessXAttr
                (serializeAcl (aclRestrictToMode child.attr.mode acl))).lookup
              kPosixAclAccessXAttr = some v := by
            dsimp only at hv
            split at hv
            · rwa [AList.lookup_insert_ne (by decide)] at hv
            · exact hv
          split at hv
          · rw [hx, AList.lookup_empty] at hv
            cases hv
          · next hmin =>
            rw [AList.lookup_insert] at hv
            cases hv
            refine ⟨_, hparse, by simpa using hmin, ?_, hlow.symm⟩
            have hlnk : child.isSymlink = false := by simpa using hlnk
            simpa only [SwordFsInode.isSymlink, isLnkMode, hfmt] using hlnk
        · dsimp only at hv
          split at hv
          · next hdir =>
            rw [AList.lookup_insert] at hv
            cases hv
            exact ⟨⟨acl, hacl⟩, hdir⟩
          · split at hv
            · rw [hx, AList.lookup_empty] at hv
              cases hv
            · rw [AList.lookup_insert_ne (by decide), hx, AList.lookup_empty] at hv
              cases hv

/-! ## 操作の列 -/

/-- inode の属性と xattr を変える操作。生成する操作の番号は `AllocateInode` が取る -/
inductive AttrOp where
  | create (ctx : SwordFsContext) (now : Int) (parentIno : InodeID) (name : String) (mode : Mode)
  | mkNod (ctx : SwordFsContext) (now : Int) (parentIno : InodeID) (name : String) (mode : Mode)
      (rdev : Nat)
  | mkDir (ctx : SwordFsContext) (now : Int) (parentIno : InodeID) (name : String) (mode : Mode)
  | symlink (ctx : SwordFsContext) (now : Int) (parentIno : InodeID) (name link : String)
  | setXAttr (now : Int) (ino : InodeID) (name : String) (value : Bytes) (mode : XAttrSetMode)
  | removeXAttr (now : Int) (ino : InodeID) (name : String)
  | setAttr (cx : MetaContext) (ino : InodeID) (requested : SwordFsAttr) (f : SetAttrField)
  | commitSizeChange (cx : MetaContext) (ino : InodeID) (plan : ChunkSizePlan)
      (requested : SwordFsAttr) (f : SetAttrField) (isShrink : Bool)

namespace AttrOp

/-- 操作の transaction。`child` は `AllocateInode` が取った番号 -/
def txn (child : InodeID) : AttrOp → KvTxn Unit
  | .create ctx now parentIno name mode => do
    let _ ← Metadata.create ctx now child parentIno name mode
  | .mkNod ctx now parentIno name mode rdev => do
    let _ ← Metadata.mkNod ctx now child parentIno name mode rdev
  | .mkDir ctx now parentIno name mode => do
    let _ ← Metadata.mkDir ctx now child parentIno name mode
  | .symlink ctx now parentIno name link => do
    let _ ← Metadata.symlink ctx now child parentIno name link
  | .setXAttr now ino name value mode => Metadata.setXAttr now ino name value mode
  | .removeXAttr now ino name => Metadata.removeXAttr now ino name
  | .setAttr cx ino requested f => do
    let _ ← Metadata.setAttr cx ino requested f
  | .commitSizeChange cx ino plan requested f isShrink => do
    let _ ← Metadata.commitSizeChange cx ino plan requested f isShrink

def allocates : AttrOp → Bool
  | .create .. | .mkNod .. | .mkDir .. | .symlink .. => true
  | _ => false

def Sets (op : AttrOp) (ino : InodeID) (name : String) : Prop :=
  ∃ now value mode, op = .setXAttr now ino name value mode

def Removes (op : AttrOp) (ino : InodeID) (name : String) : Prop :=
  ∃ now, op = .removeXAttr now ino name

end AttrOp

/-- metadata と inode の番号の counter -/
structure AttrVolume where
  store : Redis
  nextIno : InodeID

namespace AttrVolume

/-- 操作を一つ commit する。番号は transaction の前に取られ、失敗しても戻らない -/
def step (v : AttrVolume) (op : AttrOp) : Result Unit × AttrVolume :=
  let (r, store) := (op.txn (v.nextIno + 1)).commit v.store
  (r, { store, nextIno := if op.allocates then v.nextIno + 1 else v.nextIno })

def run (v : AttrVolume) (ops : List AttrOp) : AttrVolume :=
  ops.foldl (fun v op => (v.step op).2) v

def formatted (now : Int) (uid gid : Nat) : AttrVolume :=
  ⟨formattedStore now uid gid, kRootInodeId⟩

/-- 保存された ACL の不変条件と、番号の一意性 -/
structure Ok (v : AttrVolume) : Prop where
  aclOk : ∀ ino n, v.store (.inode ino) = some n → AclOk n
  recorded : Recorded v.store
  bounded : ∀ ino, v.store (.inode ino) ≠ none → ino ≤ v.nextIno

end AttrVolume

/-! ## 一つの操作が書く inode -/

/-- 操作 `op` の前後で、名指しの user と group の permission が保たれる -/
def NamedKept (op : AttrOp) (n n' : SwordFsInode) : Prop :=
  ∀ name, isPosixAclXAttrName name = true → ¬ op.Sets n.ino name →
    namedEntries n' name = namedEntries n name ∨
      op.Removes n.ino name ∧ n'.xattrs.lookup name = none

/-- 操作 `op` が store `s` の上で書いてよい inode record -/
structure InodeWrite (op : AttrOp) (child : InodeID) (s : Redis) (n' : SwordFsInode) : Prop where
  aclOk : AclOk n'
  ino_ne : n'.ino ≠ 0
  source : n'.ino = child ∧ op.allocates = true ∨
    ∃ n, s (.inode n'.ino) = some n ∧ NamedKept op n n'

/-- 書き込みの列に現れる inode record がすべて `InodeWrite` を満たす -/
def WritesInodes (op : AttrOp) (child : InodeID) (s : Redis) (ws : List KvCmd) : Prop :=
  ∀ c ∈ ws, (∃ n', c = KvCmd.setInode n' ∧ InodeWrite op child s n') ∨ ∀ i, c.key ≠ .inode i

theorem inode_applyAll {P : SwordFsInode → Prop} :
    ∀ {ws : List KvCmd} {s : Redis},
      (∀ c ∈ ws, (∃ m, c = KvCmd.setInode m ∧ P m) ∨ ∀ j, c.key ≠ .inode j) →
      Cmd.applyAll ws s (.inode i) = some n' → s (.inode i) = some n' ∨ n'.ino = i ∧ P n'
  | [], _, _, h => .inl h
  | c :: ws, s, hws, h => by
    obtain ⟨hc, hws⟩ := List.forall_mem_cons.mp hws
    rw [Cmd.applyAll_cons] at h
    rcases inode_applyAll hws h with h | h
    · rcases hc with ⟨m, rfl, hm⟩ | hc
      · rw [KvCmd.setInode_apply] at h
        split at h
        · next hi => cases h; exact .inr ⟨hi.symm, hm⟩
        · exact .inl h
      · exact .inl ((Cmd.apply_of_ne c s fun he => hc i he.symm) ▸ h)
    · exact .inr h

section

variable {op : AttrOp} {child : InodeID} {s : Redis} {n n' : SwordFsInode} {ws : List KvCmd}
  {u : Unit}

variable {ino : InodeID}

theorem InodeWrite.update (hr : Recorded s) (hn : s (.inode ino) = some n) (hino : n'.ino = n.ino)
    (hok : AclOk n') (hkept : NamedKept op n n') : InodeWrite op child s n' := by
  obtain ⟨hni, h0⟩ := hr ino n hn
  refine ⟨hok, ?_, .inr ⟨n, ?_, hkept⟩⟩
  · rwa [hino, hni]
  · rwa [hino, hni]

theorem writesInodes_single (h : InodeWrite op child s n') :
    WritesInodes op child s [KvCmd.setInode n'] :=
  List.forall_mem_singleton.mpr (.inl ⟨n', rfl, h⟩)

theorem NamedKept.of_namedEntries (h : ∀ name, namedEntries n' name = namedEntries n name) :
    NamedKept op n n' := fun name _ _ => .inl (h name)

variable {now : Int} {name : String}

theorem writesInodes_setXAttr (hr : Recorded s) (hok : ∀ i m, s (.inode i) = some m → AclOk m)
    (h : (setXAttr now ino name value mode).eval s [] = .ok (u, ws)) :
    WritesInodes (.setXAttr now ino name value mode) child s ws := by
  simp only [setXAttr, eval_bind_ok, lookupInode_ok, eval_ofExcept_ok, setInode_ok] at h
  obtain ⟨n, _, ⟨hn, -, -, rfl⟩, _, _, ⟨-, rfl⟩, next, _, ⟨hset, rfl⟩, -, rfl⟩ := h
  obtain ⟨hnext, hino, hother⟩ := SwordFsInode.setXAttr_aclOk (hok _ _ hn) hset
  refine writesInodes_single (.update hr hn hino hnext fun other _ hsets => .inl ?_)
  refine namedEntries_congr (hother other fun he => hsets ?_)
  rw [he, (hr _ _ hn).1]
  exact ⟨now, value, mode, rfl⟩

theorem writesInodes_removeXAttr (hr : Recorded s) (hok : ∀ i m, s (.inode i) = some m → AclOk m)
    (h : (removeXAttr now ino name).eval s [] = .ok (u, ws)) :
    WritesInodes (.removeXAttr now ino name) child s ws := by
  simp only [removeXAttr, eval_bind_ok, lookupInode_ok, eval_ofExcept_ok, setInode_ok] at h
  obtain ⟨n, _, ⟨hn, -, -, rfl⟩, _, _, ⟨-, rfl⟩, next, _, ⟨hrem, rfl⟩, -, rfl⟩ := h
  obtain ⟨hnext, hino, hgone, hother⟩ := SwordFsInode.removeXAttr_aclOk (hok _ _ hn) hrem
  refine writesInodes_single (.update hr hn hino hnext fun other _ _ => ?_)
  by_cases he : other = name
  · subst he
    rw [(hr _ _ hn).1]
    exact .inr ⟨⟨now, rfl⟩, hgone⟩
  · exact .inl (namedEntries_congr (hother other he))

variable {cx : MetaContext} {requested : SwordFsAttr} {f : SetAttrField}

theorem setAttr_sync (h : (setAttr cx ino requested f).eval s [] = .ok (next, ws)) :
    ∃ n a, s (.inode ino) = some n ∧ a.mode = (mergeAttr cx.now requested f n.attr).mode ∧
      syncIfMode f { n with attr := a } = .ok next ∧ ws = [KvCmd.setInode next] := by
  simp only [setAttr, eval_bind_ok, lookupInode_ok, eval_ofExcept_ok, eval_failIf_ok] at h
  obtain ⟨-, _, ⟨-, rfl⟩, n, _, ⟨hn, -, -, rfl⟩, _, _, ⟨-, rfl⟩, h⟩ := h
  refine ⟨n, if f.ctime then mergeAttr cx.now requested f n.attr
    else (mergeAttr cx.now requested f n.attr).touch cx.now { ctime := true }, hn, ?_, ?_⟩
  · split <;> rfl
  · unfold syncIfMode
    split at h
    · next hf =>
      simp only [eval_bind_ok, eval_ofExcept_ok, setInode_ok, eval_pure_ok] at h
      obtain ⟨m, _, ⟨hm, rfl⟩, -, _, ⟨-, rfl⟩, rfl, rfl⟩ := h
      exact ⟨by rw [if_pos hf]; exact hm, rfl⟩
    · next hf =>
      simp only [eval_bind_ok, setInode_ok, eval_pure_ok] at h
      obtain ⟨m, _, ⟨rfl, rfl⟩, -, _, ⟨-, rfl⟩, rfl, rfl⟩ := h
      exact ⟨by rw [if_neg hf], rfl⟩

theorem writesInodes_setAttr (hr : Recorded s) (hok : ∀ i m, s (.inode i) = some m → AclOk m)
    (h : (setAttr cx ino requested f).eval s [] = .ok (next, ws)) : WritesInodes op child s ws := by
  obtain ⟨n, a, hn, ha, hsync, rfl⟩ := setAttr_sync h
  obtain ⟨hnext, hino, hnamed⟩ := syncIfMode_aclOk (hok _ _ hn) ha hsync
  exact writesInodes_single (.update hr hn hino hnext (.of_namedEntries hnamed))

theorem writesInodes_sizeChangeWrites {detached : List ChunkMapping}
    (h : InodeWrite op child s n') :
    WritesInodes op child s (sizeChangeWrites cx ino n' detached isShrink) := by
  intro c hc
  have hcases : (∃ m ∈ detached, KvCmd.hsetPendingDelete (detachedDelete cx.chunkType ino m) = c) ∨
      (∃ m ∈ detached, KvCmd.hdelChunkRef ino m.index = c) ∨ c = KvCmd.setInode n' := by
    unfold sizeChangeWrites at hc
    cases isShrink with
    | false => simpa using hc
    | true => simpa [or_comm (a := c = KvCmd.setInode n')] using hc
  rcases hcases with ⟨m, -, rfl⟩ | ⟨m, -, rfl⟩ | rfl
  · exact .inr fun i => (nomatch ·)
  · exact .inr fun i => (nomatch ·)
  · exact .inl ⟨n', rfl, h⟩

theorem writesInodes_commitSizeChange (hr : Recorded s)
    (hok : ∀ i m, s (.inode i) = some m → AclOk m)
    (h : (commitSizeChange cx ino plan requested f isShrink).eval s [] = .ok (r, ws)) :
    WritesInodes op child s ws := by
  have h0 : ino ≠ 0 := by
    have h' := h
    simp only [commitSizeChange, eval_bind_ok, eval_failIf_ok, readFileMappingSnapshot_ok] at h'
    obtain ⟨-, _, -, snap, _, ⟨hn, -⟩, -⟩ := h'
    exact (hr _ _ hn).2
  obtain ⟨-, -, n, current, hn, -, -, -, -, hset, -, -, rfl⟩ := (commitSizeChange_ok h0).mp h
  obtain ⟨a, ha, hsync⟩ := prepareSetAttrMutation_sync hset
  obtain ⟨hnext, hino, hnamed⟩ := syncIfMode_aclOk (hok _ _ hn) ha hsync
  exact writesInodes_sizeChangeWrites (.update hr hn hino hnext (.of_namedEntries hnamed))

/-- `AddEntry` は、生成した child と、時刻と link count だけを変えた parent を書く -/
theorem writesInodes_addEntry (halloc : op.allocates = true) (hr : Recorded s)
    (hok : ∀ i m, s (.inode i) = some m → AclOk m) (hp : s (.inode parentIno) = some parent)
    (hnew : AclOk new) (h : (addEntry now parentIno name new parent).eval s [] = .ok (u, ws)) :
    WritesInodes op new.ino s ws := by
  simp only [addEntry, eval_bind_ok, eval_failIf_ok, eval_ofExcept_ok, KvTxn.getDirectory_ok] at h
  obtain ⟨-, _, ⟨-, rfl⟩, -, _, ⟨-, rfl⟩, dir, _, ⟨rfl, -, rfl⟩, h⟩ := h
  split at h
  · simp only [eval_bind_ok, eval_ofExcept_ok, findInode_ok] at h
    obtain ⟨-, _, -, r, _, -, h⟩ := h
    split at h <;> cases h
  · simp only [eval_bind_ok, setInode_ok, eval_write_ok] at h
    obtain ⟨-, _, ⟨hnew0, rfl⟩, p', _, hlink, -, _, ⟨-, rfl⟩, rfl⟩ := h
    obtain ⟨-, -, rfl, rfl⟩ := linkEntry_ok hlink
    have hparent : AclOk (linkedTo now new parent) ∧
        ∀ x, namedEntries (linkedTo now new parent) x = namedEntries parent x := by
      unfold linkedTo
      split
      · exact ⟨(hok _ _ hp).congr rfl rfl rfl rfl, fun x => namedEntries_congr rfl⟩
      · exact ⟨(hok _ _ hp).congr rfl rfl rfl rfl, fun x => namedEntries_congr rfl⟩
    have hchild : InodeWrite op new.ino s new := ⟨hnew, hnew0, .inl ⟨rfl, halloc⟩⟩
    have hpw : InodeWrite op new.ino s (linkedTo now new parent) :=
      .update hr hp linkedTo_ino hparent.1 (.of_namedEntries hparent.2)
    intro c hc
    simp only [List.nil_append, List.cons_append, List.mem_cons, List.not_mem_nil, or_false] at hc
    rcases hc with rfl | rfl | rfl | rfl
    · exact .inl ⟨_, rfl, hchild⟩
    · exact .inr fun i h => by cases h
    · exact .inl ⟨_, rfl, hpw⟩
    · exact .inr fun i h => by cases h

theorem writesInodes_createNode (halloc : op.allocates = true) (hr : Recorded s)
    (hok : ∀ i m, s (.inode i) = some m → AclOk m)
    (h : (createNode ctx now child parentIno name mode rdev).eval s [] = .ok (new, ws)) :
    WritesInodes op child s ws := by
  simp only [createNode, eval_bind_ok, eval_ofExcept_ok, eval_pure_ok] at h
  obtain ⟨parent, _, hparent, made, _, ⟨hmade, rfl⟩, _, _, hadd, rfl, rfl⟩ := h
  obtain ⟨-, rfl, hp, -⟩ := lookupParent_ok hparent
  have hino := (applyPosixAclCreateInheritance_ok hmade).1
  have hnew := applyPosixAclCreateInheritance_aclOk rfl hmade
  have hw := writesInodes_addEntry halloc hr hok hp hnew hadd
  rwa [hino] at hw

theorem AttrOp.writesInodes (op : AttrOp) (hr : Recorded s)
    (hok : ∀ i m, s (.inode i) = some m → AclOk m)
    (h : (op.txn child).eval s [] = .ok (u, ws)) : WritesInodes op child s ws := by
  cases op with
  | create ctx now parentIno name mode =>
    simp only [txn, Metadata.create, eval_bind_ok, eval_ofExcept_ok, eval_pure_ok] at h
    obtain ⟨_, _, ⟨-, _, ⟨-, rfl⟩, h⟩, -, rfl⟩ := h
    exact writesInodes_createNode rfl hr hok h
  | mkNod ctx now parentIno name mode rdev =>
    simp only [txn, Metadata.mkNod, eval_bind_ok, eval_ofExcept_ok, eval_pure_ok] at h
    obtain ⟨_, _, ⟨-, _, ⟨-, rfl⟩, -, _, ⟨-, rfl⟩, h⟩, -, rfl⟩ := h
    exact writesInodes_createNode rfl hr hok h
  | mkDir ctx now parentIno name mode =>
    simp only [txn, Metadata.mkDir, eval_bind_ok, eval_ofExcept_ok, eval_pure_ok] at h
    obtain ⟨_, _, ⟨-, _, ⟨-, rfl⟩, h⟩, -, rfl⟩ := h
    exact writesInodes_createNode rfl hr hok h
  | symlink ctx now parentIno name link =>
    simp only [txn, Metadata.symlink, eval_bind_ok, eval_ofExcept_ok, eval_pure_ok] at h
    obtain ⟨_, _, ⟨-, _, ⟨-, rfl⟩, parent, _, hparent, _, _, hadd, -, rfl⟩, -, rfl⟩ := h
    obtain ⟨-, rfl, hp, -⟩ := lookupParent_ok hparent
    exact writesInodes_addEntry rfl hr hok hp (aclOk_of_no_xattrs rfl) hadd
  | setXAttr now ino name value mode => exact writesInodes_setXAttr hr hok h
  | removeXAttr now ino name => exact writesInodes_removeXAttr hr hok h
  | setAttr cx ino requested f =>
    simp only [txn, eval_bind_ok, eval_pure_ok] at h
    obtain ⟨_, _, h, -, rfl⟩ := h
    exact writesInodes_setAttr hr hok h
  | commitSizeChange cx ino plan requested f isShrink =>
    simp only [txn, eval_bind_ok, eval_pure_ok] at h
    obtain ⟨_, _, h, -, rfl⟩ := h
    exact writesInodes_commitSizeChange hr hok h

end

/-! ## 一段と列 -/

namespace AttrVolume

variable {v : AttrVolume}

/-- 一つの操作の後の record は、元のままか、`InodeWrite` を満たす -/
theorem Ok.step_inode (h : v.Ok) (op : AttrOp) (hn : (v.step op).2.store (.inode ino) = some n') :
    v.store (.inode ino) = some n' ∨
      n'.ino = ino ∧ InodeWrite op (v.nextIno + 1) v.store n' := by
  have hstep : (v.step op).2.store = ((op.txn (v.nextIno + 1)).commit v.store).2 := rfl
  rw [hstep] at hn
  revert hn
  refine commit_inv (I := fun s : Redis => s (.inode ino) = some n' → _) .inl ?_
  intro a ws hws hn
  exact inode_applyAll (op.writesInodes h.recorded h.aclOk hws) hn

theorem Ok.fresh (h : v.Ok) : v.store (.inode (v.nextIno + 1)) = none := by
  by_contra hc
  exact Nat.not_succ_le_self _ (h.bounded _ hc)

theorem Ok.step (h : v.Ok) (op : AttrOp) : (v.step op).2.Ok := by
  have hnext : v.nextIno ≤ (v.step op).2.nextIno := by
    simp only [AttrVolume.step]
    split
    · exact Nat.le_succ _
    · exact le_rfl
  refine ⟨fun ino n hn => ?_, fun ino n hn => ?_, fun ino hne => ?_⟩
  · rcases h.step_inode op hn with hold | ⟨-, hw⟩
    · exact h.aclOk ino n hold
    · exact hw.aclOk
  · rcases h.step_inode op hn with hold | ⟨rfl, hw⟩
    · exact h.recorded ino n hold
    · exact ⟨rfl, hw.ino_ne⟩
  · obtain ⟨n, hn⟩ := Option.ne_none_iff_exists'.mp hne
    rcases h.step_inode op hn with hold | ⟨rfl, hw⟩
    · exact (h.bounded ino (by rw [hold]; exact Option.some_ne_none n)).trans hnext
    · rcases hw.source with ⟨hc, halloc⟩ | ⟨m, hm, -⟩
      · rw [hc]
        simp only [AttrVolume.step, halloc, if_true, le_refl]
      · exact (h.bounded _ (by rw [hm]; exact Option.some_ne_none m)).trans hnext

theorem Ok.run (h : v.Ok) (ops : List AttrOp) : (v.run ops).Ok := by
  induction ops generalizing v with
  | nil => exact h
  | cons op ops ih => exact ih (h.step op)

/-- 既にあった inode の名指しの permission は、明示的な ACL の書き込みでしか変わらない -/
theorem Ok.step_named (h : v.Ok) (op : AttrOp) (hn : v.store (.inode ino) = some n)
    (hn' : (v.step op).2.store (.inode ino) = some n') : NamedKept op n n' := by
  rcases h.step_inode op hn' with hold | ⟨rfl, hw⟩
  · obtain rfl : n = n' := Option.some.inj (hn.symm.trans hold)
    exact .of_namedEntries fun _ => rfl
  · rcases hw.source with ⟨hc, -⟩ | ⟨m, hm, hkept⟩
    · rw [hc, h.fresh] at hn
      cases hn
    · obtain rfl : n = m := Option.some.inj (hn.symm.trans hm)
      exact hkept

theorem ok_formatted (now : Int) (uid gid : Nat) : (formatted now uid gid).Ok := by
  have hroot : ∀ ino n, formattedStore now uid gid (.inode ino) = some n →
      ino = kRootInodeId ∧ n = rootInode now uid gid := by
    intro ino n hn
    simp only [formattedStore] at hn
    split at hn
    · next hi => cases hn; exact ⟨hi, rfl⟩
    · cases hn
  refine ⟨fun ino n hn => ?_, fun ino n hn => ?_, fun ino hne => ?_⟩
  · obtain ⟨-, rfl⟩ := hroot ino n hn
    exact aclOk_of_no_xattrs rfl
  · obtain ⟨rfl, rfl⟩ := hroot ino n hn
    exact ⟨rfl, by decide⟩
  · obtain ⟨n, hn⟩ := Option.ne_none_iff_exists'.mp hne
    exact (hroot ino n hn).1.le

/--
不変条件を満たす volume から始まる任意の操作の列で、保存された ACL は `AclOk` を満たす。
さらに次の操作 `op` は、失敗すれば何も変えず、成功しても、明示的に書いた ACL のほかは
名指しの user と group の permission を変えない。
-/
theorem aclOk_run (h : v.Ok) (ops : List AttrOp) (op : AttrOp) :
    (∀ ino n, (v.run ops).store (.inode ino) = some n → AclOk n) ∧
    (∀ e, ((v.run ops).step op).1 = .error e →
      ((v.run ops).step op).2.store = (v.run ops).store) ∧
    ∀ ino n n', (v.run ops).store (.inode ino) = some n →
      ((v.run ops).step op).2.store (.inode ino) = some n' →
      ∀ name, isPosixAclXAttrName name = true → ¬ op.Sets ino name →
        namedEntries n' name = namedEntries n name ∨
          op.Removes ino name ∧ n'.xattrs.lookup name = none := by
  have hrun := h.run ops
  refine ⟨hrun.aclOk, fun e he => commit_error he, ?_⟩
  intro ino n n' hn hn' name hname hsets
  have hkept := hrun.step_named op hn hn' name hname
  rw [(hrun.recorded ino n hn).1] at hkept
  exact hkept hsets

/-- root に名指しの user を持つ ACL を置き、その下に file を作り、chmod する -/
def sampleAcl : List AclEntry :=
  [⟨kAclUserObj, 7, kAclUndefinedId⟩, ⟨kAclUser, 5, 1000⟩, ⟨kAclGroupObj, 5, kAclUndefinedId⟩,
    ⟨kAclMask, 7, kAclUndefinedId⟩, ⟨kAclOther, 0, kAclUndefinedId⟩]

def sampleOps : List AttrOp :=
  [.setXAttr 1 kRootInodeId kPosixAclDefaultXAttr (serializeAcl sampleAcl) .upsert,
    .create ⟨0, 0, 0⟩ 2 kRootInodeId "a" 0o640#32]

/-- 継承した access ACL は、作るときの mode で絞られている -/
example : (((formatted 0 0 0).run sampleOps).store (.inode 2)).map (·.attr.mode) =
    some 0o100640#32 := by decide

theorem aclOk_run_sample : (formatted 0 0 0).Ok ∧ ∀ ino n,
    ((formatted 0 0 0).run sampleOps).store (.inode ino) = some n → AclOk n :=
  ⟨ok_formatted 0 0 0, (aclOk_run (ok_formatted 0 0 0) sampleOps
    (.removeXAttr 3 2 kPosixAclAccessXAttr)).1⟩

end AttrVolume

end SwordFS.Metadata
