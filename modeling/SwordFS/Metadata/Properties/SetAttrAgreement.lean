import SwordFS.Metadata.Properties.FileInvariant

/-!
# 二つの SetAttr の一致

`RedisMetaTxn::SetAttr` と `PrepareSetAttrMutation` は、同じ更新を別々に書いている。
それぞれを文の順に写し、大きさを変えない限り同じ結果になることを示す。
文の順の写しは、model の `setAttr` と `prepareSetAttrMutation` にも一致する。
-/

namespace SwordFS.Metadata

open Infra

/-! ## 文の順の写し -/

def setIf (c : Bool) (g : SwordFsAttr → SwordFsAttr) (a : SwordFsAttr) : SwordFsAttr :=
  if c then g a else a

/-- `if` の中の `inode.attr = attr; inode.Touch(fields); attr = inode.attr` -/
def RedisMetaTxn.touchIf (now : Int) (c : Bool) (fields : SetAttrField)
    (p : SwordFsInode × SwordFsAttr) : SwordFsInode × SwordFsAttr :=
  if c then
    let inode := { p.1 with attr := p.2 }.touch now fields
    (inode, inode.attr)
  else p

/--
`RedisMetaTxn::SetAttr` の更新。`attr` は `inode.attr` の写しで、
`Touch` の前に書き戻し、後に読み直す。
-/
def RedisMetaTxn.updateAttr (now : Int) (inode : SwordFsInode) (requested : SwordFsAttr)
    (f : SetAttrField) : SwordFsInode :=
  let attr := inode.attr
  let attr := setIf f.mode
    (fun a => { a with mode := (a.mode &&& sIfmt) ||| (requested.mode &&& 0xFFF#32) }) attr
  let attr := setIf f.uid (fun a => { a with uid := requested.uid }) attr
  let attr := setIf f.gid (fun a => { a with gid := requested.gid }) attr
  let attr := setIf f.atime (fun a => { a with atime := requested.atime }) attr
  let attr := setIf f.mtime (fun a => { a with mtime := requested.mtime }) attr
  let (inode, attr) := touchIf now f.atimeNow { atime := true } (inode, attr)
  let (inode, attr) := touchIf now f.mtimeNow { mtime := true } (inode, attr)
  let attr := setIf f.ctime (fun a => { a with ctime := requested.ctime }) attr
  let attr := setIf f.killSuidGid
    (fun a => { a with mode := SwordFsAttr.clearSetidForKillPriv a.mode }) attr
  let (inode, attr) := touchIf now (!f.ctime) { ctime := true } (inode, attr)
  { inode with attr := attr }

/-- `RedisMetaTxn::SetAttr` の、inode を読んだ後の計算。最後は `SetInode` の検査 -/
def RedisMetaTxn.setAttrOf (now : Int) (inode : SwordFsInode) (requested : SwordFsAttr)
    (f : SetAttrField) : Result SwordFsInode := do
  Result.failIf f.size (.invalidArgument "size changes require FileReadWriter")
  checkSetAttrPolicy inode.attr f
  let next := updateAttr now inode requested f
  let next ← if f.mode then syncPosixAccessAclForMode next next.attr.mode else pure next
  Result.failIf (next.ino = 0) (.invalidArgument "invalid inode record")
  return next

/-- `PrepareSetAttrMutation` の更新。`attr` は `next.attr` の参照 -/
def updateNext (now : Int) (current : SwordFsInode) (requested : SwordFsAttr) (f : SetAttrField) :
    SwordFsInode :=
  let on (c : Bool) (g : SwordFsAttr → SwordFsAttr) (next : SwordFsInode) : SwordFsInode :=
    { next with attr := setIf c g next.attr }
  let next := current
  let sizeChanged := f.size && requested.size != next.attr.size
  let next := on f.mode
    (fun a => { a with mode := (a.mode &&& sIfmt) ||| (requested.mode &&& 0xFFF#32) }) next
  let next := on f.uid (fun a => { a with uid := requested.uid }) next
  let next := on f.gid (fun a => { a with gid := requested.gid }) next
  let next := on f.size (fun a => { a with size := requested.size }) next
  let next := on f.atime (fun a => { a with atime := requested.atime }) next
  let next := on f.mtime (fun a => { a with mtime := requested.mtime }) next
  let next := on f.atimeNow (fun a => a.touch now { atime := true }) next
  let next := on f.mtimeNow (fun a => a.touch now { mtime := true }) next
  let next := on f.ctime (fun a => { a with ctime := requested.ctime }) next
  let next := on f.killSuidGid
    (fun a => { a with mode := SwordFsAttr.clearSetidForKillPriv a.mode }) next
  let next := on (sizeChanged && !f.mtime && !f.mtimeNow)
    (fun a => a.touch now { mtime := true }) next
  on (!f.ctime) (fun a => a.touch now { ctime := true }) next

/-- `PrepareSetAttrMutation` を文の順に写したもの -/
def prepareSetAttrOf (now : Int) (current : SwordFsInode) (requested : SwordFsAttr)
    (f : SetAttrField) : Result SwordFsInode := do
  checkSetAttrPolicy current.attr f
  let next := updateNext now current requested f
  if f.mode then syncPosixAccessAclForMode next next.attr.mode else pure next

/-! ## 一致 -/

section

variable {now : Int} {inode : SwordFsInode} {requested : SwordFsAttr} {f : SetAttrField}

theorem RedisMetaTxn.touchIf_snd (c : Bool) (fields : SetAttrField)
    (p : SwordFsInode × SwordFsAttr) :
    (touchIf now c fields p).2 = setIf c (fun a => a.touch now fields) p.2 := by
  cases c <;> rfl

theorem RedisMetaTxn.touchIf_fst (c : Bool) (fields : SetAttrField) (p : SwordFsInode × SwordFsAttr)
    (a : SwordFsAttr) : { (touchIf now c fields p).1 with attr := a } = { p.1 with attr := a } := by
  cases c <;> rfl

theorem updateAttr_eq_updateNext (hsize : f.size = false) :
    RedisMetaTxn.updateAttr now inode requested f = updateNext now inode requested f := by
  simp only [RedisMetaTxn.updateAttr, updateNext, RedisMetaTxn.touchIf_fst,
    RedisMetaTxn.touchIf_snd, hsize, Bool.false_and]
  rfl

theorem setIf_mode (c : Bool) (g : Mode → Mode) (a : SwordFsAttr) :
    setIf c (fun a => { a with mode := g a.mode }) a =
      { a with mode := if c then g a.mode else a.mode } := by
  cases c <;> rfl

theorem setIf_atime (c : Bool) (t : TimeSpec) (a : SwordFsAttr) :
    setIf c (fun a => { a with atime := t }) a = { a with atime := if c then t else a.atime } := by
  cases c <;> rfl

theorem setIf_mtime (c : Bool) (t : TimeSpec) (a : SwordFsAttr) :
    setIf c (fun a => { a with mtime := t }) a = { a with mtime := if c then t else a.mtime } := by
  cases c <;> rfl

/-- 文の順の更新は、属性ごとにまとめた `mergeAttr` に一致する -/
theorem updateNext_attr : (updateNext now inode requested f).attr =
    setIf (!f.ctime) (fun a => a.touch now { ctime := true })
      (setIf (f.size && requested.size != inode.attr.size && !f.mtime && !f.mtimeNow)
        (fun a => a.touch now { mtime := true }) (mergeAttr now requested f inode.attr)) := by
  have hid : ∀ (c : Bool) (n : Nat) (a : SwordFsAttr),
      setIf c (fun a => { a with uid := n }) a = { a with uid := if c then n else a.uid } ∧
      setIf c (fun a => { a with gid := n }) a = { a with gid := if c then n else a.gid } ∧
      setIf c (fun a => { a with size := n }) a = { a with size := if c then n else a.size } := by
    rintro (_ | _) n a <;> exact ⟨rfl, rfl, rfl⟩
  have hctime : ∀ (c : Bool) (t : TimeSpec) (a : SwordFsAttr), setIf c
      (fun a => { a with ctime := t }) a = { a with ctime := if c then t else a.ctime } := by
    rintro (_ | _) t a <;> rfl
  have hmode := setIf_mode f.mode fun m => (m &&& sIfmt) ||| (requested.mode &&& 0xFFF#32)
  dsimp only [updateNext, mergeAttr]
  congr 2
  simp only [hmode, setIf_mode, setIf_atime, setIf_mtime, hctime, fun c n a => (hid c n a).1,
    fun c n a => (hid c n a).2.1, fun c n a => (hid c n a).2.2, SwordFsAttr.touch, ite_true,
    ite_false, Bool.false_eq_true]

theorem prepareSetAttrMutation_eq :
    prepareSetAttrMutation now inode requested f = prepareSetAttrOf now inode requested f := by
  unfold prepareSetAttrMutation prepareSetAttrOf
  rw [show updateNext now inode requested f =
    { inode with attr := (updateNext now inode requested f).attr } from rfl, updateNext_attr]
  cases f.ctime <;> rfl

/-- `SetInode` の検査は、ACL の同期が inode の番号を変えないので通る -/
theorem setAttrOf_eq (hsize : f.size = false) (hino : inode.ino ≠ 0) :
    RedisMetaTxn.setAttrOf now inode requested f = prepareSetAttrOf now inode requested f := by
  have hcheck : ∀ n : SwordFsInode, n.ino = inode.ino → (do
      Result.failIf (n.ino = 0) (.invalidArgument "invalid inode record")
      return n : Result SwordFsInode) = .ok n := by
    intro n hn
    rw [hn, Result.failIf, if_neg hino]
    rfl
  unfold RedisMetaTxn.setAttrOf prepareSetAttrOf
  rw [updateAttr_eq_updateNext hsize, hsize]
  cases checkSetAttrPolicy inode.attr f with
  | error e => rfl
  | ok u =>
    cases f.mode with
    | false => exact hcheck _ rfl
    | true =>
      cases hsync : syncPosixAccessAclForMode (updateNext now inode requested f)
          (updateNext now inode requested f).attr.mode with
      | error e =>
        simp only [hsync]
        rfl
      | ok n =>
        simp only [hsync]
        exact hcheck n (syncPosixAccessAclForMode_attr hsync).1

theorem eval_setInode (h : n.ino ≠ 0) :
    (do setInode n; return n : KvTxn SwordFsInode).eval s [] = .ok (n, [KvCmd.setInode n]) := by
  rw [setInode, if_neg h]
  rfl

theorem eval_sync_setInode (h : n.ino ≠ 0) : (do
      let n ← Txn.ofExcept (syncPosixAccessAclForMode n mode)
      setInode n
      return n : KvTxn SwordFsInode).eval s [] =
      (syncPosixAccessAclForMode n mode).map fun n => (n, [KvCmd.setInode n]) := by
  rw [Txn.eval_bind]
  cases hsync : syncPosixAccessAclForMode n mode with
  | error e => rfl
  | ok n' =>
    have hn : n'.ino = n.ino := (syncPosixAccessAclForMode_attr hsync).1
    exact eval_setInode (hn ▸ h)

theorem eval_setAttr
    (hinode : (lookupInode ino).eval s [] = .ok (inode, [])) (hsize : f.size = false) :
    (setAttr cx ino requested f).eval s [] =
      (prepareSetAttrMutation cx.now inode requested f).map fun n => (n, [KvCmd.setInode n]) := by
  obtain ⟨-, hino, -, -⟩ := lookupInode_ok.mp hinode
  have hfail : (Txn.failIf (f.size = true) (.invalidArgument "size changes require FileReadWriter")
      : KvTxn Unit).eval s [] = .ok ((), []) := by
    rw [hsize]
    rfl
  unfold setAttr prepareSetAttrMutation
  rw [Txn.eval_bind, hfail]
  show ((lookupInode ino >>= _).eval s []) = _
  rw [Txn.eval_bind, hinode, hsize]
  show ((Txn.ofExcept (checkSetAttrPolicy inode.attr f) >>= _).eval s []) = _
  rw [Txn.eval_bind]
  cases checkSetAttrPolicy inode.attr f with
  | error e => rfl
  | ok u =>
    cases f.mode with
    | false => exact eval_setInode hino
    | true => exact eval_sync_setInode hino

end

/--
大きさを変えない SetAttr では、`RedisMetaTxn::SetAttr` と `PrepareSetAttrMutation` は、
同じ誤りで拒むか、xattr まで含めて同じ inode を作る。
`LookupInode` の返す inode について、transaction はその結果を返し、その inode だけを書く。
-/
theorem set_attr_agrees (cx : MetaContext) {s : Redis} {ino : InodeID} {inode : SwordFsInode}
    (hinode : (lookupInode ino).eval s [] = .ok (inode, [])) (requested : SwordFsAttr)
    {f : SetAttrField} (hsize : f.size = false) :
    RedisMetaTxn.setAttrOf cx.now inode requested f =
        prepareSetAttrOf cx.now inode requested f ∧
      prepareSetAttrMutation cx.now inode requested f =
        prepareSetAttrOf cx.now inode requested f ∧
      (setAttr cx ino requested f).eval s [] =
        (prepareSetAttrOf cx.now inode requested f).map fun n => (n, [KvCmd.setInode n]) := by
  obtain ⟨-, hino, -, -⟩ := lookupInode_ok.mp hinode
  refine ⟨setAttrOf_eq hsize hino, prepareSetAttrMutation_eq, ?_⟩
  rw [eval_setAttr hinode hsize, prepareSetAttrMutation_eq]

theorem set_attr_agrees_chmod :
    (lookupInode 2).eval (emptyFileStore 2) [] = .ok (emptyFile 2, []) ∧
      RedisMetaTxn.setAttrOf 7 (emptyFile 2) { mode := 0x1C0#32 } { mode := true } =
        prepareSetAttrOf 7 (emptyFile 2) { mode := 0x1C0#32 } { mode := true } :=
  have hinode : (lookupInode 2).eval (emptyFileStore 2) [] = .ok (emptyFile 2, []) := rfl
  ⟨hinode, (set_attr_agrees ⟨4096, .chunkSlice, 7⟩ hinode { mode := 0x1C0#32 } rfl).1⟩

end SwordFS.Metadata
