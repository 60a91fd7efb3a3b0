import SwordFS.Metadata.Namespace.Tree
import SwordFS.Metadata.Properties.FileTxn
import SwordFS.Metadata.Redis.MetaImpl

/-!
# Redis の store が表す namespace

store から木の形を取り出す `view` を定め、command 一つごとの効果を述べる。
directory の transaction の仕様は、この `view` の上の操作として述べられる。
-/

namespace SwordFS.Metadata

open Infra

def SwordFsInode.kind (n : SwordFsInode) : Dt := modeToDt n.attr.mode

theorem isDir_iff_kind {n : SwordFsInode} : n.isDir = true ↔ n.kind = .dir := by
  unfold SwordFsInode.isDir SwordFsInode.kind isDirMode modeToDt
  dsimp only
  split
  · next h => simp [h]
  · next h =>
    refine iff_of_false (by simpa using h) ?_
    repeat' split
    all_goals exact fun hc => nomatch hc

theorem isDir_eq_decide (n : SwordFsInode) : n.isDir = decide (n.kind = .dir) := by
  rw [Bool.eq_iff_iff, isDir_iff_kind, decide_eq_true_iff]

def nodeOf (n : SwordFsInode) : Node := ⟨n.kind, n.attr.nlink, n.parentIno⟩

def view (s : Redis) : Namespace where
  node i := (s (.inode i)).map nodeOf
  entry k := ((s (.directory k.1)).lookup k.2).map fun e => (e.type, e.ino)
  orphan i := ((s .orphans).lookup i).isSome

/-- record の番号は key の番号と一致し、0 ではない -/
def Recorded (s : Redis) : Prop := ∀ i n, s (.inode i) = some n → n.ino = i ∧ i ≠ 0

namespace Namespace

def setEntry (N : Namespace) (k : EntryKey) (o : Option (Dt × InodeID)) : Namespace :=
  { N with entry := Function.update N.entry k o }

section

variable (N : Namespace) (k : EntryKey) (o : Option (Dt × InodeID))

@[simp] theorem setEntry_node : (N.setEntry k o).node = N.node := rfl
@[simp] theorem setEntry_entry : (N.setEntry k o).entry = Function.update N.entry k o := rfl
@[simp] theorem setEntry_orphan : (N.setEntry k o).orphan = N.orphan := rfl

end

end Namespace

/-! ## command の効果 -/

section

variable (s : Redis) (n : SwordFsInode) (ino : InodeID) (name : String) (e : SwordFsEntry)

@[simp] theorem view_setInode :
    view ((KvCmd.setInode n).apply s) = (view s).setNode n.ino (nodeOf n) := by
  ext1
  · funext i
    by_cases hi : i = n.ino <;> simp [view, hi]
  · simp [view]
  · simp [view]

@[simp] theorem view_delInode : view ((KvCmd.delInode ino).apply s) = (view s).eraseNode ino := by
  ext1
  · funext i
    by_cases hi : i = ino <;> simp [view, hi]
  · simp [view]
  · simp [view]

@[simp] theorem view_hsetDirectory : view ((KvCmd.hsetDirectory ino name e).apply s) =
    (view s).setEntry (ino, name) (some (e.type, e.ino)) := by
  ext1
  · simp [view]
  · funext k
    obtain ⟨p, x⟩ := k
    by_cases hp : p = ino
    · subst hp
      by_cases hx : x = name
      · subst hx; simp [view]
      · simp [view, hx, AList.lookup_insert_ne hx]
    · simp [view, hp]
  · simp [view]

@[simp] theorem view_hdelDirectory : view ((KvCmd.hdelDirectory ino name).apply s) =
    (view s).setEntry (ino, name) none := by
  ext1
  · simp [view]
  · funext k
    obtain ⟨p, x⟩ := k
    by_cases hp : p = ino
    · subst hp
      by_cases hx : x = name
      · subst hx; simp [view]
      · simp [view, hx, AList.lookup_erase_ne hx]
    · simp [view, hp]
  · simp [view]

@[simp] theorem view_hsetOrphan :
    view ((KvCmd.hsetOrphan ino).apply s) = (view s).setOrphan ino true := by
  ext1
  · simp [view]
  · simp [view]
  · funext i
    by_cases hi : i = ino
    · subst hi; simp [view]
    · simp [view, hi, AList.lookup_insert_ne hi]

@[simp] theorem view_hdelOrphan :
    view ((KvCmd.hdelOrphan ino).apply s) = (view s).setOrphan ino false := by
  ext1
  · simp [view]
  · simp [view]
  · funext i
    by_cases hi : i = ino
    · subst hi; simp [view]
    · simp [view, hi, AList.lookup_erase_ne hi]

theorem view_apply_of_key {c : KvCmd} (hi : ∀ i, c.key ≠ .inode i) (hd : ∀ i, c.key ≠ .directory i)
    (ho : c.key ≠ .orphans) : view (c.apply s) = view s := by
  ext1
  · funext i; simp [view, Cmd.apply_of_ne c s (Ne.symm (hi i))]
  · funext k; simp [view, Cmd.apply_of_ne c s (Ne.symm (hd k.1))]
  · funext i; simp [view, Cmd.apply_of_ne c s (Ne.symm ho)]

@[simp] theorem view_incrInodeCount (d : Int) : view ((KvCmd.incrInodeCount d).apply s) = view s :=
  view_apply_of_key s (by simp) (by simp) (by simp)
@[simp] theorem view_delChunkRefs : view ((KvCmd.delChunkRefs ino).apply s) = view s :=
  view_apply_of_key s (by simp) (by simp) (by simp)
@[simp] theorem view_hsetReclaim (w : ReclaimWork) :
    view ((KvCmd.hsetReclaim w).apply s) = view s :=
  view_apply_of_key s (by simp) (by simp) (by simp)
@[simp] theorem view_hdelReclaim : view ((KvCmd.hdelReclaim ino).apply s) = view s :=
  view_apply_of_key s (by simp) (by simp) (by simp)

end

/-! ## record の番号 -/

def KeepsRecord (c : KvCmd) : Prop := ∀ s, Recorded s → Recorded (c.apply s)

theorem keepsRecord_setInode (h : n.ino ≠ 0) : KeepsRecord (KvCmd.setInode n) := by
  intro s hs i m hm
  rw [KvCmd.setInode_apply] at hm
  split at hm
  · next hi => cases hm; exact ⟨hi.symm, hi ▸ h⟩
  · exact hs i m hm

theorem keepsRecord_delInode (ino : InodeID) : KeepsRecord (KvCmd.delInode ino) := by
  intro s hs i m hm
  rw [KvCmd.delInode_apply] at hm
  split at hm
  · cases hm
  · exact hs i m hm

theorem keepsRecord_of_key (h : ∀ i, c.key ≠ .inode i) : KeepsRecord c := by
  intro s hs i m hm
  rw [Cmd.apply_of_ne c s (Ne.symm (h i))] at hm
  exact hs i m hm

theorem recorded_applyAll (h : ∀ c ∈ ws, KeepsRecord c)
    (hs : Recorded s) : Recorded (Cmd.applyAll ws s) := by
  induction ws generalizing s with
  | nil => exact hs
  | cons c ws ih =>
    obtain ⟨hc, hws⟩ := List.forall_mem_cons.mp h
    exact ih hws (hc s hs)

end SwordFS.Metadata
