import SwordFS.Infra.Kv
import SwordFS.Metadata.Types

/-!
# Redis の key と transaction

metadata が使う Redis の key を型付きの store として表し、
`RedisKvTxn` の command をその上の `Cmd` として与える。
HDEL と DEL は、消す相手が無ければ key を変更したと数えない。
-/

namespace SwordFS.Metadata

open Infra

/-- metadata の key -/
inductive Key where
  | inode (ino : InodeID)
  | directory (ino : InodeID)
  | chunkRefs (ino : InodeID)
  | orphans
  | reclaims
  | pendingDeletes
  | inodeCount
deriving DecidableEq, Repr

abbrev Val : Key → Type
  | .inode _ => Option SwordFsInode
  | .directory _ => Hash String SwordFsEntry
  | .chunkRefs _ => Hash Nat ChunkID
  | .orphans => Hash InodeID Unit
  | .reclaims => Hash InodeID ReclaimWork
  | .pendingDeletes => Hash CleanupId PendingDelete
  | .inodeCount => Int

abbrev Redis := Store Key Val

abbrev KvTxn (α : Type) := Txn Key Val Status α

abbrev KvCmd := Cmd Key Val

namespace KvTxn

/-- WATCH してから読む。書き込みの後の読みは拒まれる -/
def watch (k : Key) : KvTxn (Val k) :=
  Txn.read (.invalidArgument "Redis transaction cannot read after a write") k

def getInode (ino : InodeID) : KvTxn (Option SwordFsInode) := watch (.inode ino)

/-- `HGet`、`HLen` などで directory の Hash を読む -/
def getDirectory (ino : InodeID) : KvTxn (Hash String SwordFsEntry) := watch (.directory ino)

def getChunkRefs (ino : InodeID) : KvTxn (Hash Nat ChunkID) := watch (.chunkRefs ino)

section

variable {s : Redis} {ino : InodeID} {ws ws' : List (Cmd Key Val)}

theorem getInode_ok :
    (getInode ino).eval s ws = .ok (v, ws') ↔ v = s (.inode ino) ∧ ws = [] ∧ ws' = [] :=
  Txn.eval_read_ok

theorem getDirectory_ok :
    (getDirectory ino).eval s ws = .ok (v, ws') ↔ v = s (.directory ino) ∧ ws = [] ∧ ws' = [] :=
  Txn.eval_read_ok

theorem getChunkRefs_ok :
    (getChunkRefs ino).eval s ws = .ok (v, ws') ↔ v = s (.chunkRefs ino) ∧ ws = [] ∧ ws' = [] :=
  Txn.eval_read_ok

end

end KvTxn

/-! ## 書き込み command -/

theorem hashErase_eq_self {κ ν : Type} [DecidableEq κ] {h : Hash κ ν} {f : κ}
    (hf : (h.lookup f).isSome = false) : h.erase f = h := by
  have hn : f ∉ h := by
    rw [← AList.lookup_isSome, hf]; exact Bool.false_ne_true
  exact AList.ext (List.kerase_of_notMem_keys hn)

namespace KvCmd

def always (k : Key) (f : Val k → Val k) : KvCmd := ⟨k, f, fun _ => true, by simp⟩

def setInode (inode : SwordFsInode) : KvCmd := always (.inode inode.ino) fun _ => some inode

def delInode (ino : InodeID) : KvCmd where
  key := .inode ino
  run := fun _ => none
  dirties := Option.isSome
  clean := fun v h => by cases v with
    | none => rfl
    | some _ => cases h

def hsetDirectory (parent : InodeID) (name : String) (e : SwordFsEntry) : KvCmd :=
  always (.directory parent) fun h => AList.insert name e h

def hdelDirectory (parent : InodeID) (name : String) : KvCmd where
  key := .directory parent
  run := fun h => AList.erase name h
  dirties := fun h => (AList.lookup name h).isSome
  clean := fun _ h => hashErase_eq_self h

def hsetChunkRef (ino : InodeID) (index : Nat) (id : ChunkID) : KvCmd :=
  always (.chunkRefs ino) fun h => AList.insert index id h

def hdelChunkRef (ino : InodeID) (index : Nat) : KvCmd where
  key := .chunkRefs ino
  run := fun h => AList.erase index h
  dirties := fun h => (AList.lookup index h).isSome
  clean := fun _ h => hashErase_eq_self h

def delChunkRefs (ino : InodeID) : KvCmd where
  key := .chunkRefs ino
  run := fun _ => ∅
  dirties := fun h => !h.entries.isEmpty
  clean := fun h he => AList.ext (List.isEmpty_iff.mp (by simpa using he)).symm

def hsetOrphan (ino : InodeID) : KvCmd := always .orphans fun h => AList.insert ino () h

def hdelOrphan (ino : InodeID) : KvCmd where
  key := .orphans
  run := fun h => AList.erase ino h
  dirties := fun h => (AList.lookup ino h).isSome
  clean := fun _ h => hashErase_eq_self h

def hsetReclaim (work : ReclaimWork) : KvCmd :=
  always .reclaims fun h => AList.insert work.ino work h

def hdelReclaim (ino : InodeID) : KvCmd where
  key := .reclaims
  run := fun h => AList.erase ino h
  dirties := fun h => (AList.lookup ino h).isSome
  clean := fun _ h => hashErase_eq_self h

def hsetPendingDelete (work : PendingDelete) : KvCmd :=
  always .pendingDeletes fun h => AList.insert work.id work h

def incrInodeCount (delta : Int) : KvCmd := always .inodeCount fun n => n + delta

/-! command が触れる key と、そこでの効果 -/

section

variable (s : Redis) (n : SwordFsInode) (ino j : InodeID) (name : String) (e : SwordFsEntry)
  (i : Nat) (id : ChunkID) (work : ReclaimWork) (pd : PendingDelete) (delta : Int)

@[simp] theorem setInode_key : (setInode n).key = .inode n.ino := rfl
@[simp] theorem delInode_key : (delInode ino).key = .inode ino := rfl
@[simp] theorem hsetDirectory_key : (hsetDirectory ino name e).key = .directory ino := rfl
@[simp] theorem hdelDirectory_key : (hdelDirectory ino name).key = .directory ino := rfl
@[simp] theorem hsetChunkRef_key : (hsetChunkRef ino i id).key = .chunkRefs ino := rfl
@[simp] theorem hdelChunkRef_key : (hdelChunkRef ino i).key = .chunkRefs ino := rfl
@[simp] theorem delChunkRefs_key : (delChunkRefs ino).key = .chunkRefs ino := rfl
@[simp] theorem hsetOrphan_key : (hsetOrphan ino).key = .orphans := rfl
@[simp] theorem hdelOrphan_key : (hdelOrphan ino).key = .orphans := rfl
@[simp] theorem hsetReclaim_key : (hsetReclaim work).key = .reclaims := rfl
@[simp] theorem hdelReclaim_key : (hdelReclaim ino).key = .reclaims := rfl
@[simp] theorem hsetPendingDelete_key : (hsetPendingDelete pd).key = .pendingDeletes := rfl
@[simp] theorem incrInodeCount_key : (incrInodeCount delta).key = .inodeCount := rfl

@[simp] theorem setInode_apply :
    (setInode n).apply s (.inode j) = if j = n.ino then some n else s (.inode j) := by
  split
  · next h => subst h; exact Cmd.apply_key ..
  · next h => exact Cmd.apply_of_ne _ _ (by simpa using h)

@[simp] theorem delInode_apply :
    (delInode ino).apply s (.inode j) = if j = ino then none else s (.inode j) := by
  split
  · next h => subst h; exact Cmd.apply_key ..
  · next h => exact Cmd.apply_of_ne _ _ (by simpa using h)

@[simp] theorem hsetDirectory_apply : (hsetDirectory ino name e).apply s (.directory j) =
    if j = ino then AList.insert name e (s (.directory j)) else s (.directory j) := by
  split
  · next h => subst h; exact Cmd.apply_key ..
  · next h => exact Cmd.apply_of_ne _ _ (by simpa using h)

@[simp] theorem hdelDirectory_apply : (hdelDirectory ino name).apply s (.directory j) =
    if j = ino then AList.erase name (s (.directory j)) else s (.directory j) := by
  split
  · next h => subst h; exact Cmd.apply_key ..
  · next h => exact Cmd.apply_of_ne _ _ (by simpa using h)

@[simp] theorem hsetChunkRef_apply : (hsetChunkRef ino i id).apply s (.chunkRefs j) =
    if j = ino then AList.insert i id (s (.chunkRefs j)) else s (.chunkRefs j) := by
  split
  · next h => subst h; exact Cmd.apply_key ..
  · next h => exact Cmd.apply_of_ne _ _ (by simpa using h)

@[simp] theorem hdelChunkRef_apply : (hdelChunkRef ino i).apply s (.chunkRefs j) =
    if j = ino then AList.erase i (s (.chunkRefs j)) else s (.chunkRefs j) := by
  split
  · next h => subst h; exact Cmd.apply_key ..
  · next h => exact Cmd.apply_of_ne _ _ (by simpa using h)

@[simp] theorem delChunkRefs_apply : (delChunkRefs ino).apply s (.chunkRefs j) =
    if j = ino then ∅ else s (.chunkRefs j) := by
  split
  · next h => subst h; exact Cmd.apply_key ..
  · next h => exact Cmd.apply_of_ne _ _ (by simpa using h)

@[simp] theorem hsetOrphan_apply :
    (hsetOrphan ino).apply s .orphans = AList.insert ino () (s .orphans) := Cmd.apply_key ..
@[simp] theorem hdelOrphan_apply :
    (hdelOrphan ino).apply s .orphans = AList.erase ino (s .orphans) := Cmd.apply_key ..
@[simp] theorem hsetPendingDelete_apply : (hsetPendingDelete pd).apply s .pendingDeletes =
    AList.insert pd.id pd (s .pendingDeletes) := Cmd.apply_key ..

end

end KvCmd

end SwordFS.Metadata
