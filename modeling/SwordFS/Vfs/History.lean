import SwordFS.Metadata.Properties.FileInvariant
import SwordFS.Vfs.FileReadWriter

/-!
# 一つの mount の履歴

一つの file に対する `FileReadWriter` の呼び出しの列と、それぞれに外界が返した答えの列を
履歴とし、作られたばかりの file から走らせる。
-/

namespace SwordFS.Vfs

open Infra Metadata Chunk

variable {χ : Type}

/-- `FileReadWriter` の一つの呼び出し -/
inductive FileCall where
  | write (bytes : Bytes) (off : Int) (flags : OpenFlags)
  | flush (maxParallelFlushes : Nat)
  | truncate (size : Nat)
  | setAttr (requested : SwordFsAttr) (f : SetAttrField)
  | read (size : Nat) (off : Int)

/-- 呼び出しの program。読んだ byte 列だけを返す -/
def FileCall.prog (M : Mechanism χ) (cx : MetaContext) (ino : InodeID) :
    FileCall → FileIo χ Bytes
  | .write bytes off flags => do
    Vfs.write M cx bytes off flags
    return []
  | .flush maxParallelFlushes => do
    Vfs.flush M maxParallelFlushes
    return []
  | .truncate size => do
    Vfs.truncate M cx ino size
    return []
  | .setAttr requested f => do
    let _ ← Vfs.setAttr M cx ino requested f
    return []
  | .read size off => Vfs.read M cx ino size off

def FileCall.exec (M : Mechanism χ) (cx : MetaContext) (ino : InodeID) (call : FileCall)
    (cs : Nat → Choice Answer) (m : Mount χ) : Result Bytes × Mount χ :=
  Prog.exec (call.prog M cx ino) cs m

def runCalls (M : Mechanism χ) (cx : MetaContext) (ino : InodeID) (m : Mount χ)
    (history : List (FileCall × (Nat → Choice Answer))) : Mount χ :=
  history.foldl (fun m e => (e.1.exec M cx ino e.2 m).2) m

def createdVolume (ino : InodeID) : Backend where
  redis := emptyFileStore ino
  objects := fun _ => none
  sliceIndex := fun _ => []
  cowHead := fun _ => none
  cowRevision := fun _ => 0
  nextChunkID := 0
  nextSliceID := 0
  chunkOwner := fun _ => none
  sliceOwner := fun _ => none

def createdMount (ino : InodeID) : Mount χ := (.opened (emptyFile ino), createdVolume ino)

def smallChunks : MetaContext := ⟨8, .cow, 0⟩

def smallSlices : MetaContext := ⟨8, .chunkSlice, 0⟩

def noFaults : Nat → Choice Answer := fun _ => ⟨0, fun _ => ⟨.none, 0⟩⟩

/-- `n` 番目の動作の呼び出しだけが、送られる前に失敗する -/
def failsAt (n : Nat) : Nat → Choice Answer := fun k =>
  ⟨0, fun _ => ⟨if k = n then .fail (.unavailable "Redis unavailable") else .none, 0⟩⟩

end SwordFS.Vfs
