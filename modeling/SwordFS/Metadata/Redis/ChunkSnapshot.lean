import SwordFS.Infra.Threads
import SwordFS.Metadata.Redis.MappingScan

/-!
# chunk の snapshot の読み

`RedisMetaOps::ReadFileChunkSnapshot` を、Redis へ送る命令の一つ一つまで追う。inode の像を GET で読み、
そこから EOF の境界の番号を求め、read-only の script で像が変わっていないことを確かめながら二つの
attachment を読む。命令の間には、ほかの client の transaction が好きなだけ commit してよい。

保存された像は text のままで、inode の復号は任意の関数とする。
-/

namespace SwordFS.Metadata

open Infra

/-- 一つの file について保存されているもの -/
structure RawFile where
  /-- inode の像 -/
  inode : Option String
  /-- chunk_refs の field から値への対応 -/
  refs : String → Option String

/-- 呼び出しの引数と設定 -/
structure SnapshotCall where
  ino : InodeID
  index : Nat
  chunkSize : Nat
  /-- 設定の `retry_attempts` -/
  retryAttempts : Int
  /-- `SwordFsInode::ParseFrom` -/
  parse : String → Result SwordFsInode

def decodeAttachedChunkID : Option String → Result (Option ChunkID)
  | none => .ok none
  | some encoded => (parseAttachedChunkIDText encoded).map some

/-- `ReadChunkAttachmentsIfUnchanged` の script。像が `expected` のままなら二つの field を読む -/
def readChunkAttachmentsIfUnchanged (f : RawFile) (expected : String) (index eofIndex : Nat) :
    Option (Option String × Option String) :=
  if f.inode ≠ some expected then none
  else some (f.refs (toString index), f.refs (toString eofIndex))

/-- 次に送る命令 -/
inductive SnapshotPc where
  | get (attempt : Nat)
  | attachments (attempt : Nat) (encoded : String) (inode : SwordFsInode)
      (boundary : Option ChunkSizeBoundary)
  | done (r : Result FileChunkSnapshot)

namespace SnapshotCall

variable (c : SnapshotCall)

def snapshotRetryAttempts : Nat := (max 1 c.retryAttempts).toNat

def attempt (n : Nat) : SnapshotPc :=
  if n < c.snapshotRetryAttempts then .get n
  else .done (.error (.unavailable "coherent Chunk snapshot changed too often"))

def examine (encoded : String) : Result (SwordFsInode × Option ChunkSizeBoundary) := do
  let inode ← c.parse encoded
  Result.failIf (inode.ino ≠ c.ino) (.malformed "Redis inode record identity mismatch")
  Result.failIf (!inode.isRegular) (.invalidArgument "not a regular file")
  let layout ← planChunkSizeLayout inode.attr.size c.chunkSize
  return (inode, layout.boundary)

/-- script が読む二つ目の番号。境界が無ければ求められた番号をもう一度読む -/
def eofIndex (boundary : Option ChunkSizeBoundary) : Nat :=
  match boundary with
  | none => c.index
  | some b => b.index

def assemble (attachedRaw eofRaw : Option String) (inode : SwordFsInode)
    (boundary : Option ChunkSizeBoundary) : Result FileChunkSnapshot := do
  let chunkId ← decodeAttachedChunkID attachedRaw
  match boundary with
  | none => return ⟨inode, chunkId, none⟩
  | some b =>
    let boundaryId ← decodeAttachedChunkID eofRaw
    return ⟨inode, chunkId, some ⟨c.eofIndex boundary, boundaryId, b.visiblePrefix⟩⟩

/-- 命令を一つ、今の file の上で実行する。`fault` は命令の失敗 -/
def command (f : RawFile) (fault : Option Status) : SnapshotPc → SnapshotPc
  | .get n =>
    match fault with
    | some e => .done (.error e)
    | none =>
      match f.inode with
      | none => .done (.error (.notFound "Redis key not found"))
      | some encoded =>
        match c.examine encoded with
        | .error e => .done (.error e)
        | .ok (inode, boundary) => .attachments n encoded inode boundary
  | .attachments n encoded inode boundary =>
    match fault with
    | some e => .done (.error e)
    | none =>
      match readChunkAttachmentsIfUnchanged f encoded c.index (c.eofIndex boundary) with
      | none => c.attempt (n + 1)
      | some (attachedRaw, eofRaw) => .done (c.assemble attachedRaw eofRaw inode boundary)
  | .done r => .done r

end SnapshotCall

/-! ## ほかの client との交互の実行 -/

/-- server で起きること -/
inductive SnapshotEvent where
  /-- ほかの client の transaction が commit する -/
  | commit (f : RawFile → RawFile)
  /-- この呼び出しの次の命令が実行される -/
  | command (fault : Option Status)

structure SnapshotSystem where
  file : RawFile
  pc : SnapshotPc

def SnapshotCall.step (c : SnapshotCall) (S : SnapshotSystem) :
    SnapshotEvent → Option (Unit × SnapshotSystem)
  | .commit f => some ((), { S with file := f S.file })
  | .command fault => some ((), { S with pc := c.command S.file fault S.pc })

/-- 呼び出しが終わるまでの各時点の file を溜める -/
def instants (seen : List RawFile) (S : SnapshotSystem) (_ : Unit) : List RawFile :=
  match S.pc with
  | .done _ => seen
  | _ => S.file :: seen

end SwordFS.Metadata
