import SwordFS.Infra.Text
import SwordFS.Metadata.Redis.FileTxn

/-!
# mapping の頁ごとの読み

`RedisMetaTxn::ReadFileMappingSnapshot` を HSCAN の応答の一つ一つまで追う。`FileTxn` の
`readFileMappingSnapshot` は hash の全体を一度に読むが、ここでは server が返す頁の列を受け取る。
field と値は保存された text のままで、読めなければ失敗する。
-/

namespace SwordFS.Metadata

open Infra

/-- HSCAN の応答。頁の field と値、次の cursor -/
abbrev ScanReply := Result (List (String × String) × Nat)

def parseChunkIndex (field : String) : Result Nat :=
  match parseDecimal (2 ^ 64) field.toList with
  | none => .error (.malformed "FileMetadata contains an invalid chunk index")
  | some index => .ok index

def parseAttachedChunkIDText (encoded : String) : Result ChunkID :=
  match parseDecimal (2 ^ 64) encoded.toList with
  | none => .error (.malformed "FileMetadata contains an invalid ChunkID")
  | some value => parseAttachedChunkID value

def decodePage : List (String × String) → Result (List ChunkMapping)
  | [] => .ok []
  | (indexField, idValue) :: rest => do
    let index ← parseChunkIndex indexField
    let chunkId ← parseAttachedChunkIDText idValue
    let ms ← decodePage rest
    return ⟨index, chunkId⟩ :: ms

/-- 集め終えた mapping を並べ、重複を調べる -/
def finishMappings (ms : List ChunkMapping) : Result (List ChunkMapping) := do
  Result.failIf (hasAdjacentDuplicate (sortMappings ms))
    (.malformed "duplicate FileMetadata chunk index")
  return sortMappings ms

/-- `do … while (cursor != 0)`。応答が尽きれば loop はまだ終わっていない -/
def scanMappings : List ScanReply → List ChunkMapping → Option (Result (List ChunkMapping))
  | [], _ => none
  | .error e :: _, _ => some (.error e)
  | .ok (page, next) :: replies, ms =>
    match decodePage page with
    | .error e => some (.error e)
    | .ok more =>
      if next = 0 then some (finishMappings (ms ++ more)) else scanMappings replies (ms ++ more)

/-- HSCAN の応答の列の下での `ReadFileMappingSnapshot` -/
def readFileMappingPages (s : Redis) (ino : InodeID) (replies : List ScanReply) :
    Option (Result FileMappingSnapshot) :=
  match (lookupInode ino).eval s [] with
  | .error e => some (.error e)
  | .ok (inode, _) =>
    if !inode.isRegular then some (.error (.invalidArgument "not a regular file"))
    else (scanMappings replies []).map fun r => r.map fun ms => ⟨inode, ms⟩

end SwordFS.Metadata
