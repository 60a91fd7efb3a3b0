import SwordFS.Metadata.Redis.DirIterator

/-!
# directory の handle

`DirHandle::ReadDir` と `ReadDirPlus`。返す buffer は record の列で表し、その大きさは record の
大きさの和である。loop の fuel が尽きることと `CHECK` の失敗は `none` で表す。
-/

namespace SwordFS.Vfs

open SwordFS.Metadata SwordFS.Metadata.Redis

/-- `DirEntryEncoder` と `DirEntryPlusEncoder` の大きさの計算。record は空にならない -/
structure DirEncoder where
  calSpace : SwordFsEntry → Nat → Nat
  calSpace_pos : ∀ entry nextOff, 0 < calSpace entry nextOff

/-- buffer に書いた record -/
structure Dirent where
  entry : SwordFsEntry
  nextOff : Nat
  required : Nat
deriving Repr, DecidableEq

def replySize (out : List Dirent) : Nat := (out.map Dirent.required).sum

/-! ## ReadDir -/

def readDirLoop (hash : DirHash) (encoder : DirEncoder) (size : Nat) :
    Nat → List Dirent → DirIterator → Option (Result (List Dirent) × DirIterator)
  | 0, _, _ => none
  | fuel + 1, out, it =>
    if replySize out < size then
      match it.peek hash with
      | none => none
      | some (.error e, it) =>
        if e.code = .endOfDirectory then some (.ok out, it) else some (.error e, it)
      | some (.ok (entry, nextOff), it) =>
        let available := size - replySize out
        let required := encoder.calSpace entry nextOff
        if available < required then
          if replySize out = 0 then
            some (.error ⟨.noMemory, "readdir entry does not fit in buffer"⟩, it)
          else some (.ok out, it)
        else match it.advance with
          | none => none
          | some it => readDirLoop hash encoder size fuel (out ++ [⟨entry, nextOff, required⟩]) it
    else some (.ok out, it)

/-- `ReadDir`。record は空にならないので、loop は `size` 回で終わる -/
def readDir (hash : DirHash) (encoder : DirEncoder) (off size : Nat) (it : DirIterator) :
    Option (Result (List Dirent) × DirIterator) :=
  if size = 0 then some (.ok [], it)
  else readDirLoop hash encoder size (size + 1) [] (it.seek off)

/-! ## ReadDirPlus -/

def kAttrBatchSize : Nat := 128

/-- inode の一括の読み。`fails n` は `n` 番目の読みの失敗を表す -/
structure InodeTable where
  find : InodeID → Option SwordFsInode
  find_ino : ∀ {ino inode}, find ino = some inode → inode.ino = ino
  fails : Nat → Option Status
  /-- この mount が追っている inode の属性に重ねる、手元の大きさと時刻 -/
  applyLive : SwordFsInode → SwordFsInode

def InodeTable.getInodes (t : InodeTable) (call : Nat) (ids : List InodeID) :
    Result (List (Option SwordFsInode)) :=
  match t.fails call with
  | some e => .error e
  | none => .ok (ids.map t.find)

/-- `lookups` はこれまでの `GetInodes` の数 -/
structure DirHandle where
  iterator : DirIterator
  lookups : Nat := 0
deriving Repr, DecidableEq

/-- 集めた候補。`blocked` は入らなかった entry の cookie と大きさ -/
structure Batch where
  candidates : List Dirent := []
  currentCookie : Nat
  reserved : Nat := 0
  endOfDirectory : Bool := false
  blocked : Option (Nat × Nat) := none
deriving Repr, DecidableEq

/-- 候補を集める内側の loop。予約した大きさは `available` を超えないので、引き算は負にならない -/
def collect (hash : DirHash) (encoder : DirEncoder) (available : Nat) :
    Nat → Batch → DirIterator → Option (Result Batch × DirIterator)
  | 0, b, it => some (.ok b, it)
  | slots + 1, b, it =>
    match it.peek hash with
    | none => none
    | some (.error e, it) =>
      if e.code = .endOfDirectory then some (.ok { b with endOfDirectory := true }, it)
      else some (.error e, it)
    | some (.ok (entry, next), it) =>
      let required := encoder.calSpace entry next
      if available - b.reserved < required then
        some (.ok { b with blocked := some (b.currentCookie, required) }, it)
      else match it.advance with
        | none => none
        | some it => collect hash encoder available slots
            { b with
              candidates := b.candidates ++ [⟨entry, next, required⟩]
              currentCookie := next
              reserved := b.reserved + required } it

abbrev DirentPlus := Dirent × SwordFsInode

def replySizePlus (out : List DirentPlus) : Nat := replySize (out.map Prod.fst)

/-- inode のある候補を buffer に書く。`none` は `CHECK_LE` の失敗 -/
def encodeBatch (inodes : InodeTable) (size : Nat) :
    List (Dirent × Option SwordFsInode) → List DirentPlus → Option (Result (List DirentPlus))
  | [], out => some (.ok out)
  | (_, none) :: rest, out => encodeBatch inodes size rest out
  | (c, some inode) :: rest, out =>
    if inode.ino ≠ c.entry.ino then
      some (.error (.malformed "directory entry inode identity mismatch"))
    else if size - replySizePlus out < c.required then none
    else encodeBatch inodes size rest (out ++ [(c, inodes.applyLive inode)])

/-- buffer が空なら `NoMemory`、そうでなければそれまでの record を返す -/
def stopFull (out : List DirentPlus) : Result (List DirentPlus) :=
  if replySizePlus out = 0 then
    .error ⟨.noMemory, "readdirplus entry does not fit in buffer"⟩
  else .ok out

def readDirPlusLoop (hash : DirHash) (encoder : DirEncoder) (inodes : InodeTable) (size : Nat) :
    Nat → List DirentPlus → Nat → DirHandle → Option (Result (List DirentPlus) × DirHandle)
  | 0, _, _, _ => none
  | fuel + 1, out, cookie, h =>
    if replySizePlus out < size then
      match collect hash encoder (size - replySizePlus out) kAttrBatchSize
          { currentCookie := cookie } h.iterator with
      | none => none
      | some (.error e, it) => some (.error e, { h with iterator := it })
      | some (.ok b, it) =>
        if b.candidates = [] then
          -- 最初の entry が入らなければその場で返り、終わりに達していれば loop を抜ける
          match b.blocked with
          | some _ => some (stopFull out, { h with iterator := it })
          | none => some (.ok out, { h with iterator := it })
        else
          let h := { h with iterator := it, lookups := h.lookups + 1 }
          match inodes.getInodes (h.lookups - 1) (b.candidates.map fun c => c.entry.ino) with
          | .error e => some (.error e, h)
          | .ok found =>
            match encodeBatch inodes size (b.candidates.zip found) out with
            | none => none
            | some (.error e) => some (.error e, h)
            | some (.ok out) =>
              if b.endOfDirectory then some (.ok out, h)
              else match b.blocked with
                | some (blockedCookie, blockedRequired) =>
                  if size - replySizePlus out < blockedRequired then some (stopFull out, h)
                  else readDirPlusLoop hash encoder inodes size fuel out blockedCookie
                    { h with iterator := it.seek blockedCookie }
                | none => readDirPlusLoop hash encoder inodes size fuel out b.currentCookie h
    else some (.ok out, h)

/-- `ReadDirPlus`。周回ごとに少なくとも一つの entry を通り過ぎるので、loop は entry の数で終わる -/
def readDirPlus (hash : DirHash) (encoder : DirEncoder) (inodes : InodeTable) (off size : Nat)
    (h : DirHandle) : Option (Result (List DirentPlus) × DirHandle) :=
  if size = 0 then some (.ok [], h)
  else readDirPlusLoop hash encoder inodes size
    (h.iterator.prefixEntries.length + hash.items.length + 1) [] off
    { h with iterator := h.iterator.seek off }

end SwordFS.Vfs
