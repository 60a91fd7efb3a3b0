import SwordFS.Infra.Scan
import SwordFS.Metadata.Redis.NamespaceTxn

/-!
# directory の iterator

`RedisDirIterator` と、その下の一頁だけの cache `RedisDirEntryCache`。cache は HSCAN の頁を一つ持ち、
前の番号を求められれば走査を初めからやり直す。

`CHECK` の失敗は process の終了であり、`none` で表す。
-/

namespace SwordFS.Metadata.Redis

open SwordFS.Infra

/-- directory の hash。field の名前と、保存された entry を返す -/
abbrev DirHash := HashScan Status (String × SwordFsEntry)

def kHScanCount : Nat := 128

/-- `RedisDirEntryCache`。`reads` はこれまでの HSCAN の数 -/
structure DirEntryCache where
  entries : List (String × SwordFsEntry) := []
  baseIndex : Nat := 0
  cursor : Nat := 0
  exhausted : Bool := false
  reads : Nat := 0
deriving Repr, DecidableEq

namespace DirEntryCache

def reset (c : DirEntryCache) : DirEntryCache :=
  { c with entries := [], baseIndex := 0, cursor := 0, exhausted := false }

/-- `EnsureLoaded` の `while` loop。頁を読み進め、`index` を含む頁を残す -/
def load (hash : DirHash) (index : Nat) (c : DirEntryCache) : Result Unit × DirEntryCache :=
  if hopen : c.exhausted then (.ok (), c)
  else match hs : hash.scan c.reads c.cursor kHScanCount with
    | .error e => (.error e, { c with reads := c.reads + 1 })
    | .ok (values, next) =>
      if index < c.baseIndex + values.length then
        (.ok (), { c with
          entries := values, cursor := next, exhausted := next == 0, reads := c.reads + 1 })
      else
        load hash index { c with
          baseIndex := c.baseIndex + values.length, cursor := next, exhausted := next == 0,
          reads := c.reads + 1 }
termination_by if c.exhausted then 0 else hash.rank c.cursor + 1
decreasing_by
  -- 0 に戻れば loop は終わり、戻らなければ走査の残りが減る
  rw [if_neg hopen]
  split
  next => exact Nat.succ_pos _
  next hne =>
    refine Nat.succ_lt_succ (hash.shrinks hs ?_)
    rintro rfl
    exact hne rfl

def ensureLoaded (hash : DirHash) (index : Nat) (c : DirEntryCache) :
    Result Unit × DirEntryCache :=
  let c := if index < c.baseIndex then c.reset else c
  if index < c.baseIndex + c.entries.length then (.ok (), c)
  else load hash index { c with baseIndex := c.baseIndex + c.entries.length, entries := [] }

def get (hash : DirHash) (index : Nat) (c : DirEntryCache) :
    Option (Result SwordFsEntry × DirEntryCache) :=
  match c.ensureLoaded hash index with
  | (.error e, c) => some (.error e, c)
  | (.ok (), c) =>
    if c.baseIndex + c.entries.length ≤ index then
      if c.exhausted then some (.error ⟨.endOfDirectory, "directory end"⟩, c) else none
    else match c.entries[index - c.baseIndex]? with
      | none => none
      | some (name, value) =>
        match parseEntry value with
        | .error e => some (.error e, c)
        | .ok () =>
          if value.name ≠ name then
            some (.error
              (.malformed "Redis directory field does not match serialized entry name"), c)
          else some (.ok value, c)

end DirEntryCache

/-- `RedisDirIterator::Impl`。`misused` は、取り出した entry を進める前に `Peek` されたかの記録 -/
structure DirIterator where
  cache : DirEntryCache := {}
  prefixEntries : List SwordFsEntry
  position : Nat := 0
  pendingNext : Option Nat := none
  misused : Bool := false
deriving Repr, DecidableEq

namespace DirIterator

def seek (cookie : Nat) (it : DirIterator) : DirIterator :=
  { it with position := cookie, pendingNext := none }

/-- `Peek`。成功すれば entry と次の cookie を返す -/
def peek (hash : DirHash) (it : DirIterator) :
    Option (Result (SwordFsEntry × Nat) × DirIterator) :=
  if it.pendingNext.isSome then
    some (.error (.invalidArgument "directory iterator has pending entry"),
      { it with misused := true })
  else match it.prefixEntries[it.position]? with
    | some entry =>
      some (.ok (entry, it.position + 1), { it with pendingNext := some (it.position + 1) })
    | none =>
      match it.cache.get hash (it.position - it.prefixEntries.length) with
      | none => none
      | some (.error e, cache) => some (.error e, { it with cache := cache })
      | some (.ok entry, cache) =>
        some (.ok (entry, it.position + 1),
          { it with cache := cache, pendingNext := some (it.position + 1) })

/-- `Advance`。取り出した entry が無ければ `CHECK` が失敗する -/
def advance (it : DirIterator) : Option DirIterator :=
  it.pendingNext.map fun next => { it with position := next, pendingNext := none }

end DirIterator

end SwordFS.Metadata.Redis
