import Mathlib.Data.List.Sort
import SwordFS.Infra.Scan
import SwordFS.Metadata.Types
import SwordFS.Utils.Status

/-!
# 保守の走査

`RedisMetaOps::VisitOrphanCandidates` と `VisitPendingDeletesBatch`。どちらも cursor、読み込んだ頁、
頁の中の位置を呼び出しをまたいで持ち、visitor が中断しても続きから再開する。

visitor は何番目の訪問かで答えを変えてよい。訪問の記録は、visitor が OK を返した要素の列である。
-/

namespace SwordFS.Metadata.Redis

open SwordFS.Infra

/-- 走査の位置（`*_cursor_`、`*_page_`、`*_page_offset_`）と、外から見える呼び出しの記録 -/
structure Scanner (α : Type) where
  cursor : Nat := 0
  page : List α := []
  offset : Nat := 0
  /-- これまでの HSCAN の数 -/
  reads : Nat := 0
  /-- これまでに visitor を呼んだ数 -/
  visits : Nat := 0
  /-- 今の周回で visitor が OK を返した要素 -/
  accepted : List α := []
deriving Repr, DecidableEq

/-- 何番目の訪問かと要素から、visitor の答えを決める -/
abbrev Visitor (α : Type) := Nat → α → Result Unit

namespace Scanner

variable {α : Type}

def buffered (s : Scanner α) : List α := s.page.drop s.offset

/-- 次の呼び出しが cursor 0 から新しい周回を始める -/
def Idle (s : Scanner α) : Prop := s.cursor = 0 ∧ s.buffered = []

/-- visitor の `while` loop。高々 `limit` 個を訪れる -/
def visit (visitor : Visitor α) : Nat → Scanner α → Result Unit × Scanner α
  | 0, s => (.ok (), s)
  | limit + 1, s =>
    match s.page[s.offset]? with
    | none => (.ok (), s)
    | some item =>
      match visitor s.visits item with
      | .error e => (.error e, { s with visits := s.visits + 1 })
      | .ok () => visit visitor limit { s with
          offset := s.offset + 1, visits := s.visits + 1, accepted := s.accepted ++ [item] }

end Scanner

/-! ## orphan の候補 -/

def kScanBatchSize : Nat := 128

/-- 頁を使い切っていれば次の頁を読む。失敗すれば頁は空になり、cursor は進まない -/
def loadOrphanPage (hash : HashScan Status InodeID) (s : Scanner InodeID) :
    Result Unit × Scanner InodeID :=
  if s.page.length ≤ s.offset then
    let s := { s with page := [], offset := 0, reads := s.reads + 1 }
    match hash.scan (s.reads - 1) s.cursor kScanBatchSize with
    | .error e => (.error e, s)
    | .ok (values, next) =>
      (.ok (), { s with page := values.insertionSort (· ≤ ·), cursor := next })
  else (.ok (), s)

/-- `VisitOrphanCandidates` の `for` loop。`none` は fuel が尽きたことを表す -/
def visitOrphansLoop (hash : HashScan Status InodeID) (visitor : Visitor InodeID) :
    Nat → Scanner InodeID → Option (Result Unit × Scanner InodeID)
  | 0, _ => none
  | fuel + 1, s =>
    match loadOrphanPage hash s with
    | (.error e, s) => some (.error e, s)
    | (.ok (), s) =>
      if s.page = [] ∧ s.cursor = 0 then some (.ok (), s)
      else match s.visit visitor s.page.length with
        | (.error e, s) => some (.error e, s)
        | (.ok (), s) =>
          if s.cursor = 0 then some (.ok (), { s with page := [], offset := 0 })
          else visitOrphansLoop hash visitor fuel s

def visitOrphanCandidates (hash : HashScan Status InodeID) (visitor : Visitor InodeID)
    (s : Scanner InodeID) : Option (Result Unit × Scanner InodeID) :=
  visitOrphansLoop hash visitor (hash.rank s.cursor + 2) s

/-! ## 未完の削除 -/

section PendingDeletes

variable {α : Type}

/-- 頁を使い切っていれば次の頁を読む。失敗すれば何も変わらない -/
def loadPendingPage (hash : HashScan Status α) (maxItems : Nat) (s : Scanner α) :
    Result Unit × Scanner α :=
  if s.page.length ≤ s.offset then
    match hash.scan s.reads s.cursor maxItems with
    | .error e => (.error e, { s with reads := s.reads + 1 })
    | .ok (values, next) =>
      (.ok (), { s with page := values, offset := 0, cursor := next, reads := s.reads + 1 })
  else (.ok (), s)

def dropDrained (s : Scanner α) : Scanner α :=
  if s.page.length ≤ s.offset then { s with page := [], offset := 0 } else s

/-- `VisitPendingDeletesBatch`。成功すれば `has_more` を返す -/
def visitPendingDeletesBatch (hash : HashScan Status α) (visitor : Visitor α) (maxItems : Nat)
    (s : Scanner α) : Result Bool × Scanner α :=
  if maxItems = 0 then
    (.error (.invalidArgument "pending delete batch size must be positive"), s)
  else match loadPendingPage hash maxItems s with
    | (.error e, s) => (.error e, s)
    | (.ok (), s) =>
      match s.visit visitor maxItems with
      | (.error e, s) => (.error e, s)
      | (.ok (), s) =>
        let s := dropDrained s
        (.ok (!s.page.isEmpty || s.cursor != 0), s)

end PendingDeletes

end SwordFS.Metadata.Redis
