import Mathlib.Data.List.Sort
import SwordFS.Metadata.Types

/-!
# Slice record

`SliceRecord.hpp` と `SliceRecord.cpp` を写す。一つの ChunkID の内容は record の列で表され、
後の record が前の record を隠す。id `0` の record は object を持たない zero cover である。

record の整数は 32 bit だが、chunk の大きさが 32 bit に収まることを先に検査するので、
途中の計算が溢れることはない。ここでは自然数で表す。
-/

namespace SwordFS.Chunk.Slice

open Metadata

abbrev SliceID := Nat

/-- chunk の `pos` から `len` byte が、大きさ `size` の object `id` の `off` からの写し -/
structure SliceRecord where
  pos : Nat
  id : Nat
  size : Nat
  off : Nat
  len : Nat
deriving DecidableEq, Repr

/-- 解決された一区間 -/
structure ResolvedSlice where
  pos : Nat
  id : Nat
  off : Nat
  len : Nat
deriving DecidableEq, Repr

def validateRecord (r : SliceRecord) (chunkSize : Nat) : Result Unit :=
  if r.len = 0 ∨ chunkSize ≤ r.pos ∨ chunkSize - r.pos < r.len then
    .error (.malformed "Slice record exceeds logical chunk bounds or is empty")
  else if r.id = 0 then
    if r.size ≠ 0 ∨ r.off ≠ 0 then
      .error (.malformed "Zero-cover record has nonzero object fields")
    else .ok ()
  else if kMaxChunkIDValue < r.id ∨ r.size = 0 ∨ r.size < r.off ∨ r.size - r.off < r.len then
    .error (.malformed "Slice object range or identity is invalid")
  else .ok ()

/-- `AppendCoalesced`：直前の区間に続いていれば一つにまとめる。`out` は逆順に持つ -/
def appendCoalesced (out : List ResolvedSlice) (span : ResolvedSlice) : List ResolvedSlice :=
  match out with
  | [] => [span]
  | last :: rest =>
    if last.pos + last.len = span.pos ∧ last.id = span.id ∧
        (span.id = 0 ∨ last.off + last.len = span.off) then
      { last with len := last.len + span.len } :: rest
    else span :: out

/--
一つの record で、まだ覆われていない区間を埋める。

`gaps` は開始位置の順に並んだ半開区間である。残る区間と、埋まった部分を返す。
-/
def coverGaps (r : SliceRecord) : List (Nat × Nat) → List (Nat × Nat) × List ResolvedSlice
  | [] => ([], [])
  | (gapStart, gapEnd) :: gaps =>
    let (rest, spans) := coverGaps r gaps
    if gapEnd ≤ r.pos ∨ r.pos + r.len ≤ gapStart then ((gapStart, gapEnd) :: rest, spans)
    else
      let coverStart := max r.pos gapStart
      let coverEnd := min (r.pos + r.len) gapEnd
      let left := if gapStart < coverStart then [(gapStart, coverStart)] else []
      let right := if coverEnd < gapEnd then [(coverEnd, gapEnd)] else []
      (left ++ right ++ rest,
        ⟨coverStart, r.id, if r.id = 0 then 0 else r.off + (coverStart - r.pos),
          coverEnd - coverStart⟩ :: spans)

/-- 新しい record から順に区間を埋める。`newest` は新しい順の record -/
def overlayNewest : List SliceRecord → List (Nat × Nat) → List ResolvedSlice
  | [], gaps => gaps.map fun g => ⟨g.1, 0, 0, g.2 - g.1⟩
  | r :: older, gaps => (coverGaps r gaps).2 ++ overlayNewest older (coverGaps r gaps).1

def sortSpans (spans : List ResolvedSlice) : List ResolvedSlice :=
  spans.insertionSort fun a b => a.pos ≤ b.pos

def validateRecords (chunkSize : Nat) : List SliceRecord → Result Unit
  | [] => .ok ()
  | r :: rs => do
    validateRecord r chunkSize
    validateRecords chunkSize rs

/-- `ResolveRange`：`[pos, pos + len)` を新しい record から順に解決する -/
def resolveRange (records : List SliceRecord) (chunkSize pos len : Nat) :
    Result (List ResolvedSlice) := do
  Result.failIf (chunkSize = 0 ∨ chunkSize < pos ∨ chunkSize - pos < len)
    (.invalidArgument "Slice read exceeds logical chunk bounds or output is null")
  validateRecords chunkSize records
  if len = 0 then return []
  else
    let spans := sortSpans (overlayNewest records.reverse [(pos, pos + len)])
    return (spans.foldl appendCoalesced []).reverse

end SwordFS.Chunk.Slice
