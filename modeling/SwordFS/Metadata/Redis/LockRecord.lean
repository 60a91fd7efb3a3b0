import SwordFS.Infra.Text
import SwordFS.Metadata.Redis.LockAuthority

/-!
# lock の値の text

`RedisLockAuthority.cpp` の `Decode` を、保存された text の上で表す。text は文字の列で、
`LockAuthority` の `encode` が書くものを読む。
-/

namespace SwordFS.Metadata.Lock

open Infra

def parseNumber (text : List Char) : Option Nat := parseDecimal (2 ^ 64) text

def parseRangeEntry (entry : List Char) : Option Interval :=
  let (kind, tail) := splitOnce ',' entry
  let (start, remaining) := splitOnce ',' tail
  let (stop, pid) := splitOnce ',' remaining
  if (kind = ['R'] ∨ kind = ['W']) ∧ ',' ∈ remaining then
    match parseNumber start, parseNumber stop, parseNumber pid with
    | some first, some last, some holderPid =>
      if int32Max < holderPid ∨ last ≤ first then none
      else some ⟨first, last, if kind = ['R'] then .read else .write, holderPid⟩
    | _, _, _ => none
  else none

/-- `Decode` の `while` loop。`ranges` はここまでに読んだ範囲 -/
def decodeLoop (data : List Char) (ranges : List Interval) : Result (List Interval) :=
  if data = [] then .ok ranges
  else
    match parseRangeEntry (splitOnce '|' data).1 with
    | none => .error (.malformed "malformed POSIX range")
    | some r =>
      if ranges.getLast?.any fun p => r.start < p.stop || mergeable p r then
        .error (.malformed "POSIX range set is not canonical")
      else if kMaxIntervals < ranges.length + 1 then
        .error (.malformed "POSIX range count exceeds maximum")
      else decodeLoop (splitOnce '|' data).2 (ranges ++ [r])
termination_by data.length
decreasing_by exact length_splitOnce_snd ‹_›

def decodeText (data : List Char) (flock : Bool) (holder : Holder) : Result Holder :=
  if kMaxValueBytes < data.length then .error (.malformed "lock owner value exceeds maximum size")
  else if flock then
    if data = "F1|S".toList then .ok { holder with flock := .shared }
    else if data = "F1|X".toList then .ok { holder with flock := .exclusive }
    else .error (.malformed "invalid flock record")
  else if data.take 3 ≠ "P2|".toList then
    .error (.malformed "invalid POSIX lock record version")
  else
    let body := data.drop 3
    if body = [] ∨ body.getLast? = some '|' then
      .error (.malformed "empty stored POSIX lock record")
    else (decodeLoop body holder.ranges).map fun ranges => { holder with ranges := ranges }

end SwordFS.Metadata.Lock
