import SwordFS.Metadata.Redis.LockAuthority

/-!
# lock の問い合わせ

`RedisLockAuthority` の `GetPosix` と `Inspect`。どちらも `ReadHolders` で読むだけで、何も書かない。
範囲は始まりと長さで返され、終わりが無限なら長さは 0 である。
-/

namespace SwordFS.Metadata.Lock

open Infra

/-- `GETLK` が返す、両立しない lock -/
structure PosixConflict where
  start : UInt64
  length : UInt64
  kernelOwner : Nat
  type : PosixType
  pid : Int32
deriving DecidableEq, Repr

structure LockHolder where
  kernelOwner : Nat
  localGeneration : Bool
  ranges : List PosixRange := []
  flock : FlockType := .unlock

/-- 範囲の長さ。`uint64Max` で終わる範囲は 0 で表す -/
def Interval.length (r : Interval) : UInt64 :=
  if r.stop = uint64Max then 0 else UInt64.ofNat (r.stop - r.start)

def Interval.toRange (r : Interval) : PosixRange :=
  ⟨UInt64.ofNat r.start, r.length, r.type, Int32.ofInt r.pid⟩

def getPosix (generation kernelOwner : Nat) (ino : InodeID) (remaining : Nat → Nat)
    (range : PosixRange) : LockTxn (Option PosixConflict) := do
  Txn.failIf (range.type = .unlock)
    (.invalidArgument "GETLK needs a conflict output and a requested lock mode")
  let request ← Txn.ofExcept (validateRange range)
  let snapshot ← readHolders false ino generation remaining
  pure (snapshot.holders.findSome? fun holder =>
    if holder.isOwner generation kernelOwner then none
    else (holder.ranges.find? (posixConflict request)).map fun other =>
      ⟨UInt64.ofNat other.start, other.length, holder.kernelOwner, other.type,
        Int32.ofInt other.pid⟩)

/-- `Inspect` の transaction と、その結果の写し -/
def inspect (generation : Nat) (flock : Bool) (ino : InodeID) (remaining : Nat → Nat) :
    LockTxn (List LockHolder) := do
  let snapshot ← readHolders flock ino generation remaining
  pure (snapshot.holders.map fun holder =>
    { kernelOwner := holder.kernelOwner
      localGeneration := holder.generation == generation
      ranges := holder.ranges.map Interval.toRange
      flock := holder.flock })

/-- transaction の後に `SetFlock` が返すもの。古い lock を手放した変換は `WouldBlock` になる -/
def flockOutcome {ω : Type} : Result (Bool × ω) → Result Unit
  | .error e => .error e
  | .ok (true, _) => .error (.wouldBlock "flock conversion yielded old lock")
  | .ok (false, _) => .ok ()

end SwordFS.Metadata.Lock
