import Mathlib.Data.List.Sort
import SwordFS.Infra.Kv
import SwordFS.Metadata.Redis.KvTxn

/-!
# 勧告 lock の transaction

`RedisLockAuthority` が一つの lock Hash に対して行う transaction と、
owner の生存を表す lease の command を表す。

inode ごとに POSIX 用と flock 用の Hash があり、field は owner `(generation, kernel_owner)`、
値はその owner の持つ lock である。lease の key が無い generation の field は無視される。
-/

namespace SwordFS.Metadata.Lock

open Infra

def kMaxHolders : Nat := 1024
def kMaxValueBytes : Nat := 4096
def kMaxIntervals : Nat := 128
def uint64Max : Nat := 2 ^ 64 - 1
def int32Max : Int := 2 ^ 31 - 1

inductive PosixType where
  | read
  | write
  | unlock
deriving DecidableEq, Repr

inductive FlockType where
  | shared
  | exclusive
  | unlock
deriving DecidableEq, Repr

/-- 要求された範囲。`length` が 0 なら EOF まで -/
structure PosixRange where
  start : UInt64
  length : UInt64
  type : PosixType
  pid : Int32 := 0

/-- 範囲 `[start, stop)`。`stop = uint64Max` は無限を表す -/
structure Interval where
  start : Nat
  stop : Nat
  type : PosixType
  pid : Int
deriving DecidableEq, Repr

def validateRange (range : PosixRange) : Result Interval := do
  Result.failIf (range.length.toNat ≠ 0 ∧ uint64Max - range.start.toNat < range.length.toNat)
    (.invalidArgument "POSIX lock range overflows")
  Result.failIf (range.pid.toInt < 0) (.invalidArgument "negative POSIX holder PID")
  let stop := if range.length.toNat = 0 then uint64Max
    else range.start.toNat + range.length.toNat
  Result.failIf (range.start.toNat = stop) (.invalidArgument "POSIX lock interval is empty")
  return ⟨range.start.toNat, stop, range.type, range.pid.toInt⟩

def overlaps (a b : Interval) : Bool := a.start < b.stop && b.start < a.stop

/-! ## 値の形式 -/

/-- owner の値。先頭の版が POSIX と flock を区別する -/
inductive Record where
  | posix (ranges : List Interval)
  | flock (type : FlockType)
  | fence
deriving DecidableEq, Repr

def encode (ranges : List Interval) : String :=
  ranges.foldl (fun text r => text ++ "|" ++ (if r.type = .read then "R" else "W") ++ "," ++
    toString r.start ++ "," ++ toString r.stop ++ "," ++ toString r.pid) "P2"

/-- 同じ種類で接する範囲は一つに書かれる -/
def mergeable (a b : Interval) : Bool := a.stop == b.start && a.type == b.type && a.pid == b.pid

/-- `Decode` の loop。`prev` は直前の範囲、`count` は読んだ範囲の数 -/
def decodeRanges : Option Interval → Nat → List Interval → Result Unit
  | _, _, [] => .ok ()
  | prev, count, r :: rs => do
    Result.failIf (r.type = .unlock ∨ r.pid < 0 ∨ int32Max < r.pid ∨ r.stop ≤ r.start)
      (.malformed "malformed POSIX range")
    Result.failIf (prev.any fun p => r.start < p.stop || mergeable p r)
      (.malformed "POSIX range set is not canonical")
    Result.failIf (kMaxIntervals < count + 1) (.malformed "POSIX range count exceeds maximum")
    decodeRanges (some r) (count + 1) rs

/-- 生きている owner が持つ lock -/
structure Holder where
  generation : Nat
  kernelOwner : Nat
  ranges : List Interval := []
  flock : FlockType := .unlock

def decode (flock : Bool) (data : Record) (holder : Holder) : Result Holder :=
  match flock, data with
  | true, .flock .shared => .ok { holder with flock := .shared }
  | true, .flock .exclusive => .ok { holder with flock := .exclusive }
  | true, _ => .error (.malformed "invalid flock record")
  | false, .posix ranges => do
    Result.failIf (kMaxValueBytes < (encode ranges).length)
      (.malformed "lock owner value exceeds maximum size")
    Result.failIf (ranges = []) (.malformed "empty stored POSIX lock record")
    decodeRanges none 0 ranges
    return { holder with ranges }
  | false, _ => .error (.malformed "invalid POSIX lock record version")

/-! ## 範囲の更新 -/

/-- `part` から `request` と重なる部分を除いた残り -/
def cutOut (request part : Interval) : List Interval :=
  if overlaps part request then
    (if part.start < request.start then [{ part with stop := request.start }] else []) ++
      (if request.stop < part.stop then [{ part with start := request.stop }] else [])
  else [part]

/-- 直前の範囲に続けられるなら伸ばし、そうでなければ新しく積む。列は逆順に持つ -/
def pushRange : List Interval → Interval → List Interval
  | [], part => [part]
  | last :: rest, part =>
    if mergeable last part then { last with stop := part.stop } :: rest
    else part :: last :: rest

def updateRanges (ranges : List Interval) (request : Interval) : Result (List Interval) := do
  let next := ranges.flatMap (cutOut request) ++
    (if request.type = .unlock then [] else [request])
  let sorted := next.insertionSort fun a b => a.start ≤ b.start
  let merged := (sorted.foldl pushRange []).reverse
  Result.failIf (kMaxIntervals < merged.length ∨ kMaxValueBytes < (encode merged).length)
    (.noLocks "POSIX lock owner exceeds range budget")
  return merged

/-! ## key -/

/-- lock Hash の field。`fence` は transaction の中でだけ現れる -/
inductive Field where
  | owner (generation kernelOwner : Nat)
  | fence
deriving DecidableEq, Repr

def parseOwner : Field → Option (Nat × Nat)
  | .owner generation kernelOwner =>
    if 0 < generation then some (generation, kernelOwner) else none
  | .fence => none

/-- lease の key の状態。期限を持たない lease は作られないが、読む側は区別する -/
inductive Lease where
  | expiring
  | persistent
deriving DecidableEq, Repr

inductive Key where
  | lock (flock : Bool) (ino : InodeID)
  | ownerLease (generation : Nat)
  | ownerGeneration
deriving DecidableEq, Repr

abbrev Val : Key → Type
  | .lock .. => Hash Field Record
  | .ownerLease _ => Option Lease
  | .ownerGeneration => Option Nat

abbrev LockStore := Store Key Val
abbrev LockTxn (α : Type) := Txn Key Val Status α
abbrev LockCmd := Cmd Key Val

/-- format の直後の lock の key -/
def formattedLocks : LockStore
  | .lock .. => (∅ : Hash Field Record)
  | .ownerLease _ => (none : Option Lease)
  | .ownerGeneration => some 0

namespace LockCmd

def hset (flock : Bool) (ino : InodeID) (field : Field) (data : Record) : LockCmd where
  key := .lock flock ino
  run := fun h => AList.insert field data h
  dirties := fun _ => true
  clean := by simp

def hdel (flock : Bool) (ino : InodeID) (field : Field) : LockCmd where
  key := .lock flock ino
  run := fun h => AList.erase field h
  dirties := fun h => (AList.lookup field h).isSome
  clean := fun _ h => hashErase_eq_self h

def incrGeneration : LockCmd where
  key := .ownerGeneration
  run := fun counter => some (counter.getD 0 + 1)
  dirties := fun _ => true
  clean := by simp

def createOwnerLease (generation : Nat) : LockCmd where
  key := .ownerLease generation
  run := fun lease => some (lease.getD .expiring)
  dirties := fun lease => lease.isNone
  clean := fun lease h => by
    cases lease with
    | none => cases h
    | some l => rfl

/-- `RenewOwnerLease` の PEXPIRE XX。期限を延ばすだけで key を作らない -/
def renewOwnerLease (generation : Nat) : LockCmd where
  key := .ownerLease generation
  run := id
  dirties := fun lease => lease == some .expiring
  clean := fun _ _ => rfl

/-- `RevokeOwnerLease` の DEL。期限切れも同じ効果を持つ -/
def removeOwnerLease (generation : Nat) : LockCmd where
  key := .ownerLease generation
  run := fun _ => none
  dirties := Option.isSome
  clean := fun lease h => by
    cases lease with
    | none => rfl
    | some l => cases h

end LockCmd

def watch (k : Key) : LockTxn (Val k) :=
  Txn.read (.invalidArgument "Redis transaction cannot read after a write") k

def getLock (flock : Bool) (ino : InodeID) : LockTxn (Hash Field Record) := watch (.lock flock ino)

def getLease (generation : Nat) : LockTxn (Option Lease) := watch (.ownerLease generation)

def getGeneration : LockTxn (Option Nat) := watch .ownerGeneration

/-- PTTL の応答。`remaining` は期限までの残り時間で、store には現れない -/
def pttl (remaining : Nat → Nat) (generation : Nat) : Option Lease → Int
  | none => -2
  | some .persistent => -1
  | some .expiring => remaining generation

def pttlBatch (remaining : Nat → Nat) : List Nat → LockTxn (List (Nat × Int))
  | [] => pure []
  | g :: gs => do
    let lease ← getLease g
    let rest ← pttlBatch remaining gs
    pure ((g, pttl remaining g lease) :: rest)

def ttlOf (ttls : List (Nat × Int)) (generation : Nat) : Int := (ttls.lookup generation).getD (-2)

/-! ## transaction -/

/-- `ReadHolders` の結果 -/
structure Snapshot where
  holders : List Holder
  sawStale : Bool
  storedFields : Nat

def parseOwners : List (Field × Record) → Result (List (Nat × Nat × Record))
  | [] => .ok []
  | (field, data) :: rest =>
    match parseOwner field with
    | none => .error (.malformed "invalid lock owner field")
    | some (generation, kernelOwner) => do
      let others ← parseOwners rest
      return (generation, kernelOwner, data) :: others

/-- lease の有無で生きている owner を選ぶ。期限の切れた owner があれば二つ目が真になる -/
def liveHolders (flock : Bool) (ttls : List (Nat × Int)) :
    List (Nat × Nat × Record) → Result (List Holder × Bool)
  | [] => .ok ([], false)
  | (generation, kernelOwner, data) :: rest => do
    let ttl := ttlOf ttls generation
    Result.failIf (ttl = -1) (.malformed "holder Owner Lease has no mandatory expiry")
    if 0 ≤ ttl then
      let holder ← decode flock data { generation, kernelOwner }
      let (holders, stale) ← liveHolders flock ttls rest
      return (holder :: holders, stale)
    else
      let (holders, _) ← liveHolders flock ttls rest
      return (holders, true)

def entriesOf (h : Hash Field Record) : List (Field × Record) := h.entries.map fun e => (e.1, e.2)

def readHolders (flock : Bool) (ino : InodeID) (requester : Nat) (remaining : Nat → Nat) :
    LockTxn Snapshot := do
  let counted ← getLock flock ino
  Txn.failIf (kMaxHolders < counted.entries.length)
    (.noLocks "inode lock Hash exceeds the owner limit")
  let entries ← getLock flock ino
  Txn.failIf (kMaxHolders < entries.entries.length)
    (.noLocks "inode lock Hash changed beyond limit")
  let candidates ← Txn.ofExcept (parseOwners (entriesOf entries))
  let ttls ← pttlBatch remaining (requester :: candidates.map (·.1)).eraseDups
  Txn.failIf (ttlOf ttls requester ≤ 0) (.unavailable "requester Owner Lease is no longer valid")
  let (holders, sawStale) ← Txn.ofExcept (liveHolders flock ttls candidates)
  pure ⟨holders, sawStale, entries.entries.length⟩

/--
`SetState`。無い field の HDEL は key を変更したと数えられないので、
field の無い owner の解放では `fence` を書いて消す。
-/
def setState (flock : Bool) (ino : InodeID) (field : Field) (data : Option Record)
    (fieldExists : Bool) : LockTxn Unit :=
  match data with
  | some r => Txn.write (LockCmd.hset flock ino field r)
  | none =>
    if fieldExists then Txn.write (LockCmd.hdel flock ino field)
    else do
      Txn.write (LockCmd.hset flock ino .fence .fence)
      Txn.write (LockCmd.hdel flock ino field)
      Txn.write (LockCmd.hdel flock ino .fence)

def Holder.isOwner (holder : Holder) (generation kernelOwner : Nat) : Bool :=
  holder.generation == generation && holder.kernelOwner == kernelOwner

def posixConflict (request other : Interval) : Bool :=
  overlaps request other && (request.type == .write || other.type == .write)

def setPosix (generation kernelOwner : Nat) (ino : InodeID) (remaining : Nat → Nat)
    (range : PosixRange) : LockTxn Unit := do
  let request ← Txn.ofExcept (validateRange range)
  let snapshot ← readHolders false ino generation remaining
  let own := snapshot.holders.find? (·.isOwner generation kernelOwner)
  Txn.failIf (request.type ≠ .unlock ∧ snapshot.holders.any fun holder =>
      !holder.isOwner generation kernelOwner && holder.ranges.any (posixConflict request))
    (.wouldBlock "conflicting POSIX record lock")
  let owned ← Txn.ofExcept (updateRanges ((own.map (·.ranges)).getD []) request)
  Txn.failIf (own.isNone ∧ owned ≠ [] ∧ kMaxHolders ≤ snapshot.storedFields)
    (.noLocks "inode POSIX lock holder limit reached")
  setState false ino (.owner generation kernelOwner)
    (if owned = [] then none else some (.posix owned)) own.isSome

def flockConflict (type other : FlockType) : Bool :=
  type != .unlock && (type == .exclusive || other == .exclusive)

/-- `SetFlock` の transaction。変換できずに古い lock を手放したとき真を返す -/
def setFlock (generation kernelOwner : Nat) (ino : InodeID) (remaining : Nat → Nat)
    (type : FlockType) : LockTxn Bool := do
  let snapshot ← readHolders true ino generation remaining
  let own := snapshot.holders.find? (·.isOwner generation kernelOwner)
  if snapshot.holders.any fun holder =>
      !holder.isOwner generation kernelOwner && flockConflict type holder.flock then
    if own.any fun holder => holder.flock != type then do
      setState true ino (.owner generation kernelOwner) none true
      pure true
    else Txn.throw (.wouldBlock "conflicting BSD flock")
  else do
    Txn.failIf (own.isNone ∧ type ≠ .unlock ∧ kMaxHolders ≤ snapshot.storedFields)
      (.noLocks "inode flock holder limit reached")
    setState true ino (.owner generation kernelOwner)
      (if type = .unlock then none else some (.flock type)) own.isSome
    pure false

def hdelAll (flock : Bool) (ino : InodeID) : List Field → LockTxn Unit
  | [] => pure ()
  | field :: fields => do
    Txn.write (LockCmd.hdel flock ino field)
    hdelAll flock ino fields

/-- `CleanupStale` の transaction。`page` は HSCAN がこの回に返す field -/
def cleanupStale (flock : Bool) (ino : InodeID) (remaining : Nat → Nat) (page : Field → Bool) :
    LockTxn Unit := do
  let entries ← getLock flock ino
  let candidates := ((entriesOf entries).map (·.1)).filter fun field =>
    page field && (parseOwner field).isSome
  let ttls ← pttlBatch remaining (candidates.filterMap fun f => (parseOwner f).map (·.1)).eraseDups
  hdelAll flock ino (candidates.filter fun field =>
    (parseOwner field).any fun owner => ttlOf ttls owner.1 == -2)

def allocateGeneration : LockTxn Nat := do
  match ← getGeneration with
  | none => Txn.throw (.unavailable "lock owner generation counter is missing; reformat required")
  | some previous => do
    Txn.failIf (2 ^ 63 - 1 ≤ previous)
      (.malformed "lock owner generation counter is corrupt or exhausted")
    Txn.write LockCmd.incrGeneration
    pure (previous + 1)

end SwordFS.Metadata.Lock
