import Mathlib.Data.Prod.Lex
import Mathlib.Order.BooleanAlgebra.Basic
import SwordFS.Infra.Rotation
import SwordFS.Infra.Threads
import SwordFS.Metadata.Redis.LockInspect

/-!
# lock の再試行の調整役

`LockRetryScheduler`。待っている要求を inode ごとにまとめ、read-only の問い合わせで空きを調べて起こす。
-/

namespace SwordFS.Fuse

open SwordFS.Infra SwordFS.Metadata SwordFS.Metadata.Lock

def kMaxWaiters : Nat := 1024
def kMaxGroupsPerTick : Nat := 4
def kMaxWakePerGroup : Nat := 8

/-- 待っている要求の内容 -/
structure Waiter where
  inodeIno : InodeID
  kernelOwner : Nat
  flock : Bool
  range : PosixRange := ⟨0, 0, .read, 0⟩
  flockType : FlockType := .unlock

/-! ## 空きの判定 -/

def endOfRange (range : PosixRange) : UInt64 :=
  if range.length = 0 then UInt64.ofNat uint64Max else range.start + range.length

def rangeConflicts (left right : PosixRange) : Bool :=
  left.start < endOfRange right && right.start < endOfRange left &&
    (left.type == .write || right.type == .write)

/-- 自分のものでない holder が要求を妨げる -/
def blocks (waiter : Waiter) (holder : LockHolder) : Bool :=
  if holder.localGeneration && holder.kernelOwner == waiter.kernelOwner then false
  else if waiter.flock then waiter.flockType == .exclusive || holder.flock == .exclusive
  else holder.ranges.any (rangeConflicts waiter.range)

def eligible (waiter : Waiter) (holders : List LockHolder) : Bool := !holders.any (blocks waiter)

def compatible (left right : Waiter) : Bool :=
  if left.flock then left.flockType == .shared && right.flockType == .shared
  else !rangeConflicts left.range right.range

/-! ## group -/

abbrev GroupKey := InodeID ×ₗ Bool

def Waiter.key (w : Waiter) : GroupKey := toLex (w.inodeIno, w.flock)

abbrev Group := GroupKey × List Nat

/-- `groups[key].push_back(waiter)`。`std::map` は key の順に並ぶ -/
def insertGroup (key : GroupKey) (id : Nat) : List Group → List Group
  | [] => [(key, [id])]
  | (k, ids) :: rest =>
    if key < k then (key, [id]) :: (k, ids) :: rest
    else if key = k then (k, ids ++ [id]) :: rest
    else (k, ids) :: insertGroup key id rest

/-! ## 調整役の機械 -/

/--
登録された waiter。

`probeError` は、ある status の errno か、`none` で表した 0 である。`posts` は `baton.post()` の回数。
-/
structure WaiterCell where
  waiter : Waiter
  active : Bool := true
  notified : Bool := false
  probeError : Option Status := none
  posts : Nat := 0

/-- 一つの group の waiter を順に調べる loop -/
inductive PassPc where
  /-- `Inspect` が失敗した -/
  | failing (e : Status) (todo : List Nat)
  | selecting (holders : List LockHolder) (todo : List Nat) (selected : List Waiter)

/-- `RunCoordinator` の次の一手 -/
inductive CoordinatorPc where
  | check
  | probe
  /-- mutex の中で group を集めている -/
  | collect (todo : List Nat) (groups : List Group)
  | inspect (queue : List Group)
  | pass (p : PassPc) (queue : List Group)
  /-- `NotifyPotentialAvailability` の `active.load` -/
  | load (id : Nat) (error : Option Status) (p : PassPc) (queue : List Group)
  /-- `NotifyPotentialAvailability` の `notified.exchange` -/
  | exchange (id : Nat) (error : Option Status) (p : PassPc) (queue : List Group)
  | sleep
  | exited

def CoordinatorPc.holdsMutex : CoordinatorPc → Bool
  | .collect .. => true
  | _ => false

def CoordinatorPc.live : CoordinatorPc → Bool
  | .exited => false
  | _ => true

structure Scheduler where
  /-- waiter の実体。`shared_ptr` が指すもの -/
  cells : Nat → WaiterCell
  /-- 次の waiter の番号 -/
  fresh : Nat
  waiters : List Nat
  coordinatorRunning : Bool
  /-- submit された `RunCoordinator` の task -/
  coordinators : List CoordinatorPc
  nextGroup : Nat

/-- 一手の間に起きた、外から見えること -/
inductive SchedulerLabel where
  | silent
  /-- 集めた group が空の tick -/
  | emptyTick (start : Nat)
  | tick (start : Nat) (groups : List GroupKey)
  | inspected (key : GroupKey)
  | woke (waiter : Waiter) (error : Option Status)
  | ended

namespace Scheduler

def initial : Scheduler where
  cells _ := { waiter := { inodeIno := 0, kernelOwner := 0, flock := false } }
  fresh := 0
  waiters := []
  coordinatorRunning := false
  coordinators := []
  nextGroup := 0

variable (S : Scheduler)

def mutexFree : Bool := S.coordinators.all fun pc => !pc.holdsMutex

def setCell (id : Nat) (cell : WaiterCell) : Scheduler :=
  { S with cells := Function.update S.cells id cell }

/-- `notified.exchange(true)` に勝てば baton を post する -/
def post (id : Nat) (error : Option Status) : Scheduler :=
  S.setCell id { S.cells id with
    notified := true, probeError := error, posts := (S.cells id).posts + 1 }

/-- `RegisterWaiter`。`submitted` は task の submit の成否 -/
def registerWaiter (w : Waiter) (submitted : Bool) : Result Unit × Scheduler :=
  if kMaxWaiters ≤ S.waiters.length then
    (.error (.noLocks "Mount advisory lock waiter admission limit reached"), S)
  else
    let S' := { S.setCell S.fresh { waiter := w } with
      fresh := S.fresh + 1, waiters := S.waiters ++ [S.fresh] }
    if S.coordinatorRunning then (.ok (), S')
    else if !submitted then
      (.error (.unavailable "cannot start lock retry coordinator"),
        { S' with waiters := S.waiters })
    else
      (.ok (), { S' with
        coordinatorRunning := true, coordinators := S.coordinators ++ [.check] })

def removeWaiter (id : Nat) : Scheduler :=
  { S.setCell id { S.cells id with active := false } with
    waiters := S.waiters.filter (· ≠ id) }

def cancel (id : Nat) : Scheduler :=
  if (S.cells id).notified then S else S.post id (S.cells id).probeError

/-- 集め終えた group から、この tick で調べる group を選ぶ -/
def budget (groups : List Group) : Nat := min kMaxGroupsPerTick groups.length

/-- waiter を一つ調べる。起こすなら、その通知に進む -/
def examine (holders : List LockHolder) (id : Nat) (todo : List Nat) (selected : List Waiter)
    (queue : List Group) : CoordinatorPc :=
  let cell := S.cells id
  if !cell.active || cell.notified || !eligible cell.waiter holders then
    .pass (.selecting holders todo selected) queue
  else if selected.any fun other => !compatible cell.waiter other then
    .pass (.selecting holders todo selected) queue
  else
    let rest := if kMaxWakePerGroup ≤ selected.length + 1 then [] else todo
    .load id none (.selecting holders rest (selected ++ [cell.waiter])) queue

/-- 調整役の一手。`reply` は `Inspect` の結果で、その手でだけ使う -/
def advance (reply : Result (List LockHolder)) :
    CoordinatorPc → Option (SchedulerLabel × Scheduler × CoordinatorPc)
  | .check =>
    if S.waiters = [] then some (.silent, { S with coordinatorRunning := false }, .exited)
    else some (.silent, S, .probe)
  | .probe => some (.silent, S, .collect S.waiters [])
  | .collect (id :: todo) groups =>
    let cell := S.cells id
    some (.silent, S, .collect todo
      (if cell.active && !cell.notified then insertGroup cell.waiter.key id groups else groups))
  | .collect [] groups =>
    if groups = [] then some (.emptyTick S.nextGroup, S, .sleep)
    else some (.tick S.nextGroup (groups.map (·.1)),
      { S with nextGroup := (S.nextGroup + budget groups) % 2 ^ 64 },
      .inspect (window groups S.nextGroup (budget groups)))
  | .inspect [] => some (.ended, S, .sleep)
  | .inspect ((key, ids) :: queue) =>
    match reply with
    | .error e => some (.inspected key, S, .pass (.failing e ids) queue)
    | .ok holders => some (.inspected key, S, .pass (.selecting holders ids []) queue)
  | .pass (.failing _ []) queue => some (.silent, S, .inspect queue)
  | .pass (.failing e (id :: todo)) queue =>
    some (.silent, S, .load id (some e) (.failing e todo) queue)
  | .pass (.selecting _ [] _) queue => some (.silent, S, .inspect queue)
  | .pass (.selecting holders (id :: todo) selected) queue =>
    some (.silent, S, S.examine holders id todo selected queue)
  | .load id error p queue =>
    some (.silent, S,
      if (S.cells id).active then .exchange id error p queue else .pass p queue)
  | .exchange id error p queue =>
    if (S.cells id).notified then some (.silent, S, .pass p queue)
    else some (.woke (S.cells id).waiter error, S.post id error, .pass p queue)
  | .sleep => some (.silent, S, .check)
  | .exited => none

end Scheduler

inductive SchedulerEvent where
  | register (w : Waiter) (submitted : Bool)
  | remove (id : Nat)
  | cancel (id : Nat)
  /-- `i` 番目の調整役の一手 -/
  | coordinator (i : Nat) (reply : Result (List LockHolder))

/-- 一手。mutex を取る操作は、group を集めている間は進めない -/
def schedulerStep (S : Scheduler) : SchedulerEvent → Option (SchedulerLabel × Scheduler)
  | .register w submitted =>
    if S.mutexFree then some (.silent, (S.registerWaiter w submitted).2) else none
  | .remove id =>
    if S.mutexFree ∧ id < S.fresh then some (.silent, S.removeWaiter id) else none
  | .cancel id => if id < S.fresh then some (.silent, S.cancel id) else none
  | .coordinator i reply => do
    let pc ← S.coordinators[i]?
    let (label, S', pc') ← S.advance reply pc
    return (label, { S' with coordinators := S'.coordinators.set i pc' })

/-! ## 実行の記録 -/

/-- 一回の `ProbeWaiters` -/
structure Tick where
  /-- 始まりの `next_group_` -/
  start : Nat
  /-- 集めた group の key -/
  groups : List GroupKey
  /-- `Inspect` した group -/
  inspected : List GroupKey
deriving DecidableEq

structure SchedulerLog where
  /-- 終わった tick、古い順 -/
  ticks : List Tick
  current : Option Tick
  /-- group ごとに、error 0 で起こした waiter。新しい group が先頭 -/
  passes : List (List Waiter)

namespace SchedulerLog

def wake (w : Waiter) : List (List Waiter) → List (List Waiter)
  | [] => [[w]]
  | pass :: rest => (w :: pass) :: rest

def watch (g : SchedulerLog) (_ : Scheduler) : SchedulerLabel → SchedulerLog
  | .silent => g
  | .emptyTick start => { g with ticks := g.ticks ++ [⟨start, [], []⟩] }
  | .tick start groups => { g with current := some ⟨start, groups, []⟩ }
  | .inspected key => { g with
      current := g.current.map fun t => { t with inspected := t.inspected ++ [key] }
      passes := [] :: g.passes }
  | .woke _ (some _) => g
  | .woke w none => { g with passes := wake w g.passes }
  | .ended => { g with ticks := g.ticks ++ g.current.toList, current := none }

end SchedulerLog

def schedulerRun (evs : List SchedulerEvent) : Scheduler × SchedulerLog :=
  runWith schedulerStep SchedulerLog.watch (.initial, ⟨[], none, []⟩) evs

end SwordFS.Fuse
