import SwordFS.Infra.Threads
import SwordFS.Metadata.Redis.LockAuthority

/-!
# FuseAdvisoryLocks

`FuseAdvisoryLocks.cpp` の POSIX record lock の側を、thread ごとの program counter を持つ
状態機械として写す。

* 一つの動作は、`posix_owner_mutex_` の下の区間か、lock authority への一回の試みである
* owner ごとの mutex（`posix_operation_mutexes_` の stripe）は動作をまたいで持たれる。誰が持つかは
  program counter で決まる
* authority は、owner ごとに持っている範囲と、送られたがまだ実行されていない変更を持つ。確認の取れた
  変更は、それより前に送られた変更をすべて無効にする（`Metadata.Lock.delayed_exec_fenced`）
-/

namespace SwordFS.Fuse

open Metadata (Hash)
open Metadata.Lock (PosixType PosixRange)

/-! ## authority -/

/-- この mount の owner を指す組 -/
structure OwnerKey where
  ino : Nat
  owner : Nat
deriving DecidableEq, Repr

abbrev Held := Nat → Option PosixType

/-- 範囲が位置 `p` を含む。長さ 0 は末尾までを表す -/
def covers (r : PosixRange) (p : Nat) : Bool :=
  r.start.toNat ≤ p && (r.length.toNat == 0 || p < r.start.toNat + r.length.toNat)

/-- `authority_.SetPosix` が成功したときに持つもの -/
def Held.update (h : Held) (r : PosixRange) : Held := fun p =>
  if covers r p then (if r.type = .unlock then none else some r.type) else h p

def fullUnlock : PosixRange := ⟨0, 0, .unlock, 0⟩

/-- 送られたがまだ実行されていない変更。`cleanup` は、後始末が送ったものならその attempt -/
structure Late where
  held : Held
  cleanup : Option Nat

/-- authority が一つの owner について持つもの -/
structure Authority where
  held : Held := fun _ => none
  late : List Late := []

namespace Authority

/-- 変更が実行される。Hash が書き換わるので、それより前に送られた変更は捨てられる -/
def apply (a : Authority) (r : PosixRange) : Authority := { held := a.held.update r }

def delay (a : Authority) (r : PosixRange) (cleanup : Option Nat) : Authority :=
  { a with late := ⟨a.held.update r, cleanup⟩ :: a.late }

end Authority

/-! ## 手元の状態 -/

structure PosixOwnerHint where
  attempt : Nat := 0
  cleanupPending : Bool := false
deriving DecidableEq, Repr

structure AdvisoryLocks where
  /-- `posix_owner_attempts_` -/
  attempts : Hash OwnerKey PosixOwnerHint := ∅
  nextPosixAttempt : Nat := 0
  /-- `posix_handle_owners_`。inode と handle ごとに、owner とその attempt -/
  handleOwners : Nat → Nat → Hash Nat Nat := fun _ _ => ∅
  cleanupRunning : Bool := false
  authority : OwnerKey → Authority := fun _ => {}

namespace AdvisoryLocks

def setAuthority (s : AdvisoryLocks) (k : OwnerKey) (a : Authority) : AdvisoryLocks :=
  { s with authority := Function.update s.authority k a }

def setHint (s : AdvisoryLocks) (k : OwnerKey) (h : PosixOwnerHint) : AdvisoryLocks :=
  { s with attempts := AList.insert k h s.attempts }

def eraseHint (s : AdvisoryLocks) (k : OwnerKey) : AdvisoryLocks :=
  { s with attempts := AList.erase k s.attempts }

/-- 新しい attempt を記録する。handle があれば、その owner の attempt も覚える -/
def markAttempt (s : AdvisoryLocks) (k : OwnerKey) (fh : Option Nat) : AdvisoryLocks :=
  let attempt := s.nextPosixAttempt + 1
  { s.setHint k { (s.attempts.lookup k).getD {} with attempt } with
    nextPosixAttempt := attempt
    handleOwners := match fh with
      | none => s.handleOwners
      | some fh => fun ino fh' => if ino = k.ino ∧ fh' = fh then
          AList.insert k.owner attempt (s.handleOwners ino fh') else s.handleOwners ino fh' }

def pendingCleanups (s : AdvisoryLocks) : List (OwnerKey × Nat) :=
  s.attempts.entries.filterMap fun e => if e.2.cleanupPending then some (e.1, e.2.attempt) else none

end AdvisoryLocks

/-! ## `ToRange` -/

inductive FlockKind where
  | rdlck
  | wrlck
  | unlck
  | other
deriving DecidableEq, Repr

/-- `struct flock`。`seekSet` は `l_whence` が `SEEK_SET` であること -/
structure Flock where
  seekSet : Bool := true
  start : Int
  len : Int
  kind : FlockKind
  pid : Int32 := 0

def offTMax : Int := 2 ^ 63 - 1

def toRange (lock : Flock) (allowUnlock : Bool) : Result PosixRange :=
  if !lock.seekSet ∨ lock.start < 0 ∨ lock.len < 0 ∨
      (lock.len ≠ 0 ∧ offTMax - lock.len < lock.start) then
    .error (.invalidArgument "invalid normalized POSIX lock range")
  else
    let range := fun type =>
      (⟨.ofNat lock.start.toNat, .ofNat lock.len.toNat, type, lock.pid⟩ : PosixRange)
    match lock.kind with
    | .rdlck => .ok (range .read)
    | .wrlck => .ok (range .write)
    | .unlck =>
      if allowUnlock then .ok (range .unlock)
      else .error (.invalidArgument "GETLK requires a read or write lock")
    | .other => .error (.invalidArgument "unknown POSIX lock type")

/-! ## program counter -/

/-- `SetPosix` の引数 -/
structure SetCall where
  key : OwnerKey
  range : PosixRange
  blocking : Bool
  fileHandle : Option Nat

/-- `UnlockPosixOwnerIfCurrent` を呼んだもの。残りの仕事を持つ -/
inductive After where
  | flush
  | release (ino : Nat) (rest : List (Nat × Nat)) (firstError : Option Status)
  | background (rest : List (OwnerKey × Nat))

/-- `UnlockPosixOwnerIfCurrent` の引数 -/
structure UnlockCall where
  key : OwnerKey
  expected : Option Nat := none
  pendingOnly : Bool := false
  after : After := .flush

inductive LockPc where
  /-- stripe を取る前。blocking の loop の先頭でもある -/
  | setLock (c : SetCall)
  | setCheck (c : SetCall)
  /-- 待たされていた後始末の full unlock -/
  | setCleanup (c : SetCall) (attempt : Nat)
  | setErase (c : SetCall)
  | setMark (c : SetCall)
  /-- 要求そのもの -/
  | setCall (c : SetCall)
  /-- `WaitForAvailability` -/
  | setWait (c : SetCall)
  /-- `SchedulePosixCleanup` をして失敗を返す -/
  | setFailed (e : Status)
  | unlockLock (u : UnlockCall)
  | unlockCheck (u : UnlockCall)
  /-- full unlock。`attempt` は後始末を始めたときの hint のもの -/
  | unlockCall (u : UnlockCall) (attempt : Nat)
  | unlockErase (u : UnlockCall)
  /-- `SchedulePosixCleanup` をして、呼んだものへ失敗を返す -/
  | unlockFailed (u : UnlockCall) (e : Status)
  | releaseTake (ino fh : Nat)
  | releaseNext (ino : Nat) (rest : List (Nat × Nat)) (firstError : Option Status)
  /-- 後始末の fiber が、待っているものを集める -/
  | collect
  | cleanupNext (rest : List (OwnerKey × Nat))
  | done (r : Option Status)

def LockPc.holdsKey : LockPc → Option OwnerKey
  | .setCheck c | .setCleanup c _ | .setErase c | .setMark c | .setCall c => some c.key
  | .unlockCheck u | .unlockCall u _ | .unlockErase u => some u.key
  | _ => none

/-- authority の一回の試みの結果 -/
inductive Reply where
  /-- 確認の取れた成功 -/
  | ack
  /-- 効果なく失敗した -/
  | refuse (e : Status)
  /-- 実行されたが返事を失い、試みを続ける -/
  | applied
  /-- 送ったが返事を失い、実行は後になる。試みを続ける -/
  | delayed
  /-- 結果を確かめられないまま諦めた -/
  | giveUp

/-- 一つの動作で外界が選ぶもの -/
structure Oracle where
  reply : Reply := .ack
  /-- 取り消された、待ちに失敗した、または止められている -/
  fault : Option Status := none
  /-- 次に処理する要素。map の走査順は決まっていない -/
  pick : Nat := 0

def outcomeError : Status :=
  .ioError "POSIX lock outcome could not be confirmed after bounded retries"

/-- authority を呼ぶ。返れば結果を、試みを続けるなら `none` を返す -/
def callAuthority (s : AdvisoryLocks) (k : OwnerKey) (r : PosixRange) (cleanup : Option Nat) :
    Reply → AdvisoryLocks × Option (Option Status)
  | .ack => (s.setAuthority k ((s.authority k).apply r), some none)
  | .refuse e => (s, some (some e))
  | .applied => (s.setAuthority k ((s.authority k).apply r), none)
  | .delayed => (s.setAuthority k ((s.authority k).delay r cleanup), none)
  | .giveUp => (s, some (some outcomeError))

/-- `SchedulePosixCleanup`。止められていれば何もしない。fiber を始めるなら `true` -/
def schedulePosixCleanup (s : AdvisoryLocks) (stopping : Bool) : AdvisoryLocks × Bool :=
  if stopping ∨ s.cleanupRunning then (s, false) else ({ s with cleanupRunning := true }, true)

def After.resume : After → Option Status → LockPc
  | .flush, r => .done r
  | .release ino rest first, r => .releaseNext ino rest (first.or r)
  | .background rest, _ => .cleanupNext rest

/-- 一つの動作の結果。`spawn` なら後始末の fiber を始める -/
structure Moved where
  state : AdvisoryLocks
  pc : LockPc
  spawn : Bool := false

/-- 一つの thread の一動作。`busy` は、その stripe を他の thread が持つこと -/
def LockPc.exec (busy : OwnerKey → Bool) (o : Oracle) (s : AdvisoryLocks) : LockPc → Option Moved
  | .setLock c =>
    if c.blocking ∧ o.fault.isSome then
      some ⟨s, .done (some ⟨.interrupted, "cancelled POSIX lock wait"⟩), false⟩
    else if busy c.key then none
    else some ⟨s, .setCheck c, false⟩
  | .setCheck c => match s.attempts.lookup c.key with
    | some h => if h.cleanupPending then some ⟨s, .setCleanup c h.attempt, false⟩
      else some ⟨s, .setMark c, false⟩
    | none => some ⟨s, .setMark c, false⟩
  | .setCleanup c attempt =>
    match callAuthority s c.key fullUnlock (some attempt) o.reply with
    | (s', none) => some ⟨s', .setCleanup c attempt, false⟩
    | (s', some none) => some ⟨s', .setErase c, false⟩
    | (s', some (some e)) => some ⟨s', .setFailed e, false⟩
  | .setErase c => some ⟨s.eraseHint c.key, .setMark c, false⟩
  | .setMark c =>
    if c.range.type = .unlock then some ⟨s, .setCall c, false⟩
    else some ⟨s.markAttempt c.key c.fileHandle, .setCall c, false⟩
  | .setCall c => match callAuthority s c.key c.range none o.reply with
    | (s', none) => some ⟨s', .setCall c, false⟩
    | (s', some none) => some ⟨s', .done none, false⟩
    | (s', some (some e)) =>
      if !c.blocking ∨ c.range.type = .unlock ∨ e.code ≠ .wouldBlock then
        some ⟨s', .done (some e), false⟩
      else some ⟨s', .setWait c, false⟩
  | .setWait c => match o.fault with
    | some e => some ⟨s, .done (some e), false⟩
    | none => some ⟨s, .setLock c, false⟩
  | .setFailed e =>
    let (s', spawn) := schedulePosixCleanup s o.fault.isSome
    some ⟨s', .done (some e), spawn⟩
  | .unlockLock u => if busy u.key then none else some ⟨s, .unlockCheck u, false⟩
  | .unlockCheck u => match s.attempts.lookup u.key with
    | none => some ⟨s, u.after.resume none, false⟩
    | some h =>
      if u.expected.any (· ≠ h.attempt) ∨ (u.pendingOnly ∧ !h.cleanupPending) then
        some ⟨s, u.after.resume none, false⟩
      else some ⟨s.setHint u.key { h with cleanupPending := true }, .unlockCall u h.attempt, false⟩
  | .unlockCall u attempt =>
    match callAuthority s u.key fullUnlock (some (u.expected.getD attempt)) o.reply with
    | (s', none) => some ⟨s', .unlockCall u attempt, false⟩
    | (s', some none) => some ⟨s', .unlockErase u, false⟩
    | (s', some (some e)) => some ⟨s', .unlockFailed u e, false⟩
  | .unlockErase u => some ⟨s.eraseHint u.key, u.after.resume none, false⟩
  | .unlockFailed u e =>
    let (s', spawn) := schedulePosixCleanup s o.fault.isSome
    some ⟨s', u.after.resume (some e), spawn⟩
  | .releaseTake ino fh =>
    some ⟨{ s with handleOwners := fun ino' fh' =>
        if ino' = ino ∧ fh' = fh then ∅ else s.handleOwners ino' fh' },
      .releaseNext ino ((s.handleOwners ino fh).entries.map fun e => (e.1, e.2)) none, false⟩
  | .releaseNext ino rest first => match rest with
    | [] => some ⟨s, .done first, false⟩
    | _ => match rest[o.pick]? with
      | none => none
      | some (owner, attempt) => some ⟨s, .unlockLock ⟨⟨ino, owner⟩, some attempt, false,
          .release ino (rest.eraseIdx o.pick) first⟩, false⟩
  | .collect =>
    if o.fault.isSome ∨ s.pendingCleanups = [] then
      some ⟨{ s with cleanupRunning := false }, .done none, false⟩
    else some ⟨s, .cleanupNext s.pendingCleanups, false⟩
  | .cleanupNext rest =>
    if o.fault.isSome ∨ rest = [] then some ⟨s, .collect, false⟩
    else match rest[o.pick]? with
      | none => none
      | some (key, attempt) => some ⟨s, .unlockLock ⟨key, some attempt, true,
          .background (rest.eraseIdx o.pick)⟩, false⟩
  | .done _ => none

/-! ## 呼び出しと実行 -/

/-- FUSE からの呼び出し -/
inductive LockRequest where
  | setPosix (ino owner : Nat) (lock : Flock) (blocking : Bool) (fileHandle : Option Nat)
  | unlockPosixOwner (ino owner : Nat)
  | releasePosixHandle (ino fh : Nat)

def LockRequest.entry : LockRequest → LockPc
  | .setPosix ino owner lock blocking fh => match toRange lock true with
    | .error e => .done (some e)
    | .ok range => .setLock ⟨⟨ino, owner⟩, range, blocking, fh⟩
  | .unlockPosixOwner ino owner => .unlockLock { key := ⟨ino, owner⟩ }
  | .releasePosixHandle ino fh => .releaseTake ino fh

/-- 手元の状態、authority、進行中の呼び出し -/
structure LockSystem where
  locks : AdvisoryLocks := {}
  threads : List LockPc := []

/-- 一手 -/
inductive LockEvent where
  | call (r : LockRequest)
  | run (i : Nat) (o : Oracle)
  /-- 送られていた変更の一つが、いま実行される -/
  | late (k : OwnerKey) (n : Nat)
  /-- 他の client の変更が、送られていた変更を無効にする -/
  | fence (k : OwnerKey)

/-- 起きたこと -/
inductive LockLabel where
  | call (r : LockRequest)
  | ran (i : Nat) (pc pc' : LockPc)
  | late (k : OwnerKey) (l : Late)
  | fence (k : OwnerKey)

namespace LockSystem

variable {β : Type} [DecidableEq β]

/-- `PosixOperationMutex`。`stripe` は owner から mutex への割り当て -/
def busy (stripe : OwnerKey → β) (S : LockSystem) (i : Nat) (k : OwnerKey) : Bool :=
  (S.threads.eraseIdx i).any fun pc => pc.holdsKey.any fun k' => stripe k' = stripe k

def step (stripe : OwnerKey → β) (S : LockSystem) : LockEvent → Option (LockLabel × LockSystem)
  | .call r => some (.call r, { S with threads := S.threads ++ [r.entry] })
  | .run i o => match S.threads[i]? with
    | none => none
    | some pc => match pc.exec (S.busy stripe i) o S.locks with
      | none => none
      | some m => some (.ran i pc m.pc, {
          locks := m.state
          threads := S.threads.set i m.pc ++ (if m.spawn then [.collect] else []) })
  | .late k n => match (S.locks.authority k).late[n]? with
    | none => none
    | some l => some (.late k l, { S with locks := S.locks.setAuthority k { held := l.held } })
  | .fence k => some (.fence k, { S with
      locks := S.locks.setAuthority k { S.locks.authority k with late := [] } })

end LockSystem

end SwordFS.Fuse
