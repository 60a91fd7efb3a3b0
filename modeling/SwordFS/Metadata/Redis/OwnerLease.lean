import Mathlib.Logic.Function.Basic
import SwordFS.Metadata.Redis.LockAuthority

/-!
# lock owner の lease

`RedisOwnerLease` を、時計と遅れて届く command を持つ状態機械として表す。

`Register`、heartbeat の `Renew`、`Revoke` は `mutex_` を取って進むので、
一つの lease につき高々一つが途中にある（`Phase`）。
`CanGrant` は lock を取らず、atomic の読み書き一つずつで他と入り混じる（`Probe`）。

Redis へ送った command はいつか一度だけ実行されるか、失われる。
返事も遅れうるし、届かないこともある。
local の時計は Redis の時計から一定だけずれている。
-/

namespace SwordFS.Metadata.Lock

open Infra Function

/-! ## timing -/

/-- `RedisOwnerLease::Timing`。単位は ms -/
structure LeaseTiming where
  ttl : Int := 60000
  renewInterval : Int := 10000
  safetyMargin : Int := 15000
  ioTimeout : Int := 5000

namespace LeaseTiming

def validate (t : LeaseTiming) : Result Unit :=
  Result.failIf
    (t.ttl ≤ 0 ∨ 24 * 60 * 60 * 1000 < t.ttl ∨ t.safetyMargin ≤ 0 ∨ t.ttl ≤ t.safetyMargin ∨
      t.renewInterval ≤ 0 ∨ t.ioTimeout ≤ 0 ∨ 5000 < t.ioTimeout ∨
      t.ttl - t.safetyMargin ≤ t.ioTimeout ∨
      t.ttl - t.safetyMargin - t.ioTimeout ≤ t.renewInterval)
    (.invalidArgument "invalid lock owner lease timings")

def ttlNs (t : LeaseTiming) : Int := t.ttl * 1000000

def marginNs (t : LeaseTiming) : Int := t.safetyMargin * 1000000

def lifetimeNs (t : LeaseTiming) : Int := (t.ttl - t.safetyMargin) * 1000000

end LeaseTiming

def int64Max : Int := 2 ^ 63 - 1

/-! ## Redis の command -/

/-- lease の key に対する command。key は generation で決まる -/
inductive LeaseCommand where
  | create (generation : Nat) (ttl : Int)
  | renew (generation : Nat) (ttl : Int)
  | revoke (generation : Nat)

namespace LeaseCommand

def generation : LeaseCommand → Nat
  | .create g _ => g
  | .renew g _ => g
  | .revoke g => g

/--
時刻 `now` での実行。返事と、実行後の期限を返す。

* `SET NX PX` は生きた key があれば何もしない
* `PEXPIRE XX` は生きた key がなければ何もしない
* `DEL` は key を消す
-/
def exec (now : Int) (current : Option Int) : LeaseCommand → Bool × Option Int
  | .create _ ttl => if current.any (now < ·) then (false, current) else (true, some (now + ttl))
  | .renew _ ttl => if current.any (now < ·) then (true, some (now + ttl)) else (false, current)
  | .revoke _ => (true, none)

end LeaseCommand

/-- Redis の側と、送られてまだ実行されていない command -/
structure LeaseNet where
  now : Int
  store : LockStore
  /-- generation ごとの key の期限 -/
  expiry : Nat → Option Int
  sent : Nat → Option LeaseCommand
  replies : Nat → Option Bool
  /-- 次に送る command の番号 -/
  serial : Nat

namespace LeaseNet

def send (N : LeaseNet) (c : LeaseCommand) : LeaseNet :=
  { N with sent := update N.sent N.serial (some c), serial := N.serial + 1 }

/-- `n` 番の command が実行され、返事が用意される -/
def execute (N : LeaseNet) (n : Nat) : LeaseNet :=
  match N.sent n with
  | none => N
  | some c =>
    let result := c.exec N.now (N.expiry c.generation)
    { N with
      expiry := update N.expiry c.generation result.2
      sent := update N.sent n none
      replies := update N.replies n (some result.1) }

end LeaseNet

/-! ## lease の状態 -/

/-- `RedisOwnerLease::State` -/
inductive LeaseState where
  | unregistered
  | active
  | terminal
deriving DecidableEq, Repr

/-- `CanGrant` の呼び出しの現在地。次に何を読むかを表す -/
inductive Probe where
  | idle
  | generation (g : Nat)
  | state (g : Nat)
  | clock (g : Nat)
  | cutoff (g : Nat) (t : Int)
  | final (g : Nat) (t : Int)
  | returned (granted : Bool)
deriving DecidableEq, Repr

/-- `mutex_` を持つ呼び出しの現在地 -/
inductive Phase where
  | free
  -- `Register`
  | allocate
  | registerClock (g : Nat)
  | registerSend (g : Nat) (send : Int)
  | registerWait (g : Nat) (send : Int) (serial : Nat)
  | registerConfirm (g : Nat) (send : Int)
  | storeGeneration (g : Nat) (cutoff : Int)
  | storeCutoff (g : Nat) (cutoff : Int)
  | storeActive (g : Nat)
  | startHeartbeat (g : Nat)
  | abandon (g : Nat)
  -- `Renew`
  | renewCheck (g : Nat)
  | renewClock (g : Nat)
  | renewSend (g : Nat) (send : Int)
  | renewWait (g : Nat) (send : Int) (serial : Nat)
  | renewUnknown (g : Nat)
  | renewConfirm (g : Nat) (send : Int)
  | renewFinal (g : Nat) (send : Int)
  | renewStore (g : Nat) (cutoff : Int)

/--
`RedisOwnerLease`。`κ` は `CanGrant` を呼ぶ thread で、`none` は `Renew` 自身の呼び出しである。
-/
structure OwnerLease (κ : Type) where
  timing : LeaseTiming
  /-- local の時計の、Redis の時計からのずれ -/
  offset : Int
  state : LeaseState := .unregistered
  generation : Nat := 0
  cutoff : Int := 0
  phase : Phase := .free
  probes : Option κ → Probe := fun _ => .idle
  /-- `heartbeat_.joinable()` -/
  heartbeat : Bool := false
  /-- `Revoke` が terminal を書き、まだ `DEL` を送っていない -/
  revoking : Bool := false
  revokeAttempted : Bool := false

/-- 待っている返事がどうなるか。`lost` の `applied` は transaction が実行されたかどうか -/
inductive LeaseReply where
  | arrives
  | refused
  | lost (applied : Bool)

/-- `clock_()`。時計が読めないときは `INT64_MAX` を返す -/
def OwnerLease.read {κ : Type} (L : OwnerLease κ) (now : Int) (readable : Bool) : Int :=
  if readable then now + L.offset else int64Max

/-- `Register` と `Renew` が送信前の時刻に課す条件 -/
def LeaseTiming.validSend (t : LeaseTiming) (send : Int) : Prop :=
  0 ≤ send ∧ send ≤ int64Max - t.lifetimeNs

instance (t : LeaseTiming) (send : Int) : Decidable (t.validSend send) :=
  inferInstanceAs (Decidable (_ ∧ _))

namespace OwnerLease

variable {κ : Type} [DecidableEq κ]

/-! ## `CanGrant` -/

def setProbe (L : OwnerLease κ) (k : Option κ) (p : Probe) : OwnerLease κ :=
  { L with probes := update L.probes k p }

def probe (L : OwnerLease κ) (now : Int) (k : Option κ) (readable : Bool) : OwnerLease κ :=
  match L.probes k with
  | .idle | .returned _ => L
  | .generation g =>
    L.setProbe k (if g = 0 ∨ g ≠ L.generation then .returned false else .state g)
  | .state g => L.setProbe k (if L.state ≠ .active then .returned false else .clock g)
  | .clock g => L.setProbe k (.cutoff g (L.read now readable))
  | .cutoff g t =>
    if t < 0 ∨ L.cutoff ≤ t then
      { L.setProbe k (.returned false) with state := .terminal }
    else L.setProbe k (.final g t)
  | .final _ _ => L.setProbe k (.returned (L.state = .active))

def call (L : OwnerLease κ) (k : κ) (g : Nat) : OwnerLease κ :=
  match L.probes (some k) with
  | .idle | .returned _ => L.setProbe (some k) (.generation g)
  | _ => L

/-! ## `Register`、`Renew`、`Revoke` -/

def enter (L : OwnerLease κ) (p : Phase) : OwnerLease κ := { L with phase := p }

/-- `Renew` の中から `CanGrant(g)` を呼び、返るのを `p` で待つ -/
def enterProbing (L : OwnerLease κ) (p : Phase) (g : Nat) : OwnerLease κ :=
  (L.enter p).setProbe none (.generation g)

def fail (L : OwnerLease κ) : OwnerLease κ := { L with state := .terminal, phase := .free }

/-- `Register` の呼び出しから、generation を取りに行くまで -/
def register (L : OwnerLease κ) : OwnerLease κ :=
  match L.phase with
  | .free =>
    if L.state ≠ .unregistered then L
    else match L.timing.validate with
      | .error _ => L.fail
      | .ok _ => L.enter .allocate
  | _ => L

def renew (L : OwnerLease κ) : OwnerLease κ :=
  match L.phase with
  | .free => L.enterProbing (.renewCheck L.generation) L.generation
  | _ => L

/-- `Revoke` が `mutex_` を取って terminal を書く -/
def revoke (L : OwnerLease κ) : OwnerLease κ :=
  match L.phase with
  | .free => { L with state := .terminal, revoking := true }
  | _ => L

def heartbeatExit (L : OwnerLease κ) : OwnerLease κ :=
  match L.phase with
  | .free => { L with heartbeat := false }
  | _ => L

/-- `Revoke` の後半。heartbeat の終わりを待ってから `DEL` を送る -/
def revokeDelete (L : OwnerLease κ) (N : LeaseNet) : OwnerLease κ × LeaseNet :=
  match L.phase with
  | .free =>
    if L.revoking = false ∨ L.heartbeat = true then (L, N)
    else if L.revokeAttempted = true ∨ L.generation = 0 then ({ L with revoking := false }, N)
    else ({ L with revoking := false, revokeAttempted := true }, N.send (.revoke L.generation))
  | _ => (L, N)

def allocate (L : OwnerLease κ) (N : LeaseNet) : LeaseReply → OwnerLease κ × LeaseNet
  | .refused | .lost false => (L.fail, N)
  | .lost true => (L.fail, { N with store := (allocateGeneration.commit N.store).2 })
  | .arrives =>
    match allocateGeneration.commit N.store with
    | (.error _, _) => (L.fail, N)
    | (.ok g, store) => (L.enter (.registerClock g), { N with store })

def sampleSend (L : OwnerLease κ) (now : Int) (readable : Bool) (next : Int → Phase) :
    OwnerLease κ :=
  if L.timing.validSend (L.read now readable) then L.enter (next (L.read now readable))
  else L.fail

/-- 返事の届いた時刻がもう cutoff を過ぎていれば使わない -/
def confirm (L : OwnerLease κ) (now : Int) (readable : Bool) (send : Int) (next : Int → Phase) :
    OwnerLease κ :=
  if send + L.timing.lifetimeNs ≤ L.read now readable then L.fail
  else L.enter (next (send + L.timing.lifetimeNs))

def awaitCreate (L : OwnerLease κ) (N : LeaseNet) (g : Nat) (send : Int) (n : Nat) :
    LeaseReply → OwnerLease κ
  | .refused | .lost _ => L.fail
  | .arrives =>
    match N.replies n with
    | none => L
    | some true => L.enter (.registerConfirm g send)
    | some false => L.fail

def awaitRenew (L : OwnerLease κ) (N : LeaseNet) (g : Nat) (send : Int) (n : Nat) :
    LeaseReply → OwnerLease κ
  | .refused => L.fail
  | .lost _ => L.enterProbing (.renewUnknown g) g
  | .arrives =>
    match N.replies n with
    | none => L
    | some true => L.enterProbing (.renewConfirm g send) g
    | some false => L.fail

/-- `Renew` の呼んだ `CanGrant` が返っていれば、結果に応じて先へ進む -/
def onProbed (L : OwnerLease κ) (granted denied : OwnerLease κ) : OwnerLease κ :=
  match L.probes none with
  | .returned true => granted
  | .returned false => denied
  | _ => L

def advance (L : OwnerLease κ) (N : LeaseNet) (readable : Bool) (reply : LeaseReply) :
    OwnerLease κ × LeaseNet :=
  match L.phase with
  | .free => (L, N)
  | .allocate => L.allocate N reply
  | .registerClock g => (L.sampleSend N.now readable (.registerSend g), N)
  | .registerSend g send =>
    (L.enter (.registerWait g send N.serial), N.send (.create g L.timing.ttlNs))
  | .registerWait g send n => (L.awaitCreate N g send n reply, N)
  | .registerConfirm g send => (L.confirm N.now readable send (.storeGeneration g), N)
  | .storeGeneration g cutoff => ({ L with generation := g, phase := .storeCutoff g cutoff }, N)
  | .storeCutoff g cutoff => ({ L with cutoff, phase := .storeActive g }, N)
  | .storeActive g => ({ L with state := .active, phase := .startHeartbeat g }, N)
  | .startHeartbeat g =>
    match reply with
    | .arrives => ({ L with heartbeat := true, phase := .free }, N)
    | _ => ({ L with state := .terminal, phase := .abandon g }, N)
  | .abandon g => ({ L with revokeAttempted := true, phase := .free }, N.send (.revoke g))
  | .renewCheck g => (L.onProbed (L.enter (.renewClock g)) (L.enter .free), N)
  | .renewClock g => (L.sampleSend N.now readable (.renewSend g), N)
  | .renewSend g send =>
    (L.enter (.renewWait g send N.serial), N.send (.renew g L.timing.ttlNs))
  | .renewWait g send n => (L.awaitRenew N g send n reply, N)
  | .renewUnknown _ => (L.onProbed (L.enter .free) (L.enter .free), N)
  | .renewConfirm g send => (L.onProbed (L.enter (.renewFinal g send)) L.fail, N)
  | .renewFinal g send => (L.confirm N.now readable send (.renewStore g), N)
  | .renewStore _ cutoff => ({ L with cutoff, phase := .free }, N)

end OwnerLease

/-! ## 全体の実行 -/

/-- volume の全ての lease と Redis -/
structure LeaseSystem (ι κ : Type) where
  net : LeaseNet
  leases : ι → OwnerLease κ

inductive LeaseEvent (ι κ : Type) where
  | tick (d : Nat)
  | execute (n : Nat)
  /-- 返事の失われた `AllocateGeneration` が遅れて実行される -/
  | lateAllocate
  | register (i : ι)
  | renew (i : ι)
  | revoke (i : ι)
  | heartbeatExit (i : ι)
  | revokeDelete (i : ι)
  | advance (i : ι) (readable : Bool) (reply : LeaseReply)
  | call (i : ι) (k : κ) (g : Nat)
  | probe (i : ι) (k : Option κ) (readable : Bool)

namespace LeaseSystem

variable {ι κ : Type} [DecidableEq ι] [DecidableEq κ]

def put (S : LeaseSystem ι κ) (i : ι) (r : OwnerLease κ × LeaseNet) : LeaseSystem ι κ :=
  ⟨r.2, update S.leases i r.1⟩

def step (S : LeaseSystem ι κ) : LeaseEvent ι κ → LeaseSystem ι κ
  | .tick d => { S with net := { S.net with now := S.net.now + d } }
  | .execute n => { S with net := S.net.execute n }
  | .lateAllocate =>
    { S with net := { S.net with store := (allocateGeneration.commit S.net.store).2 } }
  | .register i => S.put i ((S.leases i).register, S.net)
  | .renew i => S.put i ((S.leases i).renew, S.net)
  | .revoke i => S.put i ((S.leases i).revoke, S.net)
  | .heartbeatExit i => S.put i ((S.leases i).heartbeatExit, S.net)
  | .revokeDelete i => S.put i ((S.leases i).revokeDelete S.net)
  | .advance i readable reply => S.put i ((S.leases i).advance S.net readable reply)
  | .call i k g => S.put i ((S.leases i).call k g, S.net)
  | .probe i k readable => S.put i ((S.leases i).probe S.net.now k readable, S.net)

def run (S : LeaseSystem ι κ) (events : List (LeaseEvent ι κ)) : LeaseSystem ι κ :=
  events.foldl step S

/-- 誰も登録していない volume。counter と古い key は任意 -/
def initial (now : Int) (store : LockStore) (expiry : Nat → Option Int)
    (timing : ι → LeaseTiming) (offset : ι → Int) : LeaseSystem ι κ where
  net := ⟨now, store, expiry, fun _ => none, fun _ => none, 0⟩
  leases i := { timing := timing i, offset := offset i }

/-- `CanGrant(g)` の呼び出し `k` が、時刻 `t` の標本に基づいて今 true を返す -/
def Grants (S : LeaseSystem ι κ) (i : ι) (k : Option κ) (g : Nat) (t : Int) : Prop :=
  (S.leases i).probes k = .final g t ∧ (S.leases i).state = .active

end LeaseSystem

end SwordFS.Metadata.Lock
