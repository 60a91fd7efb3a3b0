import SwordFS.Utils.Status

/-!
# fiber runtime の受け付けと drain

`task_state_` の最上位 bit は受け付け中を、残りは済んでいない admission の数を表す。`Post`、`Submit`、
`BeginShutdown` の呼び出しと、通知と fiber を thread の列とし、atomic の一操作を一手とする。
thread はどの順にも進む。`CHECK` に落ちた thread は `aborted` で止まる。
-/

namespace SwordFS.Utils

/-- `kAcceptingBit`。`kPendingMask` はこれより一つ小さい -/
def kAcceptingBit : Nat := 2 ^ 63

/-- thread の現在位置。`submit` が偽なら `Post` の呼び出しである -/
inductive Pc where
  | start (submit : Bool)
  /-- `TryAdmit` が `state` を読み、`compare_exchange_weak` の前にいる -/
  | cas (submit : Bool) (state : Nat)
  /-- 受け付けられ、通知を用意する -/
  | prepare (submit : Bool)
  | queued (submit : Bool)
  /-- 通知が fiber のための admission を `fetch_add` で取った -/
  | transferred (previous : Nat)
  | fiber
  /-- 拒否の callback の前。`Post` では、偽か例外を返す前 -/
  | rejecting (next : Pc)
  /-- `CompleteTask` の前 -/
  | completing (next : Pc)
  /-- `drained_.post()` の前 -/
  | posting (next : Pc)
  | beginShutdown
  | done
  | aborted

/-- 一手の結果 -/
structure Effect where
  state : Nat
  pc : Pc
  spawned : List Pc := []
  drained : Nat := 0
  admitted : Nat := 0
  /-- 渡された関数か拒否の callback が走った -/
  outcome : Nat := 0

/-- `TryAdmit` の loop の先頭 -/
def tryAdmit (submit : Bool) (state : Nat) : Pc :=
  if state < kAcceptingBit then .rejecting .done
  else if state % kAcceptingBit < kAcceptingBit - 1 then .cas submit state
  else .aborted

/-- thread の一手。`ok` が偽なら、この手の CAS が外れるか、用意や設置が投げる -/
def Pc.step (state : Nat) (ok : Bool) : Pc → Effect
  | .start submit => { state, pc := if ok then tryAdmit submit state else .rejecting .done }
  | .cas submit expected =>
    if ok ∧ state = expected then
      { state := (state + 1) % 2 ^ 64, pc := .prepare submit, admitted := 1 }
    else { state, pc := tryAdmit submit state }
  | .prepare submit =>
    { state, pc := if ok then .queued submit else .completing (.rejecting .done) }
  | .queued true => { state := (state + 1) % 2 ^ 64, pc := .transferred state }
  | .queued false => { state, pc := .completing .done, outcome := 1 }
  | .transferred previous =>
    if previous % kAcceptingBit < kAcceptingBit - 1 then
      if ok then { state, pc := .completing .done, spawned := [.fiber] }
      else { state, pc := .completing (.rejecting (.completing .done)) }
    else { state, pc := .aborted }
  | .fiber => { state, pc := .completing .done, outcome := 1 }
  | .rejecting next => { state, pc := next, outcome := 1 }
  | .completing next =>
    { state := (state + (2 ^ 64 - 1)) % 2 ^ 64
      pc := if state % kAcceptingBit = 0 then .aborted
        else if state < kAcceptingBit ∧ state % kAcceptingBit = 1 then .posting next
        else next }
  | .posting next => { state, pc := next, drained := 1 }
  | .beginShutdown =>
    { state := state % kAcceptingBit
      pc := if kAcceptingBit ≤ state ∧ state % kAcceptingBit = 0 then .posting .done else .done }
  | pc => { state, pc }

structure FiberRuntime where
  taskState : Nat := kAcceptingBit
  threads : List Pc := []
  /-- `drained_.post()` の回数 -/
  drained : Nat := 0
  /-- 受け付けた数 -/
  admitted : Nat := 0
  /-- `Post` と `Submit` の呼び出しの数 -/
  calls : Nat := 0
  outcomes : Nat := 0

inductive Event where
  | call (submit : Bool)
  | beginShutdown
  | step (i : Nat) (ok : Bool)

def FiberRuntime.next (S : FiberRuntime) : Event → FiberRuntime
  | .call submit => { S with threads := S.threads ++ [.start submit], calls := S.calls + 1 }
  | .beginShutdown => { S with threads := S.threads ++ [.beginShutdown] }
  | .step i ok =>
    match S.threads[i]? with
    | none => S
    | some pc =>
      let e := pc.step S.taskState ok
      { S with
        taskState := e.state
        threads := S.threads.set i e.pc ++ e.spawned
        drained := S.drained + e.drained
        admitted := S.admitted + e.admitted
        outcomes := S.outcomes + e.outcome }

def FiberRuntime.run (S : FiberRuntime) (evs : List Event) : FiberRuntime :=
  evs.foldl FiberRuntime.next S

end SwordFS.Utils
