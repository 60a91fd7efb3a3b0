import SwordFS.Chunk.Cow.COWChunk
import SwordFS.Infra.Threads

/-!
# 割り込まれる `SanitizeCOWBoundary`

`COWChunk` の `sanitizeLoop` は一つの program だが、ここではその loop を、Redis への呼び出し一つを
一手とする機械にする。手と手の間には、ほかの mount の head の CAS、detach、head の消去が入りうる。

EXEC の返事を失った CAS は、後から効くことがある。効くのは、WATCH した head にその後誰も書いて
いないときだけである。
-/

namespace SwordFS.Chunk.Cow

open Infra Metadata

/-- 次に送る呼び出し -/
inductive SanitizePc where
  | getHead
  | probe
  | exchange (current : COWChunkHead)
  | done (r : Result Unit)

/-- 呼び出しの返事。届かない返事のうち `lost` は、EXEC を送った後のもの -/
inductive Reply where
  | arrives
  | ioError (msg : String)
  | unavailable (msg : String)
  | lost

structure SanitizeSystem where
  backend : Backend
  /-- 返事を失い、まだ効いておらず、WATCH も破られていない CAS の `expected` -/
  pending : List COWChunkHead
  pc : SanitizePc

inductive SanitizeEvent where
  /-- ほかの client が head を書くか消す -/
  | head (h : Option COWChunkHead)
  /-- ほかの client が FileMetadata を変える -/
  | file (redis : Redis)
  /-- 返事を失った CAS が効く -/
  | late
  /-- この呼び出しの次の一手 -/
  | command (reply : Reply)

section

variable (ino : InodeID) (boundary : RetainedChunkBoundary)

def readHead (id : ChunkID) (b : Backend) : Result COWChunkHead := do
  Result.failIf (!isValidChunkID id) (.invalidArgument "invalid COW head read request")
  match b.cowHead id with
  | none => .error (.notFound "Redis key not found")
  | some h =>
    if !isValidHead h then .error (.malformed "invalid Redis COW chunk head") else .ok h

def shrunk (current : COWChunkHead) : COWChunkHead :=
  { current with size := boundary.visiblePrefix }

/-- head の key に書く。WATCH している transaction はすべて破れる -/
def SanitizeSystem.writeHead (S : SanitizeSystem) (h : Option COWChunkHead) : SanitizeSystem where
  backend := { S.backend with
    cowHead := Function.update S.backend.cowHead boundary.chunkId h }
  pending := []
  pc := S.pc

def afterGetHead : Result COWChunkHead → SanitizePc
  | .error e => if e.isNotFound then .probe else .done (.error e)
  | .ok current =>
    if current.size ≤ boundary.visiblePrefix then .done (.ok ()) else .exchange current

def afterProbe : Result (Option ChunkID) → SanitizePc
  | .error e => .done (.error e)
  | .ok attached =>
    .done (Result.failIf (attached = some boundary.chunkId)
      (.malformed "FileMetadata references a missing COW chunk head"))

def afterExchange (e : Status) : SanitizePc :=
  if e.isNotFound ∨ e.isEexist ∨ e.isOutcomeUnknown then .getHead else .done (.error e)

/-- 返事のうち、呼び出しの結果に依らないもの -/
def Reply.failure : Reply → Option Status
  | .arrives => none
  | .ioError msg => some (.ioError msg)
  | .unavailable msg => some (.unavailable msg)
  | .lost => none

/-- 読むだけの呼び出しは、返事を失えば失敗する -/
def Reply.queryFailure : Reply → Option Status
  | .lost => some (.unavailable "Redis GET unavailable")
  | reply => reply.failure

def SanitizeSystem.command (S : SanitizeSystem) (reply : Reply) : SanitizeSystem :=
  match S.pc with
  | .done _ => S
  | .getHead =>
    match reply.queryFailure with
    | some e => { S with pc := .done (.error e) }
    | none => { S with pc := afterGetHead boundary (readHead boundary.chunkId S.backend) }
  | .probe =>
    match reply.queryFailure with
    | some e => { S with pc := .done (.error e) }
    | none =>
      let attached := ((probeAttachment ino boundary.index).commit S.backend.redis).1
      { S with pc := afterProbe boundary attached }
  | .exchange current =>
    match reply.failure with
    | some e => { S with pc := .done (.error e) }
    | none =>
      match exchangeHead (S.backend.cowHead boundary.chunkId) (some current)
          (shrunk boundary current) with
      | .error e => { S with pc := afterExchange e }
      | .ok h =>
        match reply with
        | .lost => { S with
            pending := current :: S.pending, pc := afterExchange Answer.lostReply }
        | _ => { S.writeHead boundary (some h) with pc := .done (.ok ()) }

def sanitizeStep (S : SanitizeSystem) :
    SanitizeEvent → Option ((SanitizeEvent × SanitizeSystem) × SanitizeSystem)
  | .head h => some ((.head h, S.writeHead boundary h), S.writeHead boundary h)
  | .file redis =>
    let S' := { S with backend := { S.backend with redis := redis } }
    some ((.file redis, S'), S')
  | .late =>
    match S.pending with
    | [] => none
    | current :: _ =>
      let S' := S.writeHead boundary (some (shrunk boundary current))
      some ((.late, S'), S')
  | .command reply =>
    some ((.command reply, S.command ino boundary reply), S.command ino boundary reply)

def sanitizeStart (b : Backend) : SanitizeSystem where
  backend := b
  pending := []
  pc :=
    if !isValidChunkID boundary.chunkId ∨ boundary.visiblePrefix = 0 then
      .done (.error (.invalidArgument "invalid COW boundary sanitation request"))
    else .getHead

/-! ## 実行の記録 -/

structure SanitizeLog where
  /-- 呼び出しが終わるまでの各時点 -/
  instants : List Backend
  /-- この呼び出しの CAS の前後の head。後から効いたものを含む -/
  exchanges : List (Option COWChunkHead × Option COWChunkHead)
  /-- 呼び出しが終わるまでに進めた手の数 -/
  commands : Nat
  /-- ほかの client が head に書いた回数 -/
  changes : Nat
  /-- 返事を失った CAS の数 -/
  losts : Nat
  /-- 後から効いた CAS の数 -/
  lates : Nat

def SanitizePc.running : SanitizePc → Bool
  | .done _ => false
  | _ => true

/-- この呼び出しが動かした一手の前後の head -/
def SanitizeLog.own (g : SanitizeLog) (S S' : SanitizeSystem) :
    List (Option COWChunkHead × Option COWChunkHead) :=
  (S.backend.cowHead boundary.chunkId, S'.backend.cowHead boundary.chunkId) :: g.exchanges

def sanitizeWatch (g : SanitizeLog) (S : SanitizeSystem) (l : SanitizeEvent × SanitizeSystem) :
    SanitizeLog :=
  let instants :=
    if S.pc.running then l.2.backend :: S.backend :: g.instants else g.instants
  match l.1 with
  | .head _ => { g with instants := instants, changes := g.changes + 1 }
  | .file _ => { g with instants := instants }
  | .late => { g with
      instants := instants, exchanges := g.own boundary S l.2, lates := g.lates + 1 }
  | .command _ => { g with
      instants := instants
      exchanges := g.own boundary S l.2
      commands := if S.pc.running then g.commands + 1 else g.commands
      losts := if S.pending.length < l.2.pending.length then g.losts + 1 else g.losts }

def sanitizeRun (b : Backend) (evs : List SanitizeEvent) : SanitizeSystem × SanitizeLog :=
  runWith (sanitizeStep ino boundary) (sanitizeWatch boundary)
    (sanitizeStart boundary b, ⟨[], [], 0, 0, 0, 0⟩) evs

end

end SwordFS.Chunk.Cow
