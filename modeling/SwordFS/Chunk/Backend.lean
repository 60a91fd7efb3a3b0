import SwordFS.Infra.Prog
import SwordFS.Infra.Bytes
import SwordFS.Chunk.Slice.Record
import SwordFS.Metadata.Redis.FileTxn

/-!
# 外部の状態と呼び出し

一つの volume の Redis と object store を `Backend` にまとめ、
metadata engine と data engine の呼び出しを、その上の一動作の program として与える。

呼び出しには外界の答え `Answer` が届く。`Fault` は、確定した失敗（効果なし）、
返事の失われた失敗（効果は有るか無いかのどちらか）と、
EXEC の command の一部だけが効いた失敗を表す。
-/

namespace SwordFS.Chunk

open Infra Metadata Slice Function

/-! ## 状態 -/

/-- object store の key -/
inductive ObjectKey where
  | slice (id : SliceID)
  | cow (id : ChunkID) (revision : Nat)
deriving DecidableEq, Repr

structure COWChunkHead where
  revision : Nat
  size : Nat
deriving DecidableEq, Repr

/--
volume の外部状態。

`chunkOwner` と `sliceOwner` は、割り当てた番号をどの位置の chunk のために割り当てたかの記録で、
code には無く、どの呼び出しの結果にも影響しない。
-/
structure Backend where
  redis : Redis
  objects : ObjectKey → Option Bytes
  sliceIndex : ChunkID → List SliceRecord
  cowHead : ChunkID → Option COWChunkHead
  cowRevision : ChunkID → Nat
  nextChunkID : Nat
  nextSliceID : Nat
  chunkOwner : ChunkID → Option Nat
  sliceOwner : SliceID → Option Nat

/-! ## 答え -/

inductive Fault where
  | none
  | fail (st : Status)
  | lost (applied : Bool)
  /-- EXEC の command のうち、`took` の立つ番号のものだけが効いた -/
  | torn (took : List Bool) (lost : Bool)
deriving Repr

/-- 一回の呼び出しに外界が返すもの。`now` は transaction の時刻 -/
structure Answer where
  fault : Fault
  now : Int

namespace Answer

def NoFault (a : Answer) : Prop := a.fault = .none

def lostReply : Status := .outcomeUnknown "Redis transaction commit is ambiguous after EXEC"

def partialExec : Status :=
  .ioError "Redis EXEC command failed; possible partial metadata commit"

/-- 効果 `f` を持つ呼び出しの結果。`torn` は、一部の command だけが効いたときに残る状態 -/
def call {α : Type} (a : Answer) (f : Int → Backend → Result α × Backend)
    (torn : Int → List Bool → Backend → Backend) (b : Backend) : Result α × Backend :=
  match a.fault with
  | .none => f a.now b
  | .fail st => (.error st, b)
  | .lost true => (.error lostReply, (f a.now b).2)
  | .lost false => (.error lostReply, b)
  | .torn took true => (.error lostReply, torn a.now took b)
  | .torn took false => (.error partialExec, torn a.now took b)

/-- 読むだけの呼び出しの結果。返事が失われれば、何も分からずに失敗する -/
def query {α : Type} (a : Answer) (f : Backend → Result α) (b : Backend) : Result α :=
  match a.fault with
  | .none => f b
  | .fail st => .error st
  | .lost _ | .torn .. => .error (.unavailable "Redis read-only transaction EXEC unavailable")

theorem query_ok {a : Answer} (h : a.query f b = .ok x) : f b = .ok x := by
  unfold query at h
  split at h
  · exact h
  all_goals cases h

end Answer

abbrev Io (σ : Type) := ExceptT Status (Prog Answer σ)

/-- 効果を持つ呼び出し。単独の command は、効くか効かないかのどちらか -/
def call {α : Type} (f : Int → Backend → Result α × Backend)
    (torn : Int → List Bool → Backend → Backend := fun _ _ b => b) : Io Backend α :=
  Prog.step fun c b => (c.ans 0).call f torn b

def query {α : Type} (f : Backend → Result α) : Io Backend α :=
  Prog.step fun c b => ((c.ans 0).query f b, b)

/-! ## data engine -/

def put (key : ObjectKey) (bytes : Bytes) : Io Backend Unit :=
  call fun _ b => (.ok (), { b with objects := update b.objects key (some bytes) })

def get (key : ObjectKey) (off len : Nat) : Io Backend Bytes :=
  query fun b =>
    match b.objects key with
    | none => .error (.notFound "object not found")
    | some bytes => .ok (slice bytes off len)

/-! ## metadata engine -/

section

variable (cx : MetaContext) (ino : InodeID)

def tookEffect (took : List Bool) (ws : List KvCmd) : List KvCmd :=
  ((ws.zip took).filter (·.2)).map (·.1)

/-- transaction の command の一部だけが効いた store -/
def tornCommit {α : Type} (t : KvTxn α) (took : List Bool) (s : Redis) : Redis :=
  match t.eval s [] with
  | .error _ => s
  | .ok (_, ws) => Cmd.applyAll (tookEffect took ws) s

def transact {α : Type} (t : MetaContext → KvTxn α) : Io Backend α :=
  call
    (fun now b =>
      let r := (t { cx with now := now }).commit b.redis
      (r.1, { b with redis := r.2 }))
    fun now took b => { b with redis := tornCommit (t { cx with now := now }) took b.redis }

def observe {α : Type} (t : KvTxn α) : Io Backend α := query fun b => (t.commit b.redis).1

def readSnapshot (index : Nat) : Io Backend FileChunkSnapshot :=
  query fun b => readFileChunkSnapshot cx.chunkSize b.redis ino index

/-- `IncrExistingNonNegative`、`IncrNonNegative` の結果 -/
def increment (counter : Nat) : Result Nat :=
  if kMaxChunkIDValue ≤ counter then .error (.malformed "SliceID counter is invalid or exhausted")
  else .ok (counter + 1)

/-- `AllocateChunkID`。`index` は記録のためだけにある -/
def allocateChunkID (index : Nat) : Io Backend ChunkID :=
  call fun _ b =>
    match increment b.nextChunkID with
    | .error e => (.error e, b)
    | .ok id => (.ok id, { b with
        nextChunkID := id, chunkOwner := update b.chunkOwner id (some index) })

/-! ## Slice の私有 metadata -/

/-- `AllocateSliceID`。`index` は記録のためだけにある -/
def allocateSliceID (index : Nat) : Io Backend SliceID :=
  call fun _ b =>
    match increment b.nextSliceID with
    | .error e => (.error e, b)
    | .ok id => (.ok id, { b with
        nextSliceID := id, sliceOwner := update b.sliceOwner id (some index) })

def checkPendingRecord (id : ChunkID) (r : SliceRecord) : Result Unit := do
  Result.failIf (!isValidChunkID id) (.invalidArgument "invalid Slice ChunkID")
  match validateRecord r cx.chunkSize with
  | .error e => .error (.invalidArgument e.msg)
  | .ok () => .ok ()

/-- `CreateIndex`：最初の record を持つ index を作る -/
def createIndex (id : ChunkID) (r : SliceRecord) : Io Backend Unit :=
  call fun _ b =>
    match checkPendingRecord cx id r with
    | .error e => (.error e, b)
    | .ok () =>
      if b.sliceIndex id = [] then
        (.ok (), { b with sliceIndex := update b.sliceIndex id [r] })
      else (.error (.alreadyExists "Redis Slice index already exists"), b)

/-- `AppendRecord`：既にある index の末尾に record を足す -/
def appendRecord (id : ChunkID) (r : SliceRecord) : Io Backend Unit :=
  call fun _ b =>
    match checkPendingRecord cx id r with
    | .error e => (.error e, b)
    | .ok () =>
      if b.sliceIndex id = [] then (.error (.notFound "Redis Slice index is missing"), b)
      else (.ok (), { b with
        sliceIndex := update b.sliceIndex id (b.sliceIndex id ++ [r]) })

def readRecords (id : ChunkID) : Io Backend (List SliceRecord) :=
  query fun b => do
    Result.failIf (!isValidChunkID id) (.invalidArgument "invalid Slice index read request")
    Result.failIf (b.sliceIndex id = []) (.notFound "Slice private index is missing")
    validateRecords cx.chunkSize (b.sliceIndex id)
    return b.sliceIndex id

/-! ## COW の私有 metadata -/

def allocateRevision (id : ChunkID) : Io Backend Nat :=
  call fun _ b =>
    if !isValidChunkID id then
      (.error (.invalidArgument "invalid COW revision allocation request"), b)
    else match increment (b.cowRevision id) with
      | .error e => (.error e, b)
      | .ok rev => (.ok rev, { b with cowRevision := update b.cowRevision id rev })

def isValidHead (h : COWChunkHead) : Bool := h.revision ≠ 0 ∧ h.revision ≤ kMaxChunkIDValue

def getHead (id : ChunkID) : Io Backend COWChunkHead :=
  query fun b => do
    Result.failIf (!isValidChunkID id) (.invalidArgument "invalid COW head read request")
    match b.cowHead id with
    | none => .error (.notFound "Redis key not found")
    | some h =>
      if !isValidHead h then .error (.malformed "invalid Redis COW chunk head") else .ok h

def validateHeadTransition (expected : Option COWChunkHead) (replacement : COWChunkHead) :
    Result Unit :=
  if !isValidHead replacement ∨ expected.any fun h => !isValidHead h then
    .error (.invalidArgument "invalid COW chunk head")
  else match expected with
    | none => .ok ()
    | some e =>
      if replacement.revision < e.revision then
        .error (.invalidArgument "COW revision must not move backward")
      else if replacement.revision = e.revision ∧ e.size < replacement.size then
        .error (.invalidArgument "same COW revision may only shrink its visible prefix")
      else .ok ()

def exchangeHead (current expected : Option COWChunkHead) (replacement : COWChunkHead) :
    Result COWChunkHead := do
  validateHeadTransition expected replacement
  match current with
  | none =>
    Result.failIf expected.isSome (.notFound "COW chunk head not found")
    return replacement
  | some c =>
    Result.failIf (!isValidHead c) (.malformed "invalid Redis COW chunk head")
    Result.failIf (some c ≠ expected) (.alreadyExists "COW chunk head changed before publication")
    return replacement

def compareExchangeHead (id : ChunkID) (expected : Option COWChunkHead)
    (replacement : COWChunkHead) : Io Backend Unit :=
  call fun _ b =>
    if !isValidChunkID id then (.error (.invalidArgument "invalid COW ChunkID"), b)
    else match exchangeHead (b.cowHead id) expected replacement with
      | .error e => (.error e, b)
      | .ok h => (.ok (), { b with cowHead := update b.cowHead id (some h) })

end

end SwordFS.Chunk
