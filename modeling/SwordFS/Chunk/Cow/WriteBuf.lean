import SwordFS.Chunk.Cow.COWChunk

/-!
# COW の buffer と共有する領域

`COWChunk.lean` では buffer を byte 列とした。ここでは確保した領域まで写す。
`WriteBuf` は領域と見える長さを持ち、`CloneBuf` の写しは同じ領域を指す。
-/

namespace SwordFS.Chunk.Cow

open Infra Metadata

/-! ## `WriteBuf` -/

/-- 確保した領域と見える長さ。長さより後には古い内容が残る -/
structure WriteBuf where
  memory : Bytes
  size : Nat
  bounded : size ≤ memory.length

namespace WriteBuf

variable {b : WriteBuf} {offset : Nat} {data : Bytes}

/-- `WriteBuf::WriteBuf`。確保した領域の内容 `memory` は不定 -/
def create (memory : Bytes) : WriteBuf := ⟨memory, 0, Nat.zero_le _⟩

def truncate (b : WriteBuf) (size : Nat) : WriteBuf :=
  if h : size < b.size then ⟨b.memory, size, Nat.le_trans (Nat.le_of_lt h) b.bounded⟩ else b

/-- `Write` の `memset`。終端より後への書き込みの前に、間を零で埋める -/
def zeroHole (b : WriteBuf) (offset : Nat) : Bytes :=
  if b.size < offset then overwrite b.memory b.size (List.replicate (offset - b.size) 0)
  else b.memory

theorem zeroHole_length (h : offset ≤ b.memory.length) :
    (b.zeroHole offset).length = b.memory.length := by
  have hb := b.bounded
  unfold zeroHole
  split
  · rw [overwrite_length_of_le]
    rw [List.length_replicate]
    omega
  · rfl

theorem copy_length (h : offset + data.length ≤ b.memory.length) :
    (overwrite (b.zeroHole offset) offset data).length = b.memory.length := by
  have hz := zeroHole_length (b := b) (Nat.le_trans (Nat.le_add_right offset data.length) h)
  rw [overwrite_length_of_le (by omega), hz]

def write (b : WriteBuf) (writeOffset : Int) (data : Bytes) : Result WriteBuf :=
  if writeOffset < 0 then .error (.invalidArgument "WriteBuf: negative write offset")
  else if h : b.memory.length < writeOffset.toNat + data.length then
    .error (.invalidArgument "WriteBuf: write exceeds capacity")
  else .ok {
    memory := overwrite (b.zeroHole writeOffset.toNat) writeOffset.toNat data
    size := max b.size (writeOffset.toNat + data.length)
    bounded := by
      rw [copy_length (by omega)]
      exact Nat.max_le.mpr ⟨b.bounded, by omega⟩ }

/-- `WriteBuf::CopyOut`。`tailroom` は出力先の空き -/
def copyOut (b : WriteBuf) (off : Int) (len tailroom : Nat) : Result Bytes :=
  if off < 0 then .error (.invalidArgument "CopyOut: negative offset")
  else if b.size ≤ off.toNat then .ok []
  else
    let n := min len (b.size - off.toNat)
    if tailroom < n then .error (.invalidArgument "CopyOut: output buffer too small")
    else .ok (slice b.memory off.toNat n)

def contents (b : WriteBuf) : Bytes := b.memory.take b.size

end WriteBuf

/-! ## `COWChunk` の buffer -/

/-- `COWChunk` の buffer。`shared_ptr` は番地で表し、`heap` の番地ごとに領域が一つある -/
structure Buffers where
  heap : Nat → WriteBuf
  fresh : Nat
  state : State
  wb : Option Nat
  flushingWb : Option Nat

namespace Buffers

/-- `CloneBuf` の写し。領域は共有し、長さは写したときのもの -/
structure Clone where
  addr : Nat
  size : Nat

def cloneBytes (s : Buffers) (c : Clone) : Bytes := (s.heap c.addr).memory.take c.size

/-- `IOBuf::create` の領域。内容は不定で、頼んだ長さより長いこともある -/
structure Fresh where
  extra : Nat
  byte : Nat → UInt8

def Fresh.memory (m : Fresh) (capacity : Nat) : Bytes :=
  (List.range (capacity + m.extra)).map m.byte

@[simp] theorem Fresh.memory_length (m : Fresh) (capacity : Nat) :
    (m.memory capacity).length = capacity + m.extra := by simp [Fresh.memory]

/-- buffer を一つ確保し、先頭に `data` を書いて `wb_` とする -/
def install (s : Buffers) (memory data : Bytes) : Result Buffers := do
  let b ← (WriteBuf.create memory).write 0 data
  return { s with
    heap := Function.update s.heap s.fresh b, fresh := s.fresh + 1, wb := some s.fresh }

/-- `COWChunk::Write` のうち、公開済みの内容を読み込む段と、公開中の buffer から離れる段 -/
def detach (chunkSize : Nat) (s : Buffers) (m : Fresh) (hydrated : Bytes) : Result Buffers :=
  match s.state with
  | .clean => do
    Result.failIf (chunkSize < hydrated.length)
      (.malformed "COWChunk::HydrateForWrite: published chunk exceeds configured chunk size")
    return { ← s.install (m.memory chunkSize) hydrated with state := .dirty }
  | .dirty => .ok s
  | .flushing =>
    if s.wb = s.flushingWb then
      s.install (m.memory chunkSize) (s.wb.elim [] fun i => (s.heap i).contents)
    else .ok s

def writeTo (s : Buffers) (offset : Nat) (data : Bytes) : Buffers :=
  match s.wb with
  | none => s
  | some i =>
    match (s.heap i).write offset data with
    | .error _ => s
    | .ok b => { s with heap := Function.update s.heap i b }

/-- buffer に触れる呼び出し。`hydrated` は公開済みの内容。`put` は Flush が写しを渡す所 -/
inductive Op where
  | write (offset : Nat) (data : Bytes) (m : Fresh) (hydrated : Bytes)
  | truncateLocal (size : Nat)
  | beginFlush
  | put
  | endFlush (published : Bool)

/-- 一つの呼び出し。失敗した `Write` は buffer を変えない -/
def step (chunkSize : Nat) (s : Buffers) : Op → Buffers
  | .write offset data m hydrated =>
    match validateRange offset data.length chunkSize "COWChunk::Write" with
    | .error _ => s
    | .ok () =>
      match s.detach chunkSize m hydrated with
      | .error _ => s
      | .ok s => s.writeTo offset data
  | .truncateLocal size =>
    if s.state = .clean then s
    else { s with heap := fun i =>
      if s.wb = some i then (s.heap i).truncate size else s.heap i }
  | .beginFlush =>
    if s.state = .dirty ∧ s.wb.any fun i => 0 < (s.heap i).size then
      { s with state := .flushing, flushingWb := s.wb }
    else s
  | .put => s
  | .endFlush published =>
    if s.state ≠ .flushing then s
    else if published ∧ s.wb = s.flushingWb then
      { s with flushingWb := none, wb := none, state := .clean }
    else { s with flushingWb := none, state := .dirty }

end Buffers

end SwordFS.Chunk.Cow
