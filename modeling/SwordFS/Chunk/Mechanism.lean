import SwordFS.Chunk.Backend

/-!
# chunk の方式

`Chunk.hpp` の interface と `ChunkFactory` の入口を、方式 `χ`（session の型）についての
record として表す。session の操作は session と外部状態の組の上で動く。
-/

namespace SwordFS.Chunk

open Infra Metadata

abbrev SessionIo (χ : Type) := Io (χ × Backend)

section

variable {χ α : Type}

def onBackend (p : Io Backend α) : SessionIo χ α :=
  Prog.zoom Prod.snd (fun b s => (s.1, b)) p

def getSession : SessionIo χ χ := Prog.gets fun s => .ok s.1

def modifySession (f : χ → α × χ) : SessionIo χ α :=
  Prog.step fun _ s => (.ok (f s.1).1, ((f s.1).2, s.2))

def attempt {σ : Type} (p : Io σ α) : Io σ (Result α) := Prog.bind p fun r => .ret (.ok r)

def failIf {σ : Type} (c : Prop) [Decidable c] (e : Status) : Io σ Unit :=
  if c then throw e else pure ()

def ofResult {σ : Type} (r : Result α) : Io σ α := Prog.ret r

/-- 列の要素ごとに順に行い、最初の失敗で止まる -/
def forEach {σ β : Type} (f : β → Io σ Unit) : List β → Io σ Unit
  | [] => pure ()
  | x :: xs => do
    f x
    forEach f xs

end

/-- 一つの chunk 方式 -/
structure Mechanism (χ : Type) where
  /-- `ChunkFactory::Open` -/
  openSession : (index : Nat) → (createIfMissing : Bool) → Io Backend (Option χ)
  read : χ → (offset len : Nat) → Io Backend Bytes
  write : (offset : Nat) → Bytes → SessionIo χ Unit
  flush : SessionIo χ Unit
  truncateLocal : (size : Nat) → SessionIo χ Unit
  clampPublishedPrefix : (visiblePrefix : Nat) → SessionIo χ Unit
  hasPendingWrites : χ → Bool
  sanitizeBoundary : RetainedChunkBoundary → Io Backend Unit

/-- EOF `size` の file のうち、位置 `index` の chunk に入る長さ -/
def sizeAtEof (index chunkSize size : Nat) : Nat :=
  if index * chunkSize < size then min chunkSize (size - index * chunkSize) else 0

end SwordFS.Chunk
