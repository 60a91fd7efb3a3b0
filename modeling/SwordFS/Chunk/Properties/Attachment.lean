import SwordFS.Chunk.Always
import SwordFS.Metadata.Properties.AttachmentWrites

/-!
# attachment に対する呼び出し

ChunkID の割り当てと `AttachPrepared` の他の呼び出しは、attachment を増やさず、
ChunkID の割り当て方も変えない。
-/

namespace SwordFS.Chunk

open Infra Metadata Slice

/-- attachment は減ることはあっても増えず、ChunkID の割り当ては変わらない -/
structure Calm (b b' : Backend) : Prop where
  attached : OnlyDetached b.redis b'.redis
  nextChunkID : b'.nextChunkID = b.nextChunkID
  chunkOwner : b'.chunkOwner = b.chunkOwner

theorem Calm.refl (b : Backend) : Calm b b := ⟨.refl _, rfl, rfl⟩

theorem Calm.of_eq (h₁ : b'.redis = b.redis)
    (h₂ : b'.nextChunkID = b.nextChunkID) (h₃ : b'.chunkOwner = b.chunkOwner) : Calm b b' :=
  ⟨h₁ ▸ .refl _, h₂, h₃⟩

section

variable {cx : MetaContext} {ino : InodeID}

theorem calm_query {α : Type} (f : Backend → Result α) : Always Calm (query f) :=
  always_query Calm.refl f

theorem calm_put (key : ObjectKey) (bytes : Bytes) : Always Calm (put key bytes) :=
  always_call Calm.refl (fun _ _ => .of_eq rfl rfl rfl) fun _ _ b => .refl b

theorem calm_allocateSliceID (i : Nat) : Always Calm (allocateSliceID i) := by
  refine always_call Calm.refl (fun _ b => ?_) fun _ _ b => .refl b
  split
  · exact .refl b
  · exact .of_eq rfl rfl rfl

theorem calm_createIndex (id : ChunkID) (r : SliceRecord) : Always Calm (createIndex cx id r) := by
  refine always_call Calm.refl (fun _ b => ?_) fun _ _ b => .refl b
  split
  · exact .refl b
  · split
    · exact .of_eq rfl rfl rfl
    · exact .refl b

theorem calm_appendRecord (id : ChunkID) (r : SliceRecord) :
    Always Calm (appendRecord cx id r) := by
  refine always_call Calm.refl (fun _ b => ?_) fun _ _ b => .refl b
  split
  · exact .refl b
  · split
    · exact .refl b
    · exact .of_eq rfl rfl rfl

theorem calm_allocateRevision (id : ChunkID) : Always Calm (allocateRevision id) := by
  refine always_call Calm.refl (fun _ b => ?_) fun _ _ b => .refl b
  split
  · exact .refl b
  · split
    · exact .refl b
    · exact .of_eq rfl rfl rfl

theorem calm_compareExchangeHead (id : ChunkID) (expected : Option COWChunkHead)
    (replacement : COWChunkHead) : Always Calm (compareExchangeHead id expected replacement) := by
  refine always_call Calm.refl (fun _ b => ?_) fun _ _ b => .refl b
  split
  · exact .refl b
  · split
    · exact .refl b
    · exact .of_eq rfl rfl rfl

theorem calm_transact (h : ∀ cx, Txn.Writes Detaching (t cx)) : Always Calm (transact cx t) := by
  refine always_transact Calm.refl fun now b a ws ws' he hsub => ⟨?_, rfl, rfl⟩
  have hws := h _ b.redis [] a ws he fun _ hw => nomatch hw
  exact onlyDetached_applyAll (fun w hw => hws w (hsub hw)) _

end

/-! ## 取り付けと割り当て -/

/-- 位置 `i` の session が位置 `(ino, i)` に `id` だけを取り付けうる動作 -/
structure Attaches (ino : InodeID) (i : Nat) (id : ChunkID) (b b' : Backend) : Prop where
  attached : OnlyAttached ino i id b.redis b'.redis
  nextChunkID : b'.nextChunkID = b.nextChunkID
  chunkOwner : b'.chunkOwner = b.chunkOwner

theorem Attaches.of_calm {id : ChunkID} (h : Calm b b') : Attaches ino i id b b' :=
  ⟨fun j k x hx => .inl (h.attached j k x hx), h.nextChunkID, h.chunkOwner⟩

/-- 位置 `i` のための ChunkID を一つ割り当てた外部状態 -/
def Backend.allocated (b : Backend) (i : Nat) : Backend :=
  { b with
    nextChunkID := b.nextChunkID + 1
    chunkOwner := Function.update b.chunkOwner (b.nextChunkID + 1) (some i) }

/-- 割り当ての一動作。返るのは、このとき割り当てた番号 -/
def AllocateStep (i : Nat) (b : Backend) (r : Result ChunkID) (b' : Backend) : Prop :=
  (r = .ok (b.nextChunkID + 1) ∧ b' = b.allocated i) ∨
    ((∃ e, r = .error e) ∧ (b' = b ∨ b' = b.allocated i))

theorem oneStep_allocateChunkID (i : Nat) : OneStep (AllocateStep i) (allocateChunkID i) := by
  refine oneStep_call (fun _ b => ?_) (fun _ b e => .inr ⟨⟨e, rfl⟩, ?_⟩)
    (fun b e => .inr ⟨⟨e, rfl⟩, .inl rfl⟩) fun _ _ b e => .inr ⟨⟨e, rfl⟩, .inl rfl⟩
  all_goals
    unfold increment
    by_cases h : kMaxChunkIDValue ≤ b.nextChunkID
  · rw [if_pos h]
    exact .inr ⟨⟨_, rfl⟩, .inl rfl⟩
  · rw [if_neg h]
    exact .inl ⟨rfl, rfl⟩
  · rw [if_pos h]
    exact .inl rfl
  · rw [if_neg h]
    exact .inr rfl

theorem oneStep_attachPrepared {id : ChunkID} :
    OneStep (fun b _ b' => Attaches ino i id b b')
      (transact cx fun cx => attachPrepared cx ino i id endOff expected) :=
  oneStep_transact
    (fun _ _ _ _ he => ⟨onlyAttached_attachPrepared he (List.Subset.refl _), rfl, rfl⟩)
    (fun _ _ _ _ _ _ he hsub => ⟨onlyAttached_attachPrepared he hsub, rfl, rfl⟩)
    fun b _ => .of_calm (.refl b)

end SwordFS.Chunk
