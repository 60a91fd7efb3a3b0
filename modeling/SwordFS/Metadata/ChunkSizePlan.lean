import Mathlib.Data.List.Sort
import Mathlib.Tactic.NormNum
import SwordFS.Metadata.Types

/-!
# file の大きさの変更計画

`types/Chunk.cpp` の位置計算と `ChunkSizePlan.cpp` を写す。
EOF を chunk の並びに当てはめ、外れる mapping と内部に EOF を持つ chunk を求める。
計画は後で別の snapshot に対して検査し直される。
-/

namespace SwordFS.Metadata

/-! ## 位置の計算 -/

structure ChunkPosition where
  index : Nat
  startOffset : Nat
  offsetInChunk : Nat
deriving DecidableEq, Repr

def calculateChunkPosition (fileOffset chunkSize : Nat) : Result ChunkPosition :=
  if chunkSize = 0 then .error (.invalidArgument "invalid file offset to chunk mapping")
  else
    let index := fileOffset / chunkSize
    let start := index * chunkSize
    .ok ⟨index, start, fileOffset - start⟩

def calculateFileRangeEnd (fileOffset : Int) (length : Nat) : Result Nat :=
  if fileOffset < 0 then .error (.invalidArgument "invalid file range")
  else if kMaxSupportedFileSize - fileOffset.toNat < length then
    .error (.invalidArgument "file range exceeds supported size")
  else .ok (fileOffset.toNat + length)

/-- `CalculateChunkStartOffset`。積が `off_t` に収まらない index を拒む -/
def calculateChunkStartOffset (index : Nat) (chunkSize : Nat) : Result Nat :=
  if chunkSize = 0 then .error (.invalidArgument "invalid chunk layout")
  else if index ≠ 0 ∧ kMaxSupportedFileSize / index < chunkSize then
    .error (.invalidArgument "chunk start offset overflows")
  else .ok (index * chunkSize)

/-! ## EOF の配置 -/

structure ChunkSizeBoundary where
  index : Nat
  visiblePrefix : Nat
deriving DecidableEq, Repr

/-- EOF を chunk の並びに当てはめたもの -/
structure ChunkSizeLayout where
  firstDetachedIndex : Nat
  boundary : Option ChunkSizeBoundary
deriving DecidableEq, Repr

def ChunkSizeLayout.shouldDetach (l : ChunkSizeLayout) (index : Nat) : Bool :=
  l.firstDetachedIndex ≤ index

def chunkSizeLayout (eof chunkSize : Nat) : ChunkSizeLayout where
  firstDetachedIndex := eof / chunkSize + (if eof % chunkSize = 0 then 0 else 1)
  boundary := if eof % chunkSize = 0 then none else some ⟨eof / chunkSize, eof % chunkSize⟩

def planChunkSizeLayout (eof chunkSize : Nat) : Result ChunkSizeLayout := do
  Result.failIf (chunkSize = 0 ∨ kMaxSupportedFileSize < eof)
    (.invalidArgument "invalid chunk size layout request")
  return chunkSizeLayout eof chunkSize

/-! ## 書き込みと前提条件の検査 -/

def isValidChunkID (id : ChunkID) : Bool := id ≠ 0 ∧ id ≤ kMaxChunkIDValue

/-- `ValidateFileChunkWrite`：`end` は file 先頭からの終端 -/
def validateFileChunkWrite (index : Nat) (chunkId : ChunkID) (endOff chunkSize : Nat) :
    Result Unit :=
  if !isValidChunkID chunkId ∨ chunkSize = 0 ∨ kMaxSupportedFileSize < endOff then
    .error (.invalidArgument "invalid typed chunk write identity or size")
  else match calculateChunkStartOffset index chunkSize with
  | .error _ =>
    .error (.invalidArgument "typed chunk write extends outside its logical position")
  | .ok start =>
    if endOff ≤ start ∨ chunkSize < endOff - start then
      .error (.invalidArgument "typed chunk write extends outside its logical position")
    else .ok ()

/-- `ValidateFileSizePrecondition`：前提の境界が EOF の配置と合うことを確かめる -/
def validateFileSizePrecondition (expected : FileSizePrecondition) (chunkSize : Nat) :
    Result Unit := do
  let layout ← planChunkSizeLayout expected.eof chunkSize
  match layout.boundary, expected.boundary with
  | none, none => pure ()
  | some b, some e =>
    Result.failIf (e.index ≠ b.index ∨ e.visiblePrefix ≠ b.visiblePrefix ∨
        e.chunkId.any fun id => !isValidChunkID id)
      (.invalidArgument "invalid FileMetadata EOF boundary precondition")
  | _, _ =>
    throw (.invalidArgument "interior EOF requires an explicit FileMetadata boundary precondition")

/-! ## 計画 -/

structure ChunkSizePlan where
  targetEof : Nat
  expectedOldState : FileSizePrecondition
  boundary : Option RetainedChunkBoundary
  detachedChunkIds : List ChunkID
deriving DecidableEq, Repr

def sortMappings (ms : List ChunkMapping) : List ChunkMapping :=
  ms.insertionSort fun a b => a.index ≤ b.index

/-- `NormalizeMappings` の検査。`prev` は直前の index -/
def checkMappings (chunkSize : Nat) (prev : Option Nat) : List ChunkMapping → Result Unit
  | [] => .ok ()
  | m :: ms =>
    if !isValidChunkID m.chunkId then
      .error (.invalidArgument "invalid ChunkID in FileMetadata mapping")
    else match calculateChunkStartOffset m.index chunkSize with
    | .error e => .error e
    | .ok _ =>
      if prev = some m.index then .error (.malformed "duplicate FileMetadata chunk mapping")
      else checkMappings chunkSize (some m.index) ms

def normalizeMappings (chunkSize : Nat) (ms : List ChunkMapping) : Result (List ChunkMapping) :=
  (checkMappings chunkSize none (sortMappings ms)).map fun _ => sortMappings ms

/-- `FindChunkID`：整列した mapping の lower bound を見る -/
def findChunkID (ms : List ChunkMapping) (index : Nat) : Option ChunkID :=
  match ms.dropWhile (·.index < index) with
  | [] => none
  | m :: _ => if m.index = index then some m.chunkId else none

def makeBoundarySnapshot (b : Option ChunkSizeBoundary) (ms : List ChunkMapping) :
    Option ChunkBoundarySnapshot :=
  b.map fun b => ⟨b.index, findChunkID ms b.index, b.visiblePrefix⟩

def makeRetainedBoundary (b : Option ChunkSizeBoundary) (ms : List ChunkMapping) :
    Option RetainedChunkBoundary :=
  b.bind fun b => (findChunkID ms b.index).map fun id => ⟨b.index, id, b.visiblePrefix⟩

def planChunkSizeChange (oldSize newSize chunkSize : Nat) (mappings : List ChunkMapping) :
    Result ChunkSizePlan := do
  Result.failIf
    (chunkSize = 0 ∨ kMaxSupportedFileSize < oldSize ∨ kMaxSupportedFileSize < newSize)
    (.invalidArgument "invalid file size planning request")
  let sorted ← normalizeMappings chunkSize mappings
  let oldLayout ← planChunkSizeLayout oldSize chunkSize
  let expected : FileSizePrecondition := ⟨oldSize, makeBoundarySnapshot oldLayout.boundary sorted⟩
  if newSize < oldSize then
    let newLayout ← planChunkSizeLayout newSize chunkSize
    return ⟨newSize, expected, makeRetainedBoundary newLayout.boundary sorted,
      (sorted.filter fun m => newLayout.shouldDetach m.index).map (·.chunkId)⟩
  else if oldSize < newSize then
    return ⟨newSize, expected, makeRetainedBoundary oldLayout.boundary sorted, []⟩
  else return ⟨newSize, expected, none, []⟩

/-- `ValidateSizeCommitPlan`：計画を今の snapshot から立て直し、前提の変化を拒む -/
def validateSizeCommitPlan (requested : ChunkSizePlan) (actualEof chunkSize : Nat)
    (mappings : List ChunkMapping) (isShrink : Bool) : Result ChunkSizePlan := do
  Result.failIf
    (if isShrink then requested.expectedOldState.eof ≤ requested.targetEof
      else requested.targetEof ≤ requested.expectedOldState.eof)
    (.invalidArgument "invalid typed file size transition")
  validateFileSizePrecondition requested.expectedOldState chunkSize
  Result.failIf (actualEof ≠ requested.expectedOldState.eof)
    (.alreadyExists "stale typed file size precondition")
  let current ← planChunkSizeChange actualEof requested.targetEof chunkSize mappings
  Result.failIf (requested.expectedOldState.boundary ≠ current.expectedOldState.boundary)
    (.alreadyExists "stale typed file EOF boundary attachment")
  return current

/-! ## 位置と配置の性質 -/

variable {chunkSize eof : Nat}

theorem calculateChunkStartOffset_ok_iff :
    calculateChunkStartOffset index chunkSize = .ok start ↔
      0 < chunkSize ∧ index * chunkSize ≤ kMaxSupportedFileSize ∧ start = index * chunkSize := by
  unfold calculateChunkStartOffset
  by_cases hcs : chunkSize = 0
  · simp [hcs]
  have hover : (index ≠ 0 ∧ kMaxSupportedFileSize / index < chunkSize) ↔
      kMaxSupportedFileSize < index * chunkSize := by
    by_cases hi : index = 0
    · simp [hi]
    · rw [Nat.div_lt_iff_lt_mul (Nat.pos_of_ne_zero hi), Nat.mul_comm]
      exact and_iff_right hi
  rw [if_neg hcs]
  by_cases hle : index * chunkSize ≤ kMaxSupportedFileSize
  · rw [if_neg (hover.not.mpr (Nat.not_lt.mpr hle))]
    simp [hle, Nat.pos_of_ne_zero hcs, eq_comm]
  · rw [if_pos (hover.mpr (Nat.lt_of_not_le hle))]
    simp [hle]

theorem planChunkSizeLayout_ok_iff :
    planChunkSizeLayout eof chunkSize = .ok l ↔
      0 < chunkSize ∧ eof ≤ kMaxSupportedFileSize ∧ l = chunkSizeLayout eof chunkSize := by
  simp only [planChunkSizeLayout, Result.bind_ok_iff, Result.failIf_ok_iff, Result.pure_ok_iff,
    exists_const, eq_comm (a := l)]
  constructor
  · rintro ⟨h, rfl⟩; exact ⟨by omega, by omega, rfl⟩
  · rintro ⟨h, h', rfl⟩; exact ⟨by omega, rfl⟩

theorem shouldDetach_iff (hcs : 0 < chunkSize) (i : Nat) :
    (chunkSizeLayout eof chunkSize).shouldDetach i = true ↔ eof ≤ i * chunkSize := by
  have hdm : eof / chunkSize * chunkSize + eof % chunkSize = eof := Nat.div_add_mod' ..
  have hlt := Nat.mod_lt eof hcs
  unfold ChunkSizeLayout.shouldDetach chunkSizeLayout
  rw [decide_eq_true_iff]
  dsimp only
  split
  · next h0 =>
    rw [Nat.add_zero, ← Nat.mul_le_mul_right_iff hcs]
    omega
  · next h0 =>
    constructor
    · intro h
      have := Nat.mul_le_mul_right chunkSize h
      rw [Nat.add_mul] at this
      omega
    · intro h
      by_contra hc
      have : i * chunkSize ≤ eof / chunkSize * chunkSize :=
        Nat.mul_le_mul_right _ (by omega)
      omega

theorem boundary_eq_some_iff : (chunkSizeLayout eof chunkSize).boundary = some b ↔
      eof % chunkSize ≠ 0 ∧ b = ⟨eof / chunkSize, eof % chunkSize⟩ := by
  simp only [chunkSizeLayout]
  split
  · next h => simp [h]
  · next h => simp [h, eq_comm]

theorem isValidChunkID_succ_iff : isValidChunkID (n + 1) = true ↔ n < kMaxChunkIDValue := by
  simp only [isValidChunkID, decide_eq_true_eq]
  exact ⟨fun h => h.2, fun h => ⟨n.succ_ne_zero, h⟩⟩

theorem validateFileChunkWrite_ok_iff {id : ChunkID} :
    validateFileChunkWrite index id endOff cs = .ok u ↔
      isValidChunkID id = true ∧ 0 < cs ∧ endOff ≤ kMaxSupportedFileSize ∧
        index * cs < endOff ∧ endOff ≤ index * cs + cs := by
  unfold validateFileChunkWrite
  split
  · next h =>
    constructor
    · intro h'; cases h'
    · rintro ⟨h1, h2, h3, _⟩; simp [h1] at h; omega
  · next h =>
    simp only [not_or, Bool.not_eq_true', Bool.not_eq_false] at h
    cases hs : calculateChunkStartOffset index cs with
    | error e =>
      constructor
      · intro h'; cases h'
      · rintro ⟨_, hcs, hmax, hlt, _⟩
        rw [calculateChunkStartOffset_ok_iff.mpr ⟨hcs, by omega, rfl⟩] at hs
        cases hs
    | ok start =>
      obtain ⟨hcs, hle, rfl⟩ := calculateChunkStartOffset_ok_iff.mp hs
      dsimp only
      split
      · constructor
        · intro h'; cases h'
        · rintro ⟨_, _, _, h1, h2⟩; omega
      · exact ⟨fun _ => ⟨h.1, hcs, by omega, by omega, by omega⟩, fun _ => rfl⟩

/-! ## 整列した mapping -/

theorem sortMappings_perm (ms : List ChunkMapping) : (sortMappings ms).Perm ms :=
  List.perm_insertionSort _ ms

variable {ms : List ChunkMapping}

@[simp] theorem mem_sortMappings : m ∈ sortMappings ms ↔ m ∈ ms := (sortMappings_perm ms).mem_iff

theorem sortMappings_sorted (ms : List ChunkMapping) :
    (sortMappings ms).Pairwise fun a b => a.index ≤ b.index :=
  haveI : Std.Total fun a b : ChunkMapping => a.index ≤ b.index := ⟨fun _ _ => Nat.le_total ..⟩
  haveI : IsTrans ChunkMapping fun a b => a.index ≤ b.index := ⟨fun _ _ _ => Nat.le_trans⟩
  List.pairwise_insertionSort _ ms

theorem sortMappings_strict (h : (ms.map (·.index)).Nodup) :
    (sortMappings ms).Pairwise fun a b => a.index < b.index := by
  have hnd : ((sortMappings ms).map (·.index)).Nodup :=
    ((sortMappings_perm ms).map _).nodup_iff.mpr h
  rw [List.Nodup, List.pairwise_map] at hnd
  exact ((sortMappings_sorted ms).and hnd).imp fun h => Nat.lt_of_le_of_ne h.1 h.2

theorem findChunkID_eq_some_iff {id : ChunkID} (h : ms.Pairwise fun a b => a.index < b.index) :
    findChunkID ms i = some id ↔ (⟨i, id⟩ : ChunkMapping) ∈ ms := by
  induction ms with
  | nil => simp [findChunkID]
  | cons m ms ih =>
    obtain ⟨hm, hms⟩ := List.pairwise_cons.mp h
    by_cases hlt : m.index < i
    · have hne : (⟨i, id⟩ : ChunkMapping) ≠ m := by rintro rfl; exact Nat.lt_irrefl _ hlt
      rw [List.mem_cons, or_iff_right hne, ← ih hms]
      simp [findChunkID, hlt]
    · simp only [findChunkID, hlt, decide_false, Bool.false_eq_true, not_false_eq_true,
        List.dropWhile_cons_of_neg, List.mem_cons]
      by_cases he : m.index = i
      · subst he
        constructor
        · intro h'; exact .inl (by cases m; simp_all)
        · rintro (h' | h')
          · rw [if_pos rfl, ← h']
          · exact absurd (hm _ h') (Nat.lt_irrefl _)
      · rw [if_neg he]
        constructor
        · intro h'; cases h'
        · rintro (rfl | h')
          · exact absurd rfl he
          · exact absurd (hm _ h') (by simp only; omega)

/-! ## 計画の形 -/

def chunkSizePlan (oldSize newSize chunkSize : Nat) (sorted : List ChunkMapping) :
    ChunkSizePlan where
  targetEof := newSize
  expectedOldState := ⟨oldSize,
    makeBoundarySnapshot (chunkSizeLayout oldSize chunkSize).boundary sorted⟩
  boundary :=
    if newSize < oldSize then
      makeRetainedBoundary (chunkSizeLayout newSize chunkSize).boundary sorted
    else if oldSize < newSize then
      makeRetainedBoundary (chunkSizeLayout oldSize chunkSize).boundary sorted
    else none
  detachedChunkIds :=
    if newSize < oldSize then
      (sorted.filter fun m => (chunkSizeLayout newSize chunkSize).shouldDetach m.index).map
        (·.chunkId)
    else []

theorem planChunkSizeChange_ok_iff :
    planChunkSizeChange oldSize newSize chunkSize ms = .ok p ↔
      0 < chunkSize ∧ oldSize ≤ kMaxSupportedFileSize ∧ newSize ≤ kMaxSupportedFileSize ∧
        checkMappings chunkSize none (sortMappings ms) = .ok () ∧
        p = chunkSizePlan oldSize newSize chunkSize (sortMappings ms) := by
  simp only [planChunkSizeChange, normalizeMappings, Result.bind_ok_iff, Result.failIf_ok_iff,
    Result.map_ok_iff, planChunkSizeLayout_ok_iff]
  constructor
  · rintro ⟨-, hlim, _, ⟨⟨⟩, hc, rfl⟩, _, ⟨hcs, -, rfl⟩, h⟩
    refine ⟨hcs, by omega, by omega, hc, ?_⟩
    split at h
    · next hlt =>
      simp only [Result.bind_ok_iff, planChunkSizeLayout_ok_iff, Result.pure_ok_iff] at h
      obtain ⟨_, ⟨-, -, rfl⟩, rfl⟩ := h
      simp only [chunkSizePlan, if_pos hlt]
    · next hlt =>
      split at h <;> next hgt => cases h; simp only [chunkSizePlan, hlt, hgt, if_true, if_false]
  · rintro ⟨hcs, ho, hn, hc, rfl⟩
    refine ⟨(), by omega, _, ⟨(), hc, rfl⟩, _, ⟨hcs, ho, rfl⟩, ?_⟩
    split
    · next hlt =>
      simp only [Result.bind_ok_iff, planChunkSizeLayout_ok_iff, Result.pure_ok_iff]
      exact ⟨_, ⟨hcs, hn, rfl⟩, by simp only [chunkSizePlan, if_pos hlt]⟩
    · next hlt =>
      split <;> next hgt => simp only [chunkSizePlan, hlt, hgt, if_true, if_false]; rfl

/-- 前提の検査は、境界が EOF の配置そのものであることを要求する -/
theorem validateFileSizePrecondition_ok_iff :
    validateFileSizePrecondition e chunkSize = .ok u ↔
      0 < chunkSize ∧ e.eof ≤ kMaxSupportedFileSize ∧
        (e.boundary.map fun b => (⟨b.index, b.visiblePrefix⟩ : ChunkSizeBoundary)) =
          (chunkSizeLayout e.eof chunkSize).boundary ∧
        ∀ b, e.boundary = some b → ∀ id, b.chunkId = some id → isValidChunkID id = true := by
  obtain ⟨eof, boundary⟩ := e
  simp only [validateFileSizePrecondition, Result.bind_ok_iff, planChunkSizeLayout_ok_iff]
  constructor
  · rintro ⟨_, ⟨hcs, hmax, rfl⟩, h⟩
    refine ⟨hcs, hmax, ?_⟩
    split at h
    · next hl => exact ⟨hl.symm, fun _ h => by cases h⟩
    · next b e hl =>
      simp only [Result.failIf_ok_iff, not_or, not_not] at h
      obtain ⟨h1, h2, h3⟩ := h
      refine ⟨by rw [hl]; simp [h1, h2], fun b' hb' id hid => ?_⟩
      cases hb'
      simpa [hid] using h3
    · cases h
  · rintro ⟨hcs, hmax, hb, hv⟩
    refine ⟨_, ⟨hcs, hmax, rfl⟩, ?_⟩
    rw [← hb]
    cases boundary with
    | none => rfl
    | some b =>
      simp only [Option.map_some, Result.failIf_ok_iff, not_or, not_not, true_and]
      cases hid : b.chunkId with
      | none => simp
      | some id => simpa using hv b rfl id hid

/-- 立て直した計画が認められるのは、方向が正しく EOF と境界が前提と同じとき -/
theorem validateSizeCommitPlan_ok_iff
    :
    validateSizeCommitPlan requested actualEof chunkSize ms isShrink = .ok current ↔
      (if isShrink then requested.targetEof < actualEof else actualEof < requested.targetEof) ∧
        validateFileSizePrecondition requested.expectedOldState chunkSize = .ok () ∧
        actualEof = requested.expectedOldState.eof ∧
        planChunkSizeChange actualEof requested.targetEof chunkSize ms = .ok current ∧
        requested.expectedOldState.boundary = current.expectedOldState.boundary := by
  simp only [validateSizeCommitPlan, Result.bind_ok_iff, Result.failIf_ok_iff, Result.pure_ok_iff,
    not_not]
  constructor
  · rintro ⟨-, hd, ⟨⟩, hp, -, he, c, hc, -, hb, rfl⟩
    refine ⟨?_, hp, he, hc, hb⟩
    cases isShrink <;> simp_all
  · rintro ⟨hd, hp, he, hc, hb⟩
    refine ⟨(), ?_, (), hp, (), he, current, hc, (), hb, rfl⟩
    cases isShrink <;> simp_all

end SwordFS.Metadata
