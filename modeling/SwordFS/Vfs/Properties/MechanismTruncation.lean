import SwordFS.Chunk.Cow.COWChunk
import SwordFS.Chunk.Slice.Flush
import SwordFS.Vfs.Properties.ChunkCache

/-!
# 方式ごとの手元の切り詰め

COW と Slice のどちらも `LocalTruncation` の約束を守る。
-/

namespace SwordFS.Vfs

open Infra Metadata Chunk

variable {cx : MetaContext} {ino : InodeID}

/-! ## COW -/

section

open Chunk.Cow

theorem keeps_compareExchangeHead (id : ChunkID) (expected : Option COWChunkHead)
    (replacement : COWChunkHead) :
    Keeps Backend.redis (compareExchangeHead id expected replacement) := by
  refine keeps_call (fun now b => ?_) fun _ _ _ => rfl
  split
  · rfl
  · split <;> rfl

theorem keeps_sanitizeLoop (boundary : RetainedChunkBoundary) (fuel : Nat) :
    Keeps Backend.redis (sanitizeLoop ino boundary fuel) := by
  induction fuel with
  | zero => exact keeps_throw _
  | succ fuel ih =>
    unfold sanitizeLoop
    refine (keeps_query _).attempt.bind fun r => ?_
    split
    · split
      · exact (keeps_query _).bind fun _ => keeps_failIf _ _
      · exact keeps_throw _
    · split
      · exact keeps_pure _
      · refine (keeps_compareExchangeHead _ _ _).attempt.bind fun r => ?_
        split
        · exact keeps_pure _
        · split
          · exact ih
          · exact keeps_throw _

def CowClipped (p : Nat) (c : COWChunk) : Prop :=
  c.visiblePrefix ≤ p ∧ (∀ h, c.publishedHead = some h → h.size ≤ p) ∧
    (c.state ≠ .clean → ∀ buf, c.wb = some buf → buf.length ≤ p)

theorem cowClipped_truncateLocal (p : Nat) (c : COWChunk) : CowClipped p (c.truncateLocal p) := by
  have hhead : ∀ h, (c.clampPublishedPrefix p).publishedHead = some h → h.size ≤ p := by
    intro h hh
    obtain ⟨h₀, -, rfl⟩ := Option.map_eq_some_iff.mp hh
    exact Nat.min_le_right _ _
  unfold COWChunk.truncateLocal
  dsimp only
  split
  · next hc => exact ⟨Nat.min_le_right _ _, hhead, fun hne => absurd hc hne⟩
  · refine ⟨Nat.min_le_right _ _, hhead, fun _ buf hbuf => ?_⟩
    obtain ⟨buf₀, -, rfl⟩ := Option.map_eq_some_iff.mp hbuf
    exact List.length_take_le _ _

theorem CowClipped.clamp (h : CowClipped p c) (q : Nat) :
    CowClipped p (c.clampPublishedPrefix q) := by
  obtain ⟨hv, hh, hw⟩ := h
  refine ⟨(Nat.min_le_left _ _).trans hv, fun h hq => ?_, hw⟩
  obtain ⟨h₀, hh₀, rfl⟩ := Option.map_eq_some_iff.mp hq
  exact (Nat.min_le_left _ _).trans (hh h₀ hh₀)

/-- COW の session は、buffer と公開済みの head を一緒に切る -/
def cowTruncation (cx : MetaContext) (ino : InodeID) (fuel : Nat) :
    LocalTruncation (Cow.mechanism cx ino fuel) where
  Wf _ := True
  Clipped := CowClipped
  Clamped p c c' := c' = c.clampPublishedPrefix p
  sanitize boundary := (keeps_failIf _ _).bind fun _ => keeps_sanitizeLoop boundary fuel
  clamp p c b := by
    change Alone _ (modifySession fun c : COWChunk => ((), c.clampPublishedPrefix p)) _ (c, b)
    exact .modifySession ⟨rfl, rfl, rfl⟩
  truncate p c b _ := by
    change Alone _ (modifySession fun c : COWChunk => ((), c.truncateLocal p)) _ (c, b)
    exact .modifySession
      ⟨rfl, rfl, cowClipped_truncateLocal p c, trivial⟩
  wf_of_clamped _ _ := trivial
  clipped_of_clamped := by
    rintro p q c _ - rfl h
    exact h.clamp q

end

/-! ## Slice -/

section

open Chunk.Slice

theorem keeps_appendRecord (id : ChunkID) (r : SliceRecord) :
    Keeps Backend.redis (appendRecord cx id r) := by
  refine keeps_call (fun now b => ?_) fun _ _ _ => rfl
  split
  · rfl
  · split <;> rfl

theorem keeps_sliceSanitize (boundary : RetainedChunkBoundary) :
    Keeps Backend.redis (Slice.sanitizeBoundary cx ino boundary) := by
  unfold Slice.sanitizeBoundary
  refine (keeps_failIf _ _).bind fun _ => (keeps_query _).bind fun attached => ?_
  split
  · exact keeps_pure _
  · refine (keeps_appendRecord _ _).attempt.bind fun r => ?_
    split
    · exact keeps_pure _
    · split
      · exact (keeps_query _).bind fun _ => keeps_failIf _ _
      · exact keeps_throw _

theorem keeps_readMappedRecords (id : ChunkID) (msg : String) :
    Keeps Backend.redis (readMappedRecords cx id msg) := by
  unfold readMappedRecords
  refine (keeps_query _).attempt.bind fun r => ?_
  split
  · exact keeps_throw _
  · exact (keeps_failIf _ _).bind fun _ => keeps_pure _

theorem keeps_boundarySource (index : Nat) : Keeps Backend.redis (boundarySource cx ino index) := by
  unfold boundarySource
  refine (keeps_query _).bind fun snapshot => ?_
  split
  · exact keeps_pure _
  · exact (keeps_readMappedRecords _ _).bind fun _ => keeps_pure _

/-- 公開済みの record は、`p` で切られるか、読めなくなっている -/
def BoundaryAt (p : Nat) (sc : SliceChunk) : Prop :=
  sc.boundaryError.isSome = true ∨
    ∃ last, sc.boundaries.getLast? = some last ∧ last.visiblePrefix ≤ p

def SliceClamped (p : Nat) (sc sc' : SliceChunk) : Prop :=
  sc' = { sc with boundaries := sc'.boundaries, boundaryError := sc'.boundaryError } ∧
    BoundaryAt p sc'

theorem sliceClamped_addBoundary (sc : SliceChunk) (p : Nat) (id : Option ChunkID) (count : Nat) :
    SliceClamped p sc (sc.addBoundary cx p id count) := by
  have hmin : min p cx.chunkSize ≤ p := Nat.min_le_left _ _
  unfold SliceChunk.addBoundary
  extract_lets boundaries sc₁ clamp
  split
  · exact ⟨rfl, .inr ⟨_, rfl, hmin⟩⟩
  · split
    · exact ⟨rfl, .inl rfl⟩
    · split
      · exact ⟨rfl, .inr ⟨_, List.getLast?_concat, (Nat.min_le_left _ _).trans hmin⟩⟩
      · exact ⟨rfl, .inr ⟨_, List.getLast?_concat, hmin⟩⟩

theorem captureBoundary_spec (index p : Nat) (sc : SliceChunk) (b : Backend) :
    Alone (fun _ => True) (captureBoundary cx ino index p)
      (fun r s => r = .ok () ∧ s.2.redis = b.redis ∧ SliceClamped p sc s.1) (sc, b) := by
  refine .bind (.attempt (.onBackend
    ((keeps_boundarySource index b).mono ?_)))
  intro r b' hb'
  refine .modifySession ?_
  rcases r with e | ⟨id, count⟩
  · exact ⟨rfl, hb', rfl, .inl rfl⟩
  · exact ⟨rfl, hb', sliceClamped_addBoundary sc p id count⟩

def SliceRangesWf (sc : SliceChunk) : Prop :=
  ∃ limit, RangesWf limit sc.dirty ∧ RangesWf limit sc.active

def SliceClipped (p : Nat) (sc : SliceChunk) : Prop :=
  BoundaryAt p sc ∧ (∀ r ∈ sc.dirty, rangeEnd r ≤ p) ∧ (∀ r ∈ sc.active, rangeEnd r ≤ p) ∧
    ∀ c ∈ sc.frozen, c.pos + c.visibleLen ≤ p

theorem clipRanges_end (h : RangesWf limit rs) :
    ∀ r ∈ clipRanges rs p, rangeEnd r ≤ p := fun r hr =>
  ((clipRanges_spec h p).1.bounded r hr).trans (Nat.min_le_right _ _)

theorem sliceClipped_clip (hwf : SliceRangesWf sc)
    (hb : BoundaryAt p sc) : SliceClipped p (sc.clip p) ∧ SliceRangesWf (sc.clip p) := by
  obtain ⟨limit, hd, ha⟩ := hwf
  refine ⟨⟨hb, clipRanges_end hd, clipRanges_end ha, fun c hc => ?_⟩,
    min limit p, (clipRanges_spec hd p).1, (clipRanges_spec ha p).1⟩
  obtain ⟨hmem, hne⟩ := List.mem_filter.mp hc
  obtain ⟨c₀, -, rfl⟩ := List.mem_map.mp hmem
  have hlen : (c₀.clip p).visibleLen ≠ 0 := by simpa using hne
  simp only [FrozenSlice.clip] at hlen ⊢
  omega

theorem sliceTruncate_spec (p : Nat) (sc : SliceChunk) (b : Backend) (hwf : SliceRangesWf sc) :
    Alone (fun _ => True) (withIndex fun i => Slice.truncateLocal cx ino i p)
      (fun r s => r = .ok () ∧ s.2.redis = b.redis ∧ SliceClipped p s.1 ∧ SliceRangesWf s.1)
      (sc, b) := by
  refine .bind (.getSession ?_)
  refine .bind ((captureBoundary_spec sc.index p sc b).mono ?_)
  rintro r ⟨sc', b'⟩ ⟨rfl, hb', hsc, hbound⟩
  refine .modifySession ⟨rfl, hb', ?_⟩
  refine sliceClipped_clip ?_ hbound
  rw [SliceRangesWf, hsc]
  exact hwf

/-- Slice の session は、手元の区間と候補を切り、公開済みの record に境界を置く -/
def sliceTruncation (cx : MetaContext) (ino : InodeID) :
    LocalTruncation (Slice.mechanism cx ino) where
  Wf := SliceRangesWf
  Clipped := SliceClipped
  Clamped := SliceClamped
  sanitize := keeps_sliceSanitize
  clamp p c b := .bind (.getSession
    (captureBoundary_spec c.index p c b))
  truncate p c b hwf := sliceTruncate_spec p c b hwf
  wf_of_clamped := by
    rintro p c c' ⟨hc, -⟩ hwf
    rw [SliceRangesWf, hc]
    exact hwf
  clipped_of_clamped := by
    rintro p q c c' hq ⟨hc, hb⟩ ⟨-, hlocal⟩
    refine ⟨?_, by rw [hc]; exact hlocal⟩
    rcases hb with he | ⟨last, hl, hle⟩
    · exact .inl he
    · exact .inr ⟨last, hl, hle.trans hq⟩

end

end SwordFS.Vfs
