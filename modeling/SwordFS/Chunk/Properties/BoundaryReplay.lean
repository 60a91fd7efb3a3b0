import Mathlib.Order.Lattice.Nat
import SwordFS.Metadata.Properties.FileSnapshot
import SwordFS.Chunk.Properties.ResolveOverlay
import SwordFS.Chunk.Properties.SliceRead
import SwordFS.Chunk.Slice.Flush

/-!
# 保持した境界は、出来事を順に再生したのと同じである

一つの ChunkID の上では、record の追加と境界の捕捉（`TruncateLocal`、`ClampPublishedPrefix`）が
交互に起きる。読み出しは record と境界を新しい順にたどって切り詰めるが、その結果は、
零の chunk の上で出来事を古い順に再生したものに等しい。
-/

namespace SwordFS.Chunk.Slice

open List Infra Metadata

/-! ## 再生 -/

/-- 一つの ChunkID の上の出来事 -/
inductive Event where
  | append (r : SliceRecord)
  | capture (p : Nat)
deriving DecidableEq, Repr

def appendedRecords (es : List Event) : List SliceRecord :=
  es.filterMap fun
    | .append r => some r
    | .capture _ => none

/-- 追加は範囲を書き、捕捉は `p` 以降を零にする -/
def replayStep (objects : SliceID → Option Bytes) (content : Nat → UInt8) : Event → Nat → UInt8
  | .append r, q => (recordAt objects r q).getD (content q)
  | .capture p, q => if q < p then content q else 0

/-- 零の chunk の上で、出来事を古い順に再生する -/
def replay (objects : SliceID → Option Bytes) (es : List Event) : Nat → UInt8 :=
  es.foldl (replayStep objects) fun _ => 0

theorem replay_concat (objects : SliceID → Option Bytes) (es : List Event) (e : Event) :
    replay objects (es ++ [e]) = replayStep objects (replay objects es) e := by
  rw [replay, foldl_append]
  rfl

theorem appendedRecords_append (es : List Event) (r : SliceRecord) :
    appendedRecords (es ++ [.append r]) = appendedRecords es ++ [r] := by
  rw [appendedRecords, filterMap_append]
  rfl

theorem appendedRecords_capture (es : List Event) (p : Nat) :
    appendedRecords (es ++ [.capture p]) = appendedRecords es := by
  rw [appendedRecords, filterMap_append]
  exact append_nil _

/-- record が `n` 個あるときに `p` を捕えた。chunk の大きさを越える境界は大きさに揃える -/
def CapturedAt (cs : Nat) (es : List Event) (n p : Nat) : Prop :=
  ∃ before after p₀, es = before ++ .capture p₀ :: after ∧
    (appendedRecords before).length = n ∧ p = min p₀ cs

variable {cs n p vp : Nat} {es : List Event}

theorem capturedAt_concat :
    CapturedAt cs (es ++ [e]) n p ↔ CapturedAt cs es n p ∨
      ∃ p₀, e = .capture p₀ ∧ (appendedRecords es).length = n ∧ p = min p₀ cs := by
  constructor
  · rintro ⟨before, after, p₀, hes, hn, hp⟩
    rcases eq_nil_or_concat after with rfl | ⟨after, x, rfl⟩
    · obtain ⟨rfl, he⟩ := append_inj' hes rfl
      exact .inr ⟨p₀, singleton_inj.mp he, hn, hp⟩
    · rw [concat_eq_append, ← cons_append, ← append_assoc] at hes
      obtain ⟨rfl, -⟩ := append_inj' hes rfl
      exact .inl ⟨before, after, p₀, rfl, hn, hp⟩
  · rintro (⟨before, after, p₀, rfl, hn, hp⟩ | ⟨p₀, rfl, hn, hp⟩)
    · exact ⟨before, after ++ [e], p₀, by simp, hn, hp⟩
    · exact ⟨es, [], p₀, rfl, hn, hp⟩

theorem CapturedAt.count_le (h : CapturedAt cs es n p) : n ≤ (appendedRecords es).length := by
  obtain ⟨before, after, p₀, rfl, rfl, -⟩ := h
  rw [appendedRecords, appendedRecords, filterMap_append, length_append]
  exact Nat.le_add_right _ _

theorem CapturedAt.exists_isLeast (h : CapturedAt cs es n p) :
    ∃ v, IsLeast {x | CapturedAt cs es n x} v :=
  ⟨_, Nat.sInf_mem ⟨p, h⟩, fun _ hx => Nat.sInf_le hx⟩

theorem capturedAt_append : CapturedAt cs (es ++ [.append r]) n p ↔ CapturedAt cs es n p := by
  rw [capturedAt_concat]
  exact or_iff_left fun ⟨_, h, _⟩ => nomatch h

theorem capturedAt_capture :
    CapturedAt cs (es ++ [.capture p₀]) n p ↔
      CapturedAt cs es n p ∨ (appendedRecords es).length = n ∧ p = min p₀ cs := by
  rw [capturedAt_concat]
  refine or_congr_right ⟨?_, fun h => ⟨p₀, rfl, h⟩⟩
  rintro ⟨_, h, hn, hp⟩
  cases h
  exact ⟨hn, hp⟩

/-! ## 切り詰めの loop -/

theorem sanitizeNewest_cons (h : takeBoundaries (older.length + 1) bs vp = (vp', bs')) :
    sanitizeNewest cs (r :: older) bs vp = (do
      validateRecord r cs
      let rest ← sanitizeNewest cs older bs' vp'
      if vp' ≤ r.pos then return rest
      else return { r with len := min r.len (vp' - r.pos) } :: rest) := by
  simp only [sanitizeNewest, h]

theorem sanitizeNewest_take (h : newest.length ≤ c.recordCount) :
    sanitizeNewest cs newest (c :: bs) vp =
      sanitizeNewest cs newest bs (min vp c.visiblePrefix) := by
  cases newest with
  | nil => rfl
  | cons r older =>
    have htake : takeBoundaries (older.length + 1) (c :: bs) vp =
        takeBoundaries (older.length + 1) bs (min vp c.visiblePrefix) := if_pos (by simpa using h)
    rw [sanitizeNewest_cons (Prod.mk.eta.symm), sanitizeNewest_cons (Prod.mk.eta.symm), htake]

theorem takeBoundaries_skip (h : ∀ c ∈ bs, c.recordCount < i) :
    takeBoundaries i bs vp = (vp, bs) := by
  cases bs with
  | nil => rfl
  | cons c bs => exact if_neg (Nat.not_le_of_lt (h c (mem_cons_self ..)))

theorem sanitizeNewest_nil : ∀ {newest : List SliceRecord},
    (∀ r ∈ newest, validateRecord r cs = .ok ()) → sanitizeNewest cs newest [] cs = .ok newest
  | [], _ => rfl
  | r :: older, h => by
    obtain ⟨hr, hold⟩ := forall_mem_cons.mp h
    obtain ⟨hlen, hend, -⟩ := validateRecord_ok_iff.mp hr
    have hmin : min r.len (cs - r.pos) = r.len := by omega
    have htake : takeBoundaries (older.length + 1) [] cs = (cs, []) := rfl
    rw [sanitizeNewest_cons htake, hr, sanitizeNewest_nil hold]
    dsimp only [bind, Except.bind]
    rw [if_neg (by omega), hmin]
    rfl

/-- 切り詰めた record は、元の位置のうち `vp` より前だけを覆う -/
theorem recordAt_clipped (objects : SliceID → Option Bytes) (r : SliceRecord) (vp q : Nat) :
    recordAt objects { r with len := min r.len (vp - r.pos) } q =
      if q < vp then recordAt objects r q else none := by
  unfold recordAt
  dsimp only
  by_cases hq : q < vp
  · rw [if_pos hq]
    by_cases hc : r.pos ≤ q ∧ q < r.pos + r.len
    · rw [if_pos hc, if_pos (by omega)]
    · rw [if_neg hc, if_neg (by omega)]
  · rw [if_neg hq, if_neg (by omega)]

theorem resolveAt_concat (objects : SliceID → Option Bytes) (records : List SliceRecord)
    (r : SliceRecord) (q : Nat) :
    resolveAt objects (records ++ [r]) q =
      (recordAt objects r q).getD (resolveAt objects records q) := by
  rw [resolveAt, resolveAt, map_append, overlay_append, map_singleton, overlay_singleton]
  cases recordAt objects r q <;> rfl

/-! ## 今の ChunkID に効く境界 -/

/-- 境界のうち、ChunkID `id` について捕えたもの。別の ChunkID のものが残っていても効かない -/
def liveBoundaries (id : ChunkID) (sc : SliceChunk) : List BoundaryClamp :=
  match sc.boundaries.getLast? with
  | none => []
  | some last => if last.chunkId = some id then sc.boundaries else []

/-- 同じ record の数で捕えた境界は、小さい方にまとめる -/
def mergeBoundary (id : ChunkID) (p count : Nat) (live : List BoundaryClamp) :
    List BoundaryClamp :=
  match live.getLast? with
  | none => [⟨p, some id, count⟩]
  | some last =>
    if count = last.recordCount then
      live.dropLast ++ [{ last with visiblePrefix := min p last.visiblePrefix }]
    else live ++ [⟨p, some id, count⟩]

theorem addBoundary_eq (cx : MetaContext) {id : ChunkID} (p : Nat) {count : Nat}
    (hcount : ∀ c ∈ liveBoundaries id sc, c.recordCount ≤ count) :
    sc.addBoundary cx p (some id) count =
      { sc with boundaryError := none,
                boundaries := mergeBoundary id (min p cx.chunkSize) count
                  (liveBoundaries id sc) } := by
  unfold SliceChunk.addBoundary mergeBoundary
  cases hlast : sc.boundaries.getLast? with
  | none =>
    have hlive : liveBoundaries id sc = [] := by simp [liveBoundaries, hlast]
    rw [hlive]
    rfl
  | some last =>
    by_cases hid : last.chunkId = some id
    · have hlive : liveBoundaries id sc = sc.boundaries := by simp [liveBoundaries, hlast, hid]
      have hle := hcount last (hlive ▸ mem_of_getLast? hlast)
      rw [hlive, hlast]
      simp only [ne_eq, hid, not_true_eq_false, if_false, hlast]
      rw [if_neg (by omega)]
      split <;> rfl
    · have hlive : liveBoundaries id sc = [] := by simp [liveBoundaries, hlast, hid]
      rw [hlive]
      simp [hid]

theorem liveBoundaries_merged {id : ChunkID} {count : Nat} (hid : ∀ c ∈ live, c.chunkId = some id)
    (h : sc.boundaries = mergeBoundary id p count live) :
    liveBoundaries id sc = mergeBoundary id p count live := by
  have hlast : ∃ last, (mergeBoundary id p count live).getLast? = some last ∧
      last.chunkId = some id := by
    unfold mergeBoundary
    split
    · exact ⟨_, rfl, rfl⟩
    · next last hl =>
      split
      · exact ⟨_, getLast?_concat, hid last (mem_of_getLast? hl)⟩
      · exact ⟨_, getLast?_concat, rfl⟩
  obtain ⟨last, hl, hlid⟩ := hlast
  unfold liveBoundaries
  rw [h, hl]
  exact if_pos hlid

/-! ## 歴史 -/

/--
一つの ChunkID の歴史。

始まりの session は、別の ChunkID について捕えた境界を持っていてよい。捕捉は、取り付けられて index を
持つ ChunkID について `CaptureBoundary` を走らせたものである。`other` は、境界と index に触れない
あらゆる動き（書き込み、他の chunk の公開、EOF の変更など）を許す。
-/
inductive History (cx : MetaContext) (ino : InodeID) (id : ChunkID) :
    List Event → SliceChunk → Backend → Prop
  | start (sc : SliceChunk) (b : Backend) (herr : sc.boundaryError = none)
      (hother : ∀ last, sc.boundaries.getLast? = some last → last.chunkId ≠ some id)
      (hindex : b.sliceIndex id = []) : History cx ino id [] sc b
  | append {es : List Event} {sc : SliceChunk} {b b' : Backend} (r : SliceRecord)
      (h : History cx ino id es sc b) (hr : validateRecord r cx.chunkSize = .ok ())
      (hindex : b'.sliceIndex id = b.sliceIndex id ++ [r]) :
      History cx ino id (es ++ [.append r]) sc b'
  | capture {es : List Event} {sc : SliceChunk} {b : Backend} (p : Nat)
      (h : History cx ino id es sc b) {file : FileChunkSnapshot}
      (hfile : SnapshotOf cx.chunkSize b.redis ino sc.index file)
      (hid : file.chunkId = some id) (hindex : b.sliceIndex id ≠ [])
      {cs : Nat → Choice Answer} (hcs : ∀ n, (cs n).Within Answer.NoFault) :
      History cx ino id (es ++ [.capture p])
        (Prog.exec (captureBoundary cx ino sc.index p) cs (sc, b)).2.1 b
  | other {es : List Event} {sc sc' : SliceChunk} {b b' : Backend}
      (h : History cx ino id es sc b) (hi : sc'.index = sc.index)
      (hb : sc'.boundaries = sc.boundaries) (he : sc'.boundaryError = sc.boundaryError)
      (hindex : b'.sliceIndex id = b.sliceIndex id) : History cx ino id es sc' b'

section

variable {cx : MetaContext} {ino : InodeID} {id : ChunkID} {es : List Event} {sc : SliceChunk}
  {b : Backend}

/-- 取り付けられた ChunkID の record は、失敗が無ければそのまま読める -/
theorem readMappedRecords_reads (hid : isValidChunkID id = true)
    (hne : b.sliceIndex id ≠ []) (hv : ∀ r ∈ b.sliceIndex id, validateRecord r cx.chunkSize = .ok ()) :
    Reads (readMappedRecords cx id msg) b (.ok (b.sliceIndex id)) := by
  have hvs : validateRecords cx.chunkSize (b.sliceIndex id) = .ok () :=
    validateRecords_ok_iff.mpr hv
  have hread : Reads (readRecords cx id) b (.ok (b.sliceIndex id)) := by
    refine .query ⟨?_, rfl⟩
    simp [Result.failIf, hid, hne, hvs, bind, Except.bind, pure, Except.pure]
  exact hread.attempt.bind ((reads_failIf hne).bind (reads_pure _))

theorem captureBoundary_run (p : Nat) (hfile : SnapshotOf cx.chunkSize b.redis ino sc.index file)
    (hid : file.chunkId = some id) (hindex : b.sliceIndex id ≠ [])
    (hv : ∀ r ∈ b.sliceIndex id, validateRecord r cx.chunkSize = .ok ()) {cs : Nat → Choice Answer}
    (hcs : ∀ n, (cs n).Within Answer.NoFault) :
    (Prog.exec (captureBoundary cx ino sc.index p) cs (sc, b)).2.1 =
      sc.addBoundary cx p (some id) (b.sliceIndex id).length := by
  have hsnap : Reads (readSnapshot cx ino sc.index) b (.ok file) := by
    have := reads_query (b := b) fun b => readFileChunkSnapshot cx.chunkSize b.redis ino sc.index
    rw [readFileChunkSnapshot_ok_iff.mpr hfile] at this
    exact this
  have hsource : Reads (boundarySource cx ino sc.index) b
      (.ok (some id, (b.sliceIndex id).length)) := by
    refine hsnap.bind ?_
    rw [hid]
    exact (readMappedRecords_reads (hfile.valid id hid) hindex hv).bind (reads_pure _)
  have hrun : Alone Answer.NoFault (captureBoundary cx ino sc.index p)
      (fun _ s => s.1 = sc.addBoundary cx p (some id) (b.sliceIndex id).length) (sc, b) := by
    refine .bind (.attempt (.onBackend (hsource.mono ?_)))
    exact .modifySession rfl
  exact hrun.exec hcs

/-- 歴史 `es` の後の session と index -/
structure Tracked (cx : MetaContext) (id : ChunkID) (es : List Event) (sc : SliceChunk)
    (b : Backend) : Prop where
  index : b.sliceIndex id = appendedRecords es
  valid : ∀ r ∈ appendedRecords es, validateRecord r cx.chunkSize = .ok ()
  noError : sc.boundaryError = none
  ordered : (liveBoundaries id sc).Pairwise fun c c' => c.recordCount < c'.recordCount
  /-- 境界は、捕えた record の数ごとに一つで、最も小さいもの -/
  least : ∀ c, c ∈ liveBoundaries id sc ↔ c.chunkId = some id ∧
    IsLeast {p | CapturedAt cx.chunkSize es c.recordCount p} c.visiblePrefix
  /-- 新しい順に切り詰めた record の内容は、再生の結果を `vp` で切ったもの -/
  clipped : ∀ vp ≤ cx.chunkSize, ∃ out,
    sanitizeNewest cx.chunkSize (appendedRecords es).reverse (liveBoundaries id sc).reverse vp =
      .ok out ∧
    (∀ r ∈ out, validateRecord r cx.chunkSize = .ok () ∧
      ∃ r₀ ∈ appendedRecords es, r₀.id = r.id ∧ r₀.size = r.size) ∧
    ∀ objects q, resolveAt objects out.reverse q = if q < vp then replay objects es q else 0

theorem Tracked.count_le (h : Tracked cx id es sc b) :
    ∀ c ∈ liveBoundaries id sc, c.recordCount ≤ (appendedRecords es).length := by
  intro c hc
  exact ((h.least c).mp hc).2.1.count_le

theorem tracked_start (herr : sc.boundaryError = none)
    (hother : ∀ last, sc.boundaries.getLast? = some last → last.chunkId ≠ some id)
    (hindex : b.sliceIndex id = []) : Tracked cx id [] sc b := by
  have hlive : liveBoundaries id sc = [] := by
    unfold liveBoundaries
    split
    · rfl
    · next last hl => exact if_neg (hother last hl)
  refine ⟨hindex, forall_mem_nil _, herr, ?_, ?_, ?_⟩
  · rw [hlive]
    exact List.Pairwise.nil
  · intro c
    rw [hlive]
    refine ⟨(nomatch ·), ?_⟩
    rintro ⟨-, ⟨before, after, p₀, h, -⟩, -⟩
    exact absurd h (by simp)
  · intro vp _
    rw [hlive]
    refine ⟨[], rfl, forall_mem_nil _, fun objects q => ?_⟩
    exact (ite_self _).symm

theorem Tracked.append (h : Tracked cx id es sc b) (hr : validateRecord r cx.chunkSize = .ok ())
    (hindex : b'.sliceIndex id = b.sliceIndex id ++ [r]) :
    Tracked cx id (es ++ [.append r]) sc b' := by
  obtain ⟨hlen, hend, h0, h1⟩ := validateRecord_ok_iff.mp hr
  rw [h.index] at hindex
  refine ⟨hindex.trans (appendedRecords_append es r).symm, ?_, h.noError, h.ordered, ?_, ?_⟩
  · rw [appendedRecords_append]
    intro x hx
    rcases mem_append.mp hx with hx | hx
    · exact h.valid x hx
    · obtain rfl := mem_singleton.mp hx
      exact hr
  · intro c
    simp only [capturedAt_append]
    exact h.least c
  · intro vp hvp
    obtain ⟨out, hout, hprops, hval⟩ := h.clipped vp hvp
    have hskip : takeBoundaries ((appendedRecords es).reverse.length + 1)
        (liveBoundaries id sc).reverse vp = (vp, (liveBoundaries id sc).reverse) := by
      refine takeBoundaries_skip fun c hc => ?_
      have := h.count_le c (mem_reverse.mp hc)
      rw [length_reverse]
      omega
    have hold : ∀ x ∈ out, validateRecord x cx.chunkSize = .ok () ∧
        ∃ r₀ ∈ appendedRecords es ++ [r], r₀.id = x.id ∧ r₀.size = x.size := by
      intro x hx
      obtain ⟨hv, r₀, hr₀, heq⟩ := hprops x hx
      exact ⟨hv, r₀, mem_append_left _ hr₀, heq⟩
    rw [appendedRecords_append, reverse_append, reverse_singleton, singleton_append]
    rw [sanitizeNewest_cons hskip, hr, hout]
    dsimp only [bind, Except.bind]
    by_cases hcut : vp ≤ r.pos
    · rw [if_pos hcut]
      refine ⟨out, rfl, hold, fun objects q => ?_⟩
      rw [hval, replay_concat]
      by_cases hq : q < vp
      · rw [if_pos hq, if_pos hq, replayStep, recordAt_of_not_covers]
        · rfl
        · unfold SliceRecord.Covers
          omega
      · rw [if_neg hq, if_neg hq]
    · rw [if_neg hcut]
      refine ⟨{ r with len := min r.len (vp - r.pos) } :: out, rfl, ?_, fun objects q => ?_⟩
      · refine forall_mem_cons.mpr ⟨⟨?_, r, by simp, rfl, rfl⟩, hold⟩
        refine validateRecord_ok_iff.mpr ⟨?_, ?_, h0, fun hne => ?_⟩
        · show 0 < min r.len (vp - r.pos)
          omega
        · show r.pos + min r.len (vp - r.pos) ≤ cx.chunkSize
          omega
        · have := h1 hne
          refine ⟨this.1, ?_⟩
          show r.off + min r.len (vp - r.pos) ≤ r.size
          omega
      · rw [reverse_cons, resolveAt_concat, recordAt_clipped, hval, replay_concat]
        by_cases hq : q < vp
        · rw [if_pos hq, if_pos hq, if_pos hq]
          rfl
        · rw [if_neg hq, if_neg hq, if_neg hq]
          rfl

theorem sanitizeNewest_merged (live : List BoundaryClamp) (records : List SliceRecord)
    (cs p vp : Nat) :
    sanitizeNewest cs records.reverse (mergeBoundary id p records.length live).reverse vp =
      sanitizeNewest cs records.reverse live.reverse (min vp p) := by
  have htake : ∀ (c : BoundaryClamp) {bs : List BoundaryClamp} {v : Nat},
      records.length ≤ c.recordCount → sanitizeNewest cs records.reverse (c :: bs) v =
        sanitizeNewest cs records.reverse bs (min v c.visiblePrefix) := by
    intro c bs v hc
    exact sanitizeNewest_take (by simpa using hc)
  unfold mergeBoundary
  split
  · next hl =>
    rw [getLast?_eq_none_iff.mp hl]
    exact htake _ (Nat.le_refl _)
  · next last hl =>
    have happ := dropLast_append_getLast? last hl
    split
    · next heq =>
      -- 同じ数で捕えた境界は、まとめても順に効かせても同じである
      rw [reverse_append, reverse_singleton, singleton_append,
        htake { last with visiblePrefix := min p last.visiblePrefix } (Nat.le_of_eq heq)]
      conv_rhs => rw [← happ, reverse_append, reverse_singleton, singleton_append,
        htake last (Nat.le_of_eq heq)]
      rw [Nat.min_assoc]
    · rw [reverse_append, reverse_singleton, singleton_append,
        htake _ (Nat.le_refl _)]

theorem mem_mergeBoundary {p count : Nat}
    (hid : ∀ c ∈ live, c.chunkId = some id) (hcount : ∀ c ∈ live, c.recordCount ≤ count)
    (hord : live.Pairwise fun c c' => c.recordCount < c'.recordCount) :
    (mergeBoundary id p count live).Pairwise (fun c c' => c.recordCount < c'.recordCount) ∧
      ∀ c, c ∈ mergeBoundary id p count live ↔
        (c ∈ live ∧ c.recordCount ≠ count) ∨ (c.chunkId = some id ∧ c.recordCount = count ∧
          ((∃ o ∈ live, o.recordCount = count ∧ c.visiblePrefix = min p o.visiblePrefix) ∨
            (∀ o ∈ live, o.recordCount ≠ count) ∧ c.visiblePrefix = p)) := by
  have hclamp : ∀ c : BoundaryClamp, c.chunkId = some id → c.recordCount = count →
      c.visiblePrefix = p → c = ⟨p, some id, count⟩ := by
    rintro ⟨_, _, _⟩ rfl rfl rfl
    rfl
  unfold mergeBoundary
  split
  · next hl =>
    obtain rfl := getLast?_eq_none_iff.mp hl
    refine ⟨pairwise_singleton .., fun c => ?_⟩
    rw [mem_singleton]
    constructor
    · rintro rfl
      exact .inr ⟨rfl, rfl, .inr ⟨forall_mem_nil _, rfl⟩⟩
    · rintro (⟨h, -⟩ | ⟨hc, hn, ⟨_, h, -⟩ | ⟨-, hp⟩⟩)
      · cases h
      · cases h
      · exact hclamp c hc hn hp
  · next last hl =>
    have happ := dropLast_append_getLast? last hl
    have hlast : last ∈ live := mem_of_getLast? hl
    rw [← happ] at hord
    obtain ⟨hinit, -, hbefore⟩ := pairwise_append.mp hord
    have hinitlt : ∀ c ∈ live.dropLast, c.recordCount < last.recordCount :=
      fun c hc => hbefore c hc last (mem_singleton_self _)
    have hmem : ∀ c, c ∈ live ↔ c ∈ live.dropLast ∨ c = last := by
      intro c
      conv_lhs => rw [← happ]
      simp
    split
    · next heq =>
      refine ⟨pairwise_append.mpr ⟨hinit, pairwise_singleton .., fun c hc c' hc' => ?_⟩,
        fun c => ?_⟩
      · obtain rfl := mem_singleton.mp hc'
        exact hinitlt c hc
      · rw [mem_append, mem_singleton]
        constructor
        · rintro (hc | rfl)
          · have := hinitlt c hc
            exact .inl ⟨(hmem c).mpr (.inl hc), by omega⟩
          · exact .inr ⟨hid last hlast, heq.symm, .inl ⟨last, hlast, heq.symm, rfl⟩⟩
        · rintro (⟨hc, hne⟩ | ⟨hcid, hn, ⟨o, ho, hon, hp⟩ | ⟨hno, -⟩⟩)
          · rcases (hmem c).mp hc with hc | rfl
            · exact .inl hc
            · exact absurd heq.symm hne
          · refine .inr ?_
            rcases (hmem o).mp ho with ho | rfl
            · have := hinitlt o ho
              omega
            · obtain ⟨vp, cid, n⟩ := c
              have hoid := hid o hlast
              dsimp only at hcid hn hp
              rw [hcid, hn, hp, hoid, heq]
          · exact absurd heq.symm (hno last hlast)
    · next hne =>
      have hlt : ∀ o ∈ live, o.recordCount < count := by
        intro o ho
        have hle := hcount last hlast
        rcases (hmem o).mp ho with h | rfl
        · have := hinitlt o h
          omega
        · omega
      refine ⟨pairwise_append.mpr ⟨happ ▸ hord, pairwise_singleton .., fun c hc c' hc' => ?_⟩,
        fun c => ?_⟩
      · obtain rfl := mem_singleton.mp hc'
        exact hlt c hc
      · rw [mem_append, mem_singleton]
        constructor
        · rintro (hc | rfl)
          · exact .inl ⟨hc, (hlt c hc).ne⟩
          · exact .inr ⟨rfl, rfl, .inr ⟨fun o ho => (hlt o ho).ne, rfl⟩⟩
        · rintro (⟨hc, -⟩ | ⟨hcid, hn, ⟨o, ho, hon, -⟩ | ⟨-, hp⟩⟩)
          · exact .inl hc
          · exact absurd hon (hlt o ho).ne
          · exact .inr (hclamp c hcid hn hp)

theorem Tracked.liveID (h : Tracked cx id es sc b) :
    ∀ c ∈ liveBoundaries id sc, c.chunkId = some id := fun c hc => ((h.least c).mp hc).1

theorem isLeast_capture :
    IsLeast {x | CapturedAt cs (es ++ [.capture p]) n x} v ↔
      ((appendedRecords es).length ≠ n ∧ IsLeast {x | CapturedAt cs es n x} v) ∨
      ((appendedRecords es).length = n ∧
        ((∃ o, IsLeast {x | CapturedAt cs es n x} o ∧ v = min (min p cs) o) ∨
          (∀ x, ¬ CapturedAt cs es n x) ∧ v = min p cs)) := by
  simp only [capturedAt_capture]
  by_cases hn : (appendedRecords es).length = n
  · simp only [hn, ne_eq, not_true_eq_false, false_and, false_or, true_and]
    have hset : {x | CapturedAt cs es n x ∨ x = min p cs} =
        insert (min p cs) {x | CapturedAt cs es n x} := by
      ext x
      simp [or_comm]
    rw [hset]
    by_cases hex : ∃ x, CapturedAt cs es n x
    · obtain ⟨x, hx⟩ := hex
      obtain ⟨o, ho⟩ := hx.exists_isLeast
      have hins : IsLeast (insert (min p cs) {x | CapturedAt cs es n x}) (min (min p cs) o) :=
        ho.insert _
      constructor
      · intro hv
        exact .inl ⟨o, ho, hv.unique hins⟩
      · rintro (⟨o', ho', rfl⟩ | ⟨hno, -⟩)
        · rw [ho'.unique ho]
          exact hins
        · exact absurd hx (hno x)
    · have hnone : ∀ x, ¬ CapturedAt cs es n x := fun x hx => hex ⟨x, hx⟩
      have hempty : {x | CapturedAt cs es n x} = ∅ := Set.eq_empty_of_forall_notMem hnone
      rw [hempty, insert_empty_eq]
      constructor
      · intro hv
        exact .inr ⟨hnone, hv.unique isLeast_singleton⟩
      · rintro (⟨o, ho, -⟩ | ⟨-, rfl⟩)
        · cases ho.1
        · exact isLeast_singleton
  · simp only [hn, false_and, or_false, ne_eq, not_false_eq_true, true_and]

theorem Tracked.capture (h : Tracked cx id es sc b) (p : Nat) :
    Tracked cx id (es ++ [.capture p])
      (sc.addBoundary cx p (some id) (appendedRecords es).length) b := by
  have hadd := addBoundary_eq cx p h.count_le
  obtain ⟨hord, hmem⟩ := mem_mergeBoundary (p := min p cx.chunkSize) h.liveID h.count_le h.ordered
  have hlive := liveBoundaries_merged h.liveID
    (congrArg SliceChunk.boundaries hadd)
  refine ⟨h.index.trans (appendedRecords_capture es p).symm, ?_, ?_, ?_, ?_, ?_⟩
  · rw [appendedRecords_capture]
    exact h.valid
  · rw [hadd]
  · rw [hlive]
    exact hord
  · intro c
    rw [hlive, hmem, isLeast_capture]
    -- 境界の一つ一つは、これまでの最小である
    have hlift : ∀ v, IsLeast {x | CapturedAt cx.chunkSize es c.recordCount x} v ↔
        (⟨v, some id, c.recordCount⟩ : BoundaryClamp) ∈ liveBoundaries id sc := by
      intro v
      rw [h.least]
      exact (and_iff_right rfl).symm
    have hself : c.chunkId = some id → c = ⟨c.visiblePrefix, some id, c.recordCount⟩ := by
      intro hc
      obtain ⟨v, cid, n⟩ := c
      dsimp only at hc
      rw [hc]
    constructor
    · rintro (⟨hc, hne⟩ | ⟨hcid, hn, ho⟩)
      · have hcid := h.liveID c hc
        refine ⟨hcid, .inl ⟨fun hh => hne hh.symm, (hlift _).mpr ?_⟩⟩
        rw [← hself hcid]
        exact hc
      · refine ⟨hcid, .inr ⟨hn.symm, ?_⟩⟩
        rcases ho with ⟨o, ho, hon, hv⟩ | ⟨hno, hv⟩
        · refine .inl ⟨o.visiblePrefix, ?_, hv⟩
          rw [hn, ← hon]
          exact ((h.least o).mp ho).2
        · refine .inr ⟨fun x hx => ?_, hv⟩
          obtain ⟨o, ho⟩ := hx.exists_isLeast
          exact hno _ ((hlift o).mp ho) hn
    · rintro ⟨hcid, ⟨hne, hl⟩ | ⟨hn, ho⟩⟩
      · refine .inl ⟨?_, fun hh => hne hh.symm⟩
        rw [hself hcid]
        exact (hlift _).mp hl
      · refine .inr ⟨hcid, hn.symm, ?_⟩
        rcases ho with ⟨o, ho, hv⟩ | ⟨hno, hv⟩
        · exact .inl ⟨_, (hlift o).mp ho, hn.symm, hv⟩
        · refine .inr ⟨fun o ho hon => ?_, hv⟩
          have := ((h.least o).mp ho).2.1
          rw [hon, hn] at this
          exact hno _ this
  · intro vp hvp
    rw [appendedRecords_capture, hlive, sanitizeNewest_merged]
    obtain ⟨out, hout, hprops, hval⟩ := h.clipped (min vp (min p cx.chunkSize)) (by omega)
    refine ⟨out, hout, hprops, fun objects q => ?_⟩
    rw [hval, replay_concat, replayStep]
    by_cases hq : q < vp
    · by_cases hp : q < p
      · rw [if_pos (by omega), if_pos hq, if_pos hp]
      · rw [if_neg (by omega), if_pos hq, if_neg hp]
    · rw [if_neg (by omega), if_neg hq]

theorem History.tracked (h : History cx ino id es sc b) : Tracked cx id es sc b := by
  induction h with
  | start sc b herr hother hindex => exact tracked_start herr hother hindex
  | append r _ hr hindex ih => exact ih.append hr hindex
  | capture p _ hfile hid hindex hcs ih =>
    rw [captureBoundary_run p hfile hid hindex (fun r hr => ih.valid r (ih.index ▸ hr)) hcs, ih.index]
    exact ih.capture p
  | @other es sc sc' b b' _ hi hb he hindex ih =>
    have hlive : liveBoundaries id sc' = liveBoundaries id sc := by
      unfold liveBoundaries
      rw [hb]
    refine ⟨hindex.trans ih.index, ih.valid, he.trans ih.noError, ?_, ?_, ?_⟩ <;> rw [hlive]
    · exact ih.ordered
    · exact ih.least
    · exact ih.clipped

/-! ## 読み出し -/

/-- record の object が揃っている。object は record の言う大きさを持つ -/
def IndexStored (b : Backend) (records : List SliceRecord) : Prop :=
  ∀ r ∈ records, r.id ≠ 0 → ∃ bytes, b.objects (.slice r.id) = some bytes ∧ r.size ≤ bytes.length

theorem Tracked.committedSpans (h : Tracked cx id es sc b) (hcs : 0 < cx.chunkSize)
    (hst : IndexStored b (b.sliceIndex id)) (hn : offset + n ≤ cx.chunkSize) :
    ∃ spans records, Slice.committedSpans cx.chunkSize sc.boundaries id (b.sliceIndex id) offset n =
        .ok spans ∧
      SpansFor (sliceObjects b) records (fun q => offset ≤ q ∧ q < offset + n)
        (replay (sliceObjects b) es) spans ∧
      (∀ s ∈ spans, 0 < s.len) ∧ ObjectsStored b records := by
  obtain ⟨out, hout, hprops, hval⟩ := h.clipped cx.chunkSize (Nat.le_refl _)
  have hspans : Slice.committedSpans cx.chunkSize sc.boundaries id (b.sliceIndex id) offset n =
      resolveRange out.reverse cx.chunkSize offset n := by
    have hraw : liveBoundaries id sc = [] → out.reverse = b.sliceIndex id := by
      intro hlive
      rw [hlive, reverse_nil,
        sanitizeNewest_nil fun r hr => h.valid r (mem_reverse.mp hr)] at hout
      obtain rfl := Except.ok.inj hout
      rw [reverse_reverse, h.index]
    unfold Slice.committedSpans
    cases hl : sc.boundaries.getLast? with
    | none => rw [hraw (by simp [liveBoundaries, hl])]
    | some last =>
      by_cases hid : last.chunkId = some id
      · have hlive : liveBoundaries id sc = sc.boundaries := by simp [liveBoundaries, hl, hid]
        have hle := h.count_le last (hlive ▸ mem_of_getLast? hl)
        rw [h.index]
        rw [hlive] at hout
        dsimp only
        rw [if_pos hid, Result.failIf_ok_iff (u := ()) |>.mpr (by omega)]
        dsimp only [bind, Except.bind]
        rw [hout]
      · dsimp only
        rw [if_neg hid, hraw (by simp [liveBoundaries, hl, hid])]
  have hvalid : ∀ r ∈ out.reverse, validateRecord r cx.chunkSize = .ok () :=
    fun r hr => (hprops r (mem_reverse.mp hr)).1
  obtain ⟨spans, hok, hfor, -⟩ := resolveRange_spec (sliceObjects b) hcs hn hvalid
  refine ⟨spans, out.reverse, hspans.trans hok, ⟨hfor.inside, ?_, hfor.cover, hfor.within⟩,
    (resolveRange_coalesced ⟨hcs, hn, hvalid⟩ hok).2.2, ?_⟩
  · intro s hs q hq
    have hlt := (hfor.inside s hs q hq).2
    rw [hfor.value s hs q hq, hval, if_pos (by omega)]
  · intro r hr h0
    obtain ⟨hv, r₀, hr₀, hid, hsize⟩ := hprops r (mem_reverse.mp hr)
    obtain ⟨bytes, hbytes, hlen⟩ := hst r₀ (h.index ▸ hr₀) (hid ▸ h0)
    have hobj := (validateRecord_ok_iff.mp hv).2.2.2 h0
    exact ⟨bytes, hid ▸ hbytes, by omega⟩

theorem calculateChunkStartOffset_of_lt (hcs : 0 < cs) (hsize : size ≤ kMaxSupportedFileSize)
    (hq : q < sizeAtEof index cs size) : calculateChunkStartOffset index cs = .ok (index * cs) := by
  refine calculateChunkStartOffset_ok_iff.mpr ⟨hcs, ?_, rfl⟩
  unfold sizeAtEof at hq
  split at hq <;> omega

section

variable (h : History cx ino id es sc b) {file : FileChunkSnapshot}
  (hfile : SnapshotOf cx.chunkSize b.redis ino sc.index file) (hid : file.chunkId = some id)
  (hindex : b.sliceIndex id ≠ []) {offset len : Nat}
  (heof : offset < sizeAtEof sc.index cx.chunkSize file.inode.attr.size)
include h hfile hid hindex heof

theorem History.reads_metadata :
    Reads (ofResult (match sc.boundaryError with
      | some e => .error e
      | none => .ok ())) b (.ok ()) ∧
    Reads (readSnapshot cx ino sc.index) b (.ok file) ∧
    (∀ msg, Reads (readMappedRecords cx id msg) b (.ok (b.sliceIndex id))) ∧
    Reads (ofResult (calculateChunkStartOffset sc.index cx.chunkSize)) b
      (.ok (sc.index * cx.chunkSize)) := by
  have ht := h.tracked
  refine ⟨?_, .query ⟨readFileChunkSnapshot_ok_iff.mpr hfile, rfl⟩,
    fun _ => ?_, ?_⟩
  · rw [ht.noError]
    exact reads_ofResult _
  · exact readMappedRecords_reads (hfile.valid id hid) hindex fun r hr => ht.valid r (ht.index ▸ hr)
  · rw [calculateChunkStartOffset_of_lt hfile.chunkSize hfile.bounded heof]
    exact reads_ofResult _

variable (hu32 : cx.chunkSize ≤ kMaxU32) (hst : IndexStored b (b.sliceIndex id)) (hlen0 : len ≠ 0)
  (hrange : offset + len ≤ cx.chunkSize)
include hu32 hst hlen0 hrange

/-- `ReadCommittedRange` は、EOF より前では再生の結果を、EOF 以降では零を返す -/
theorem readCommittedRange_reads :
    ∃ bytes, Reads (sc.readCommittedRange cx ino offset len) b (.ok bytes) ∧ bytes.length = len ∧
      ∀ i < len, bytes.getD i 0 =
        if offset + i < sizeAtEof sc.index cx.chunkSize file.inode.attr.size then
          replay (sliceObjects b) es (offset + i) else 0 := by
  obtain ⟨hnoError, hsnap, hrecords, hstart⟩ := h.reads_metadata hfile hid hindex heof
  generalize heofdef : sizeAtEof sc.index cx.chunkSize file.inode.attr.size = atEof at heof
  have hlast : offset + min len (atEof - offset) ≤ cx.chunkSize := by omega
  obtain ⟨spans, records, hspans, hfor, hpos, hobj⟩ :=
    h.tracked.committedSpans hfile.chunkSize hst hlast
  obtain ⟨out, hout, hol, hov⟩ := hfor.fetch (Nat.min_le_left _ _) hpos (hfor.stored hobj) []
    "SliceChunk::ReadCommittedRange: short object range"
  have hread : Reads (sc.readCommittedRange cx ino offset len) b (.ok out) := by
    unfold SliceChunk.readCommittedRange
    refine (reads_failIf (by omega)).bind ((reads_failIf (by omega)).bind ?_)
    rw [if_neg hlen0]
    refine hnoError.bind (hsnap.bind ?_)
    rw [hid]
    refine (hrecords _).bind (hstart.bind ?_)
    dsimp only
    rw [heofdef, if_neg (by omega), hspans]
    exact (reads_ofResult _).bind hout
  refine ⟨out, hread, hol, fun i hi => ?_⟩
  obtain ⟨hin, hout⟩ := hov i (by rintro ⟨o, ho, -⟩; cases ho)
  split
  · exact hin (by omega)
  · exact hout (by omega)

/-- `Read` は、手元の書き込みに覆われない位置に `ReadCommittedRange` と同じ byte を返す -/
theorem read_reads :
    ∃ out, Reads (sc.read cx ino offset len) b (.ok ((overlaysIn sc.dirty offset len).foldl
        (fun buf o => overwrite buf o.1 o.2) out)) ∧ out.length = len ∧
      ∀ i < len, rangesAt sc.dirty (offset + i) = none → out.getD i 0 =
        if offset + i < sizeAtEof sc.index cx.chunkSize file.inode.attr.size then
          replay (sliceObjects b) es (offset + i) else 0 := by
  obtain ⟨hnoError, hsnap, hrecords, hstart⟩ := h.reads_metadata hfile hid hindex heof
  generalize heofdef : sizeAtEof sc.index cx.chunkSize file.inode.attr.size = atEof at heof
  have hlast : offset + min len (atEof - offset) ≤ cx.chunkSize := by omega
  obtain ⟨spans, records, hspans, hfor, hpos, hobj⟩ :=
    h.tracked.committedSpans hfile.chunkSize hst hlast
  obtain ⟨out, hout, hol, hov⟩ := hfor.fetch (Nat.min_le_left _ _) hpos (hfor.stored hobj)
    (overlaysIn sc.dirty offset len) "SliceChunk::Read: short object range"
  have hread : Reads (sc.read cx ino offset len) b (.ok ((overlaysIn sc.dirty offset len).foldl
      (fun buf o => overwrite buf o.1 o.2) out)) := by
    unfold SliceChunk.read
    refine (reads_failIf (by omega)).bind ?_
    rw [if_neg hlen0]
    refine hnoError.bind (hsnap.bind ?_)
    rw [hid]
    refine (reads_failIf (by omega)).bind ((hrecords _).bind (hstart.bind ?_))
    dsimp only
    rw [heofdef, if_pos (by omega), hspans]
    exact (reads_ofResult _).bind (hout.bind (reads_pure _))
  refine ⟨out, hread, hol, fun i hi hclean => ?_⟩
  obtain ⟨hin, hout⟩ := hov i ((overlaysIn_spec sc.dirty offset len).2 _ hclean)
  split
  · exact hin (by omega)
  · exact hout (by omega)

end

/--
保持した境界の下で読む byte は、出来事を順に再生した結果である。

手元の書き込みに覆われない位置については `Read` が、どの位置についても `ReadCommittedRange` が、
EOF より前の byte を再生の結果のとおりに返す。捕捉があったなら、session の境界は record の数の順に
一つずつ並び、それぞれその数で捕えたものの最小であって、以前の ChunkID のものは残らない。
-/
theorem boundary_clamps_replay (h : History cx ino id es sc b) (hu32 : cx.chunkSize ≤ kMaxU32)
    {file : FileChunkSnapshot} (hfile : SnapshotOf cx.chunkSize b.redis ino sc.index file)
    (hid : file.chunkId = some id) (hindex : b.sliceIndex id ≠ [])
    (hst : IndexStored b (b.sliceIndex id)) :
    (∀ offset len q, offset ≤ q → q < offset + len → offset + len ≤ cx.chunkSize →
      q < sizeAtEof sc.index cx.chunkSize file.inode.attr.size →
      (rangesAt sc.dirty q = none → ∃ bytes, Reads (sc.read cx ino offset len) b (.ok bytes) ∧
        bytes.getD (q - offset) 0 = replay (sliceObjects b) es q) ∧
      ∃ bytes, Reads (sc.readCommittedRange cx ino offset len) b (.ok bytes) ∧
        bytes.getD (q - offset) 0 = replay (sliceObjects b) es q) ∧
    ((∃ p, .capture p ∈ es) →
      sc.boundaries.Pairwise (fun c c' => c.recordCount < c'.recordCount) ∧
      ∀ c, c ∈ sc.boundaries ↔ c.chunkId = some id ∧
        IsLeast {p | CapturedAt cx.chunkSize es c.recordCount p} c.visiblePrefix) := by
  have ht := h.tracked
  constructor
  · intro offset len q hlo hhi hrange heof
    have hidx : offset + (q - offset) = q := by omega
    constructor
    · intro hclean
      obtain ⟨hsmall, hnot⟩ := overlaysIn_spec sc.dirty offset len
      obtain ⟨out, hread, hlen, hov⟩ :=
        read_reads h hfile hid hindex (by omega) hu32 hst (by omega) hrange
      refine ⟨_, hread, ?_⟩
      rw [applyOverlays_getD (fun o ho => (hsmall o ho).trans hlen.ge) _ (hidx.symm ▸ hnot q hclean),
        hov _ (by omega) (hidx.symm ▸ hclean), hidx, if_pos heof]
    · obtain ⟨out, hread, -, hov⟩ :=
        readCommittedRange_reads h hfile hid hindex (by omega) hu32 hst (by omega) hrange
      refine ⟨out, hread, ?_⟩
      rw [hov (q - offset) (by omega), hidx, if_pos heof]
  · rintro ⟨p, hp⟩
    obtain ⟨before, after, rfl⟩ := append_of_mem hp
    -- 捕捉があれば、効いている境界は空でなく、session の境界そのものである
    have hcap : CapturedAt cx.chunkSize (before ++ .capture p :: after)
        (appendedRecords before).length (min p cx.chunkSize) := ⟨before, after, p, rfl, rfl, rfl⟩
    obtain ⟨v, hv⟩ := hcap.exists_isLeast
    have hmem := (ht.least ⟨v, some id, (appendedRecords before).length⟩).mpr ⟨rfl, hv⟩
    have hlive : liveBoundaries id sc = sc.boundaries := by
      unfold liveBoundaries at hmem ⊢
      split
      · next hl => rw [hl] at hmem; cases hmem
      · next last hl =>
        rw [hl] at hmem
        split
        · rfl
        · next hne => simp [hne] at hmem
    exact ⟨hlive ▸ ht.ordered, hlive ▸ ht.least⟩

end

/-! ## 例 -/

/-- 大きさ 8 の file の位置 0 に ChunkID 1 が取り付けられ、二つの record を持つ -/
def clampedFile : SwordFsInode :=
  { emptyFile 2 with attr := { (emptyFile 2).attr with size := 8 } }

def clampedBackend (records : List SliceRecord) : Backend where
  redis := (KvCmd.hsetChunkRef 2 0 1).apply ((KvCmd.setInode clampedFile).apply (emptyFileStore 2))
  objects
    | .slice 1 => some [1, 2, 3, 4]
    | .slice 2 => some [9]
    | _ => none
  sliceIndex := fun id => if id = 1 then records else []
  cowHead := fun _ => none
  cowRevision := fun _ => 0
  nextChunkID := 1
  nextSliceID := 2
  chunkOwner := fun _ => none
  sliceOwner := fun _ => none

def clampedSnapshot : FileChunkSnapshot := ⟨clampedFile, some 1, none⟩

/-- `[1, 2, 3, 4]` を書き、`2` で切り、`3` に `9` を書く -/
def clampedEvents : List Event :=
  [.append ⟨0, 1, 4, 0, 4⟩, .capture 2, .append ⟨3, 2, 1, 0, 1⟩]

def noFaults : Nat → Choice Answer := fun _ => ⟨0, fun _ => ⟨.none, 0⟩⟩

def clampedSession : SliceChunk :=
  (Prog.exec (captureBoundary ⟨8, .chunkSlice, 0⟩ 2 0 2) noFaults
    ({ index := 0 }, clampedBackend [⟨0, 1, 4, 0, 4⟩])).2.1

theorem clampedSnapshot_of (records : List SliceRecord) :
    SnapshotOf 8 (clampedBackend records).redis 2 0 clampedSnapshot :=
  readFileChunkSnapshot_ok_iff.mp (show readFileChunkSnapshot 8 (clampedBackend []).redis 2 0 =
    .ok clampedSnapshot from rfl)

theorem clampedHistory : History ⟨8, .chunkSlice, 0⟩ 2 1 clampedEvents clampedSession
    (clampedBackend [⟨0, 1, 4, 0, 4⟩, ⟨3, 2, 1, 0, 1⟩]) := by
  have h0 : History ⟨8, .chunkSlice, 0⟩ 2 1 [] { index := 0 } (clampedBackend []) :=
    .start _ _ rfl (fun _ h => nomatch h) rfl
  have h1 : History ⟨8, .chunkSlice, 0⟩ 2 1 [.append ⟨0, 1, 4, 0, 4⟩] { index := 0 }
      (clampedBackend [⟨0, 1, 4, 0, 4⟩]) := h0.append ⟨0, 1, 4, 0, 4⟩ rfl rfl
  have hans : ∀ n, (noFaults n).Within Answer.NoFault := fun _ _ => rfl
  have h2 := h1.capture 2 (clampedSnapshot_of _) rfl (by decide) hans
  exact h2.append ⟨3, 2, 1, 0, 1⟩ rfl rfl

/-- 切った後の位置 `2` は零で、後から書いた位置 `3` は切られない -/
theorem boundary_clamps_replay_example :
    (∃ bytes, Reads (clampedSession.read ⟨8, .chunkSlice, 0⟩ 2 0 8)
        (clampedBackend [⟨0, 1, 4, 0, 4⟩, ⟨3, 2, 1, 0, 1⟩]) (.ok bytes) ∧ bytes.getD 2 0 = 0) ∧
      ∃ bytes, Reads (clampedSession.read ⟨8, .chunkSlice, 0⟩ 2 0 8)
        (clampedBackend [⟨0, 1, 4, 0, 4⟩, ⟨3, 2, 1, 0, 1⟩]) (.ok bytes) ∧ bytes.getD 3 0 = 9 := by
  have hst : IndexStored (clampedBackend [⟨0, 1, 4, 0, 4⟩, ⟨3, 2, 1, 0, 1⟩])
      [⟨0, 1, 4, 0, 4⟩, ⟨3, 2, 1, 0, 1⟩] := by
    intro r hr _
    simp only [mem_cons, not_mem_nil, or_false] at hr
    rcases hr with rfl | rfl
    · exact ⟨_, rfl, by decide⟩
    · exact ⟨_, rfl, by decide⟩
  have h := (boundary_clamps_replay clampedHistory (by decide) (clampedSnapshot_of _) rfl
    (by decide) hst).1
  exact ⟨(h 0 8 2 (by decide) (by decide) (by decide) (by decide +kernel)).1 (by decide +kernel),
    (h 0 8 3 (by decide) (by decide) (by decide) (by decide +kernel)).1 (by decide +kernel)⟩

end SwordFS.Chunk.Slice
