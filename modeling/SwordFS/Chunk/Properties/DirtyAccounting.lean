import Mathlib.Data.Finset.Sort
import SwordFS.Chunk.Properties.WindowGroups

/-!
# 手元の書き込みの勘定

`AcceptWrite` と `ClipRanges` をどう重ねても区間は接さず、返り値は新しく覆った byte の数である。
よって `active_bytes_` は `active_` の大きさに等しい。
-/

namespace SwordFS.Chunk.Slice

open List Infra Metadata

/-! ## 接しない区間 -/

/-- 隣の区間との間に、一 byte 以上の隙間がある -/
def Separated (ranges : DirtyRanges) : Prop := ranges.Pairwise fun a b => rangeEnd a < b.1

def totalBytes (ranges : DirtyRanges) : Nat := (ranges.map (·.2.length)).sum

section

variable {limit offset : Nat} {before previous after ranges : DirtyRanges} {bytes : Bytes}

theorem totalBytes_append (as bs : DirtyRanges) :
    totalBytes (as ++ bs) = totalBytes as + totalBytes bs := by
  simp [totalBytes]

theorem totalBytes_cons (r : Nat × Bytes) (rs : DirtyRanges) :
    totalBytes (r :: rs) = r.2.length + totalBytes rs := by
  simp [totalBytes]

theorem RangesWf.mono (h : RangesWf limit ranges) (hle : limit ≤ limit') : RangesWf limit' ranges :=
  ⟨h.sorted, h.nonempty, fun r hr => (h.bounded r hr).trans hle⟩

/--
一度の書き込みの形。接する区間 `previous` を、範囲の等しい一つの区間 `m` に置き換える。
`fresh` は返り値である。
-/
structure Merges (ranges result : DirtyRanges) (fresh : Nat) (before : DirtyRanges)
    (m : Nat × Bytes) (previous after : DirtyRanges) : Prop where
  old : ranges = before ++ (previous ++ after)
  new : result = before ++ m :: after
  fresh : fresh = m.2.length - totalBytes previous
  before_lt : ∀ r ∈ before, rangeEnd r < m.1
  lt_after : ∀ r ∈ after, rangeEnd m < r.1

theorem Merges.separated {fresh : Nat} (h : Merges ranges result fresh before m previous after)
    (hs : Separated ranges) : Separated result := by
  obtain ⟨rfl, rfl, -, hbefore, hafter⟩ := h
  obtain ⟨hb, hpa, hcross⟩ := pairwise_append.mp hs
  refine pairwise_append.mpr ⟨hb, pairwise_cons.mpr
    ⟨hafter, (pairwise_append.mp hpa).2.1⟩, fun a ha b hb => ?_⟩
  rcases mem_cons.mp hb with rfl | hb
  · exact hbefore a ha
  · exact hcross a ha b (mem_append_right _ hb)

theorem mergeWrite_merges (hw : RangesWf limit ranges) (hs : Separated (before ++ ranges))
    (hne : bytes ≠ []) (hbefore : ∀ r ∈ before, rangeEnd r < offset) :
    ∃ kept m previous after, Merges (before ++ ranges) (mergeWrite before ranges offset bytes).1
      (mergeWrite before ranges offset bytes).2 kept m previous after := by
  have hlen := length_pos_iff.mpr hne
  have h := absorb_spec offset (offset + bytes.length) (by omega) hw
  unfold mergeWrite
  generalize absorb offset (offset + bytes.length) ranges = parts at h
  obtain ⟨kept, ⟨s, e⟩, previous, rest⟩ := parts
  simp only at h ⊢
  obtain rfl := h.split
  obtain ⟨hwk, hwpr, -⟩ := rangesWf_append.mp hw
  obtain ⟨-, hsr, hcross⟩ := pairwise_append.mp hs
  have hstart := h.start_le
  have hstop := h.le_stop
  have hflen := (fill_getElem? (List.replicate (e - s) 0) (rangesWf_append.mp hwpr).1.sorted
    h.inside (by simp) 0).2
  rw [length_replicate] at hflen
  have hmlen : (overwrite (previous.foldl (fun buf r => overwrite buf (r.1 - s) r.2)
      (List.replicate (e - s) 0)) (offset - s) bytes).length = e - s := by
    rw [overwrite_length_of_le (by omega), hflen]
  -- 併合した範囲は、書き込みか、併合した区間の一つから始まる
  have hfirst : s = offset ∨ ∃ r ∈ previous, r.1 = s := by
    rcases h.covered s (Nat.le_refl s) (by omega) with ⟨hle, -⟩ | ⟨r, hr, hle, -⟩
    · exact .inl (Nat.le_antisymm hstart hle)
    · exact .inr ⟨r, hr, Nat.le_antisymm hle (h.inside r hr).1⟩
  refine ⟨before ++ kept, _, previous, rest, by simp, rfl, rfl, fun r hr => ?_, fun r hr => ?_⟩
  · rcases hfirst with hs' | ⟨x, hx, hs'⟩
    · rcases mem_append.mp hr with hr | hr
      · exact hs' ▸ hbefore r hr
      · exact hs' ▸ h.kept_lt r hr
    · rcases mem_append.mp hr with hr | hr
      · exact hs' ▸ hcross r hr x (by simp [hx])
      · exact hs' ▸ (pairwise_append.mp hsr).2.2 r hr x (mem_append_left _ hx)
  · have := h.lt_rest r hr
    simp only [rangeEnd, hmlen]
    omega

/-- `AcceptWrite` の三つの経路は、どれも接する区間を一つに置き換える -/
theorem acceptWrite_merges (offset : Nat) (hw : RangesWf limit ranges) (hs : Separated ranges)
    (hne : bytes ≠ []) :
    ∃ before m previous after, Merges ranges (acceptWrite ranges offset bytes).1
      (acceptWrite ranges offset bytes).2 before m previous after := by
  have hsplit := takeWhile_append_dropWhile_lt ranges offset
  have hbefore : ∀ r ∈ ranges.takeWhile (·.1 < offset), r.1 < offset := fun r => mem_takeWhile_lt
  unfold acceptWrite
  dsimp only
  generalize ranges.takeWhile (·.1 < offset) = before at hsplit hbefore ⊢
  generalize ranges.dropWhile (·.1 < offset) = after at hsplit ⊢
  subst hsplit
  obtain ⟨-, hwa, -⟩ := rangesWf_append.mp hw
  split
  · next hl =>
    obtain rfl := getLast?_eq_none_iff.mp hl
    split
    · next hfar =>
      exact ⟨[], (offset, bytes), [], after, rfl, rfl, rfl, by simp,
        (startsAfter_iff hwa).mp hfar⟩
    · exact mergeWrite_merges hwa hs hne (by simp)
  · next prev hl =>
    obtain ⟨init, rfl⟩ := getLast?_eq_some_iff.mp hl
    rw [dropLast_concat]
    have hprev : prev.1 < offset := hbefore prev (by simp)
    have hs' : Separated (init ++ prev :: after) := by simpa using hs
    have hinit : ∀ r ∈ init, rangeEnd r < prev.1 := fun r hr =>
      (pairwise_append.mp hs').2.2 r hr prev (by simp)
    split
    · next hfar =>
      refine ⟨init ++ [prev], (offset, bytes), [], after, rfl, rfl, rfl, fun r hr => ?_,
        (startsAfter_iff hwa).mp hfar.1⟩
      rcases mem_append.mp hr with hr | hr
      · exact (hinit r hr).trans hprev
      · exact mem_singleton.mp hr ▸ hfar.2
    · rw [append_assoc, singleton_append]
      split
      · next htouch =>
        have hfar := (startsAfter_iff hwa).mp htouch.2
        have htouch := htouch.1
        simp only [rangeEnd] at htouch hfar
        split
        · next hin =>
          simp only [rangeEnd] at hin
          have hov : (overwrite prev.2 (offset - prev.1) bytes).length = prev.2.length :=
            overwrite_length_of_le (by omega)
          refine ⟨init, (prev.1, overwrite prev.2 (offset - prev.1) bytes), [prev], after, rfl,
            rfl, ?_, hinit, fun r hr => ?_⟩
          · simp [totalBytes, hov]
          · have := hfar r hr
            simp only [rangeEnd, hov]
            omega
        · next hout =>
          simp only [rangeEnd] at hout ⊢
          have hlen : (prev.2.take (offset - prev.1) ++ bytes).length =
              offset - prev.1 + bytes.length := by
            rw [length_append, length_take_of_le (by omega)]
          refine ⟨init, (prev.1, prev.2.take (offset - prev.1) ++ bytes), [prev], after, rfl, rfl,
            ?_, hinit, fun r hr => ?_⟩
          · simp only [totalBytes, map_singleton, sum_singleton, hlen]
            omega
          · have := hfar r hr
            simp only [rangeEnd, hlen]
            omega
      · have hw' : RangesWf limit (init ++ prev :: after) := by simpa using hw
        exact mergeWrite_merges (rangesWf_append.mp hw').2.1 hs' hne fun r hr =>
          (hinit r hr).trans hprev

theorem clipRanges_separated (hs : Separated ranges) (size : Nat) :
    Separated (clipRanges ranges size) := by
  have hkept : Separated (ranges.takeWhile (·.1 < size)) :=
    List.Pairwise.sublist (takeWhile_sublist _) hs
  unfold clipRanges
  dsimp only
  split
  next => exact .nil
  next last hl =>
    obtain ⟨init, hinit⟩ := getLast?_eq_some_iff.mp hl
    rw [hinit] at hkept ⊢
    split
    next =>
      rw [dropLast_concat]
      obtain ⟨hi, -, hcross⟩ := pairwise_append.mp hkept
      refine pairwise_append.mpr ⟨hi, pairwise_singleton _ _, fun a ha b hb => ?_⟩
      rw [mem_singleton.mp hb]
      exact hcross a ha last (mem_singleton.mpr rfl)
    next => exact hkept

/-! ## 覆う byte の数 -/

def coveredIn (limit : Nat) (ranges : DirtyRanges) : Finset Nat :=
  (Finset.range limit).filter fun p => rangesAt ranges p ≠ none

def span (start stop : Nat) : Finset Nat := Finset.range stop \ Finset.range start

theorem mem_span : p ∈ span start stop ↔ start ≤ p ∧ p < stop := by
  simp [span, and_comm]

theorem card_span (h : start ≤ stop) : (span start stop).card = stop - start := by
  rw [span, Finset.card_sdiff_of_subset (Finset.range_subset_range.mpr h), Finset.card_range,
    Finset.card_range]

/-- `[offset, offset + len)` の書き込みが新しく覆う位置 -/
def freshIn (ranges : DirtyRanges) (offset len : Nat) : Finset Nat :=
  (span offset (offset + len)).filter fun p => rangesAt ranges p = none

theorem card_coveredIn (hw : RangesWf limit ranges) :
    (coveredIn limit ranges).card = totalBytes ranges := by
  induction ranges with
  | nil => simp [coveredIn, totalBytes]
  | cons r rs ih =>
    obtain ⟨⟨-, hlim⟩, hrs, hsep⟩ := rangesWf_cons.mp hw
    have hunion : coveredIn limit (r :: rs) = span r.1 (rangeEnd r) ∪ coveredIn limit rs := by
      ext p
      have hin : ¬ rangeAt r p = none ↔ r.1 ≤ p ∧ p < rangeEnd r := by
        rw [rangeAt_eq_none_iff]
        omega
      simp only [coveredIn, Finset.mem_filter, Finset.mem_range, Finset.mem_union, mem_span,
        rangesAt_cons, ne_eq, Option.or_eq_none_iff, not_and_or, hin]
      have : r.1 ≤ p ∧ p < rangeEnd r → p < limit := by omega
      tauto
    have hdisjoint : Disjoint (span r.1 (rangeEnd r)) (coveredIn limit rs) := by
      refine Finset.disjoint_left.mpr fun p hp hp' => ?_
      refine (Finset.mem_filter.mp hp').2 (rangesAt_eq_none_iff.mpr fun x hx => .inl ?_)
      exact Nat.lt_of_lt_of_le (mem_span.mp hp).2 (hsep x hx)
    have hle : r.1 ≤ rangeEnd r := Nat.le_add_right ..
    rw [hunion, Finset.card_union_of_disjoint hdisjoint, card_span hle, ih hrs, totalBytes_cons]
    simp [rangeEnd]

/-- `AcceptWrite` は、新しく覆った byte の数を返し、合計もその分だけ増える -/
theorem acceptWrite_fresh (hw : RangesWf limit ranges) (hs : Separated ranges) (hne : bytes ≠ [])
    (hlim : offset + bytes.length ≤ limit) :
    (acceptWrite ranges offset bytes).2 = (freshIn ranges offset bytes.length).card ∧
      totalBytes (acceptWrite ranges offset bytes).1 =
        totalBytes ranges + (acceptWrite ranges offset bytes).2 := by
  obtain ⟨hw', hat⟩ := acceptWrite_spec hw hne hlim
  -- 覆う位置は、前から覆っていた位置と新しい位置に分かれる
  have hunion : coveredIn limit (acceptWrite ranges offset bytes).1 =
      coveredIn limit ranges ∪ freshIn ranges offset bytes.length := by
    ext p
    simp only [coveredIn, freshIn, Finset.mem_filter, Finset.mem_range, Finset.mem_union, mem_span,
      hat, writtenAt]
    split
    next hin =>
      rw [getElem?_eq_getElem (by omega)]
      have : p < limit := by omega
      cases rangesAt ranges p <;> simp [this, hin]
    next hout => simp [hout]
  have hdisjoint : Disjoint (coveredIn limit ranges) (freshIn ranges offset bytes.length) :=
    Finset.disjoint_left.mpr fun p hp hp' =>
      (Finset.mem_filter.mp hp).2 (Finset.mem_filter.mp hp').2
  have hcard := congrArg Finset.card hunion
  rw [Finset.card_union_of_disjoint hdisjoint, card_coveredIn hw, card_coveredIn hw'] at hcard
  obtain ⟨before, m, previous, after, hold, hnew, hfresh, -, -⟩ :=
    acceptWrite_merges offset hw hs hne
  have htotal : totalBytes ranges =
      totalBytes before + (totalBytes previous + totalBytes after) := by
    rw [hold, totalBytes_append, totalBytes_append]
  have htotal' : totalBytes (acceptWrite ranges offset bytes).1 =
      totalBytes before + (m.2.length + totalBytes after) := by
    rw [hnew, totalBytes_append, totalBytes_cons]
  omega

end

/-! ## 操作の列 -/

/-- `DirtyRanges` への一つの操作 -/
inductive RangeOp where
  | accept (offset : Nat) (bytes : Bytes)
  | clip (size : Nat)
deriving DecidableEq, Repr

def RangeOp.apply (ranges : DirtyRanges) : RangeOp → DirtyRanges
  | .accept offset bytes => (acceptWrite ranges offset bytes).1
  | .clip size => clipRanges ranges size

/-- 位置ごとの値に操作を重ねる。書き込みは上に重なり、切り詰めは `size` 以降を消す -/
def RangeOp.overlay (value : Nat → Option UInt8) : RangeOp → Nat → Option UInt8
  | .accept offset bytes, p =>
    if offset ≤ p ∧ p < offset + bytes.length then bytes[p - offset]? else value p
  | .clip size, p => if p < size then value p else none

def RangeOp.Nonempty : RangeOp → Prop
  | .accept _ bytes => bytes ≠ []
  | .clip _ => True

/-- 操作の列の不変条件：区間は空でなく接さず、位置ごとの値は操作を重ねたもの -/
structure RangesInv (ranges : DirtyRanges) (value : Nat → Option UInt8) : Prop where
  wf : ∃ limit, RangesWf limit ranges
  separated : Separated ranges
  value : ∀ p, rangesAt ranges p = value p

variable {ranges : DirtyRanges} {value : Nat → Option UInt8}

theorem RangesInv.step (h : RangesInv ranges value) {op : RangeOp} (hop : op.Nonempty) :
    RangesInv (op.apply ranges) (op.overlay value) := by
  obtain ⟨⟨limit, hw⟩, hs, hv⟩ := h
  cases op with
  | accept offset bytes =>
    obtain ⟨hw', hat⟩ := acceptWrite_spec (hw.mono (Nat.le_max_left limit (offset + bytes.length)))
      hop (Nat.le_max_right ..)
    obtain ⟨_, _, _, _, hm⟩ := acceptWrite_merges offset hw hs hop
    refine ⟨⟨_, hw'⟩, hm.separated hs, fun p => (hat p).trans ?_⟩
    rw [writtenAt, hv]
    rfl
  | clip size =>
    obtain ⟨hw', hat⟩ := clipRanges_spec hw size
    refine ⟨⟨_, hw'⟩, clipRanges_separated hs size, fun p => (hat p).trans ?_⟩
    rw [hv]
    rfl

theorem RangesInv.run (h : RangesInv ranges value) {ops : List RangeOp}
    (hops : ∀ op ∈ ops, op.Nonempty) :
    RangesInv (ops.foldl RangeOp.apply ranges) (ops.foldl RangeOp.overlay value) := by
  induction ops generalizing ranges value with
  | nil => exact h
  | cons op ops ih =>
    obtain ⟨hop, hops⟩ := forall_mem_cons.mp hops
    exact ih (h.step hop) hops

/-- `active_` を変える session の操作 -/
inductive LocalOp where
  | write (offset : Nat) (bytes : Bytes)
  | freeze
  | truncate (size : Nat)
deriving DecidableEq, Repr

/-- `Write` が受け入れる、空でない書き込み -/
def LocalOp.accepts (chunkSize offset : Nat) (bytes : Bytes) : Bool :=
  bytes ≠ [] ∧ offset ≤ chunkSize ∧ bytes.length ≤ chunkSize - offset

def LocalOp.apply (chunkSize : Nat) (sc : SliceChunk) : LocalOp → SliceChunk
  | .write offset bytes => if accepts chunkSize offset bytes then sc.accept offset bytes else sc
  | .freeze => sc.freezeActive
  | .truncate size => sc.clip size

/-- 受け入れた書き込みだけが重なり、凍結は値を変えない -/
def LocalOp.overlay (chunkSize : Nat) (value : Nat → Option UInt8) : LocalOp → Nat → Option UInt8
  | .write offset bytes =>
    if accepts chunkSize offset bytes then (RangeOp.accept offset bytes).overlay value else value
  | .freeze => value
  | .truncate size => (RangeOp.clip size).overlay value

/-! ## 凍結した候補と `active_` -/

/-- 候補を古い順に重ねたときの、位置 `p` の byte。どの候補も書かなければ `none` -/
def frozenAt : List FrozenSlice → Nat → Option UInt8
  | [], _ => none
  | c :: cs, p => (frozenAt cs p).or (c.byteAt p)

theorem frozenAt_append (cs ds : List FrozenSlice) (p : Nat) :
    frozenAt (cs ++ ds) p = (frozenAt ds p).or (frozenAt cs p) := by
  induction cs with
  | nil => simp [frozenAt]
  | cons c cs ih => rw [cons_append, frozenAt, ih, frozenAt, Option.or_assoc]

def SliceChunk.layerAt (sc : SliceChunk) (p : Nat) : Option UInt8 :=
  (rangesAt sc.active p).or (frozenAt sc.frozen p)

theorem frozenAt_ofRanges (hf : ∀ r p, (f r).byteAt p = rangeAt r p)
    (hs : rs.Pairwise fun a b => rangeEnd a ≤ b.1) (p : Nat) :
    frozenAt (rs.map f) p = rangesAt rs p := by
  induction rs with
  | nil => rfl
  | cons r rs ih =>
    obtain ⟨hfirst, hrest⟩ := pairwise_cons.mp hs
    rw [map_cons, frozenAt, ih hrest, hf, rangesAt_cons]
    -- 重ならないので、どちらを先に見ても同じである
    cases hv : rangeAt r p with
    | none => rw [Option.or_none, Option.none_or]
    | some v =>
      have hin := (rangeAt_eq_some_iff.mp ⟨v, hv⟩).2
      have hnone : rangesAt rs p = none := rangesAt_eq_none_iff.mpr fun r' hr' =>
        .inl (Nat.lt_of_lt_of_le hin (hfirst r' hr'))
      rw [hnone]
      rfl

theorem FrozenSlice.byteAt_clip (c : FrozenSlice) (size p : Nat) :
    (c.clip size).byteAt p = if p < size then c.byteAt p else none := by
  unfold FrozenSlice.byteAt FrozenSlice.clip
  dsimp only
  split <;> split <;> (try split) <;> first | rfl | omega

theorem frozenAt_clip (cs : List FrozenSlice) (size p : Nat) :
    frozenAt ((cs.map (·.clip size)).filter (·.visibleLen ≠ 0)) p =
      if p < size then frozenAt cs p else none := by
  induction cs with
  | nil => simp [frozenAt]
  | cons c cs ih =>
    rw [map_cons, filter_cons, frozenAt]
    split
    next =>
      rw [frozenAt, ih, FrozenSlice.byteAt_clip]
      split <;> rfl
    next hgone =>
      -- 消えた候補は、`size` より前に byte を持たない
      have hnone : (c.clip size).byteAt p = none := by
        rw [FrozenSlice.byteAt_eq_none]
        have : (c.clip size).visibleLen = 0 := by simpa using hgone
        omega
      rw [FrozenSlice.byteAt_clip] at hnone
      rw [ih]
      split
      next hp =>
        rw [if_pos hp] at hnone
        rw [hnone, Option.or_none]
      next => rfl

/-- `active_bytes_` は接しない区間の大きさの合計で、候補に `active_` を重ねると `value` になる -/
structure Balanced (limit : Nat) (sc : SliceChunk) (value : Nat → Option UInt8) : Prop where
  wf : RangesWf limit sc.active
  separated : Separated sc.active
  bytes : sc.activeBytes = totalBytes sc.active
  layer : ∀ p, sc.layerAt p = value p

section

variable {limit offset : Nat} {sc : SliceChunk} {value : Nat → Option UInt8}

/-- 凍結は、`active_` を空にするだけで、重ねた結果を変えない -/
theorem Balanced.freeze (h : Balanced limit sc value) :
    Balanced limit sc.freezeActive value ∧ sc.freezeActive.activeBytes = 0 := by
  have hzero : sc.freezeActive.activeBytes = 0 := by
    cases hactive : sc.active with
    | nil => simpa [SliceChunk.freezeActive, hactive, totalBytes] using h.bytes
    | cons r rs => simp [SliceChunk.freezeActive, hactive]
  refine ⟨⟨rangesWf_nil _, .nil, hzero, fun p => ?_⟩, hzero⟩
  rw [← h.layer, SliceChunk.layerAt, SliceChunk.layerAt, SliceChunk.freezeActive, frozenAt_append,
    frozenAt_ofRanges (fun r p => ?_) h.wf.sorted]
  · rfl
  · rw [FrozenSlice.byteAt, rangeAt_mk r.1 r.2 p]
    split
    next hin =>
      dsimp only at hin ⊢
      rw [getD_eq_getElem?_getD, getElem?_eq_getElem (by omega)]
      rfl
    next => rfl

theorem overlay_accept_of_or (bytes : Bytes) (below : Nat → Option UInt8) (ranges : DirtyRanges)
    (p : Nat) (h : (rangesAt ranges p).or (below p) = value p) :
    (writtenAt ranges offset bytes p).or (below p) =
      (RangeOp.accept offset bytes).overlay value p := by
  rw [writtenAt, RangeOp.overlay]
  split
  next hin =>
    rw [getElem?_eq_getElem (by omega)]
    rfl
  next => exact h

theorem Balanced.acceptPart (h : Balanced limit sc value) (hne : part ≠ [])
    (hlim : offset + part.length ≤ limit) :
    Balanced limit (sc.acceptPart offset part) ((RangeOp.accept offset part).overlay value) ∧
      (sc.acceptPart offset part).activeBytes < kMaxActiveSliceBytes := by
  have hwrite : ∀ sc : SliceChunk, Balanced limit sc value → Balanced limit
      { sc with
        active := (acceptWrite sc.active offset part).1
        activeBytes := sc.activeBytes + (acceptWrite sc.active offset part).2 }
      ((RangeOp.accept offset part).overlay value) := by
    intro sc h
    obtain ⟨_, _, _, _, hm⟩ := acceptWrite_merges offset h.wf h.separated hne
    obtain ⟨hwf, hat⟩ := acceptWrite_spec h.wf hne hlim
    refine ⟨hwf, hm.separated h.separated, ?_, fun p => ?_⟩
    · rw [(acceptWrite_fresh h.wf h.separated hne hlim).2, h.bytes]
    · rw [SliceChunk.layerAt, hat]
      exact overlay_accept_of_or part _ _ p (h.layer p)
  -- 上限に達したら凍結するので、残りは上限より小さい
  have hbound : ∀ (sc : SliceChunk) {v}, Balanced limit sc v → Balanced limit
      (if kMaxActiveSliceBytes ≤ sc.activeBytes then sc.freezeActive else sc) v ∧
      (if kMaxActiveSliceBytes ≤ sc.activeBytes then sc.freezeActive else sc).activeBytes <
        kMaxActiveSliceBytes := by
    intro sc v h
    split
    next =>
      refine ⟨h.freeze.1, ?_⟩
      rw [h.freeze.2]
      decide
    next hlt => exact ⟨h, Nat.lt_of_not_le hlt⟩
  unfold SliceChunk.acceptPart
  dsimp only
  split
  next => exact hbound _ (hwrite _ h.freeze.1)
  next => exact hbound _ (hwrite _ h)

theorem overlay_accept_append (offset : Nat) (value : Nat → Option UInt8) (as bs : Bytes) :
    (RangeOp.accept (offset + as.length) bs).overlay ((RangeOp.accept offset as).overlay value) =
      (RangeOp.accept offset (as ++ bs)).overlay value := by
  funext p
  simp only [RangeOp.overlay, length_append]
  grind

theorem Balanced.acceptParts {bytes : Bytes} (h : Balanced limit sc value)
    (hfuel : bytes.length ≤ fuel) (hbelow : sc.activeBytes < kMaxActiveSliceBytes)
    (hlim : offset + bytes.length ≤ limit) :
    Balanced limit (SliceChunk.acceptParts fuel sc offset bytes)
        ((RangeOp.accept offset bytes).overlay value) ∧
      (SliceChunk.acceptParts fuel sc offset bytes).activeBytes < kMaxActiveSliceBytes := by
  have hnil : (RangeOp.accept offset []).overlay value = value := by
    funext p
    exact if_neg (by simp)
  induction fuel generalizing sc offset bytes value with
  | zero =>
    obtain rfl := length_eq_zero_iff.mp (Nat.le_zero.mp hfuel)
    exact ⟨hnil.symm ▸ h, hbelow⟩
  | succ fuel ih =>
    rw [SliceChunk.acceptParts]
    split
    next hemp =>
      obtain rfl := isEmpty_iff.mp hemp
      exact ⟨hnil.symm ▸ h, hbelow⟩
    next hemp =>
      have hmax : 0 < kMaxActiveSliceBytes := by decide
      have hpos := length_pos_iff.mpr fun h => hemp (isEmpty_iff.mpr h)
      have hsplit := take_append_drop kMaxActiveSliceBytes bytes
      have hlen := congrArg List.length hsplit
      rw [length_append] at hlen
      have htake : 0 < (bytes.take kMaxActiveSliceBytes).length := by
        rw [length_take]
        omega
      have hpart : offset + (bytes.take kMaxActiveSliceBytes).length ≤ limit := by omega
      obtain ⟨h', hbelow'⟩ := h.acceptPart (ne_nil_of_length_pos htake) hpart
      have hoverlay := overlay_accept_append offset value (bytes.take kMaxActiveSliceBytes)
        (bytes.drop kMaxActiveSliceBytes)
      rw [hsplit] at hoverlay
      rw [← hoverlay]
      refine ih h' (by omega) hbelow' (by omega) ?_
      funext p
      exact if_neg (by simp)

end

/-- session の不変条件 -/
structure LocalInv (chunkSize : Nat) (sc : SliceChunk) (value : Nat → Option UInt8) : Prop where
  balanced : Balanced chunkSize sc value
  below : sc.activeBytes < kMaxActiveSliceBytes

theorem totalBytes_clipRanges (hw : RangesWf limit ranges) (size : Nat) :
    totalBytes (clipRanges ranges size) ≤ totalBytes ranges := by
  obtain ⟨hw', hat⟩ := clipRanges_spec hw size
  rw [← card_coveredIn hw, ← card_coveredIn (hw'.mono (Nat.min_le_left ..))]
  refine Finset.card_le_card fun p hp => ?_
  obtain ⟨hlt, hne⟩ := Finset.mem_filter.mp hp
  rw [hat] at hne
  exact Finset.mem_filter.mpr ⟨hlt, fun hnone => hne (by rw [hnone, ite_self])⟩

theorem LocalInv.step (h : LocalInv chunkSize sc value)
    (op : LocalOp) : LocalInv chunkSize (op.apply chunkSize sc) (op.overlay chunkSize value) := by
  obtain ⟨hbal, hbelow⟩ := h
  cases op with
  | write offset bytes =>
    unfold LocalOp.apply LocalOp.overlay
    dsimp only
    split
    next hok =>
      obtain ⟨-, hoff, hlen⟩ := of_decide_eq_true hok
      have hdirty : Balanced chunkSize { sc with dirty := (acceptWrite sc.dirty offset bytes).1 }
          value := ⟨hbal.wf, hbal.separated, hbal.bytes, hbal.layer⟩
      have hlim : offset + bytes.length ≤ chunkSize := by omega
      have haccept := hdirty.acceptParts (Nat.le_refl _) hbelow hlim
      exact ⟨haccept.1, haccept.2⟩
    next => exact ⟨hbal, hbelow⟩
  | freeze => exact ⟨hbal.freeze.1, Nat.lt_of_le_of_lt (Nat.le_of_eq hbal.freeze.2) (by decide)⟩
  | truncate size =>
    obtain ⟨hactive, hat⟩ := clipRanges_spec hbal.wf size
    have hle := totalBytes_clipRanges hbal.wf size
    refine ⟨⟨hactive.mono (Nat.min_le_left ..), clipRanges_separated hbal.separated size, rfl,
      fun p => ?_⟩, Nat.lt_of_le_of_lt hle (hbal.bytes ▸ hbelow)⟩
    have hlayer := hbal.layer p
    unfold SliceChunk.layerAt at hlayer ⊢
    dsimp only [LocalOp.apply, SliceChunk.clip, LocalOp.overlay]
    rw [hat, frozenAt_clip, RangeOp.overlay, ← hlayer]
    split <;> rfl

theorem LocalInv.run (h : LocalInv chunkSize sc value) (ops : List LocalOp) :
    LocalInv chunkSize (ops.foldl (LocalOp.apply chunkSize) sc)
      (ops.foldl (LocalOp.overlay chunkSize) value) := by
  induction ops generalizing sc value with
  | nil => exact h
  | cons op ops ih => exact ih (h.step op)

/--
`AcceptWrite` と `ClipRanges` のどの列の後も、区間は空でなく、重ならず、接さない。
位置ごとの値は操作を順に重ねたもので、`AcceptWrite` は新しく覆う byte の数を返す。

session では、`active_bytes_` は `active_` の大きさに等しく、どの操作の後も 4 MiB より小さい。
凍結した候補を古い順に重ね、その上に `active_` を重ねると、受け入れた順の書き込みになる。
-/
theorem dirty_ranges_exact (ops : List RangeOp) (hops : ∀ op ∈ ops, op.Nonempty)
    (index chunkSize : Nat) (locals : List LocalOp) :
    (let ranges := ops.foldl RangeOp.apply [];
      (∀ r ∈ ranges, r.2 ≠ []) ∧ Separated ranges ∧
        (∀ p, rangesAt ranges p = ops.foldl RangeOp.overlay (fun _ => none) p) ∧
        ∀ offset bytes, bytes ≠ [] →
          (acceptWrite ranges offset bytes).2 = (freshIn ranges offset bytes.length).card) ∧
      (let sc : SliceChunk := locals.foldl (LocalOp.apply chunkSize) { index := index };
        sc.activeBytes = totalBytes sc.active ∧ sc.activeBytes < kMaxActiveSliceBytes ∧
          ∀ p, (rangesAt sc.active p).or (frozenAt sc.frozen p) =
            locals.foldl (LocalOp.overlay chunkSize) (fun _ => none) p) := by
  constructor
  · have hnil : RangesInv [] fun _ => none := ⟨⟨0, rangesWf_nil 0⟩, .nil, fun _ => rfl⟩
    obtain ⟨⟨limit, hw⟩, hs, hv⟩ := hnil.run hops
    refine ⟨hw.nonempty, hs, hv, fun offset bytes hne => ?_⟩
    exact (acceptWrite_fresh (hw.mono (Nat.le_max_left limit (offset + bytes.length))) hs hne
      (Nat.le_max_right ..)).1
  · have hmax : 0 < kMaxActiveSliceBytes := by decide
    have hnil : LocalInv chunkSize { index := index } fun _ => none :=
      ⟨⟨rangesWf_nil _, .nil, rfl, fun _ => rfl⟩, hmax⟩
    obtain ⟨hbal, hbelow⟩ := hnil.run locals
    exact ⟨hbal.bytes, hbelow, hbal.layer⟩

theorem dirty_ranges_exact_touching :
    (∀ op ∈ [RangeOp.accept 0 [1, 2], .accept 2 [3], .clip 2], op.Nonempty) ∧
      Separated ([RangeOp.accept 0 [1, 2], .accept 2 [3], .clip 2].foldl RangeOp.apply []) :=
  have hops : ∀ op ∈ [RangeOp.accept 0 [1, 2], .accept 2 [3], .clip 2], op.Nonempty := by
    simp [RangeOp.Nonempty]
  ⟨hops, (dirty_ranges_exact _ hops 0 8 [.write 0 [1], .freeze]).1.2.1⟩

end SwordFS.Chunk.Slice
