import SwordFS.Infra.Bytes
import SwordFS.Metadata.Types

/-!
# 書き込まれた区間の集まり

`SliceChunk.cpp` の `DirtyRanges`（開始位置の順に並んだ map）を、整列した list で表す。
`AcceptWrite` は接する区間だけを併合し、隙間を埋めない。
-/

namespace SwordFS.Chunk.Slice

open List Infra Metadata

/-- 開始位置とその byte 列。開始位置の順に並び、互いに重ならない -/
abbrev DirtyRanges := List (Nat × Bytes)

def rangeEnd (r : Nat × Bytes) : Nat := r.1 + r.2.length

/--
`AcceptWrite` の併合の loop。

`start` より前で終わる区間は残し、`stop` より後に始まる区間で止まる。
残した区間、併合後の範囲、併合した区間、残りを返す。
-/
def absorb (start stop : Nat) : DirtyRanges → DirtyRanges × (Nat × Nat) × DirtyRanges × DirtyRanges
  | [] => ([], (start, stop), [], [])
  | r :: rs =>
    if rangeEnd r < start then
      let (kept, range, previous, rest) := absorb start stop rs
      (r :: kept, range, previous, rest)
    else if stop < r.1 then ([], (start, stop), [], r :: rs)
    else
      let (kept, range, previous, rest) := absorb (min start r.1) (max stop (rangeEnd r)) rs
      (kept, range, r :: previous, rest)

/-- `before` に続く `ranges` に、接する区間を併合しながら書き込む -/
def mergeWrite (before ranges : DirtyRanges) (offset : Nat) (bytes : Bytes) : DirtyRanges × Nat :=
  let (kept, (start, stop), previous, rest) := absorb offset (offset + bytes.length) ranges
  let blank : Bytes := List.replicate (stop - start) 0
  let filled := previous.foldl (fun buf r => overwrite buf (r.1 - start) r.2) blank
  let merged := overwrite filled (offset - start) bytes
  (before ++ kept ++ (start, merged) :: rest, merged.length - (previous.map (·.2.length)).sum)

/-- 次の区間が `limit` より後に始まる（または無い） -/
def startsAfter (limit : Nat) : DirtyRanges → Bool
  | [] => true
  | r :: _ => limit < r.1

/-- `AcceptWrite`：書き込みを受け入れ、新しく覆った byte 数を返す -/
def acceptWrite (ranges : DirtyRanges) (offset : Nat) (bytes : Bytes) : DirtyRanges × Nat :=
  let stop := offset + bytes.length
  let before := ranges.takeWhile (·.1 < offset)
  let after := ranges.dropWhile (·.1 < offset)
  match before.getLast? with
  | none =>
    if startsAfter stop after then ((offset, bytes) :: after, bytes.length)
    else mergeWrite [] after offset bytes
  | some previous =>
    if startsAfter stop after ∧ rangeEnd previous < offset then
      (before ++ (offset, bytes) :: after, bytes.length)
    else if offset ≤ rangeEnd previous ∧ startsAfter (max stop (rangeEnd previous)) after then
      -- 直前の区間の中の上書きと末尾の延長は、区間を作り直さない
      if stop ≤ rangeEnd previous then
        (before.dropLast ++
          (previous.1, overwrite previous.2 (offset - previous.1) bytes) :: after, 0)
      else
        (before.dropLast ++ (previous.1, previous.2.take (offset - previous.1) ++ bytes) :: after,
          stop - rangeEnd previous)
    else mergeWrite before.dropLast (previous :: after) offset bytes

def clipRanges (ranges : DirtyRanges) (size : Nat) : DirtyRanges :=
  let kept := ranges.takeWhile (·.1 < size)
  match kept.getLast? with
  | none => []
  | some last =>
    if size < rangeEnd last then kept.dropLast ++ [(last.1, last.2.take (size - last.1))]
    else kept

/-! ## 位置ごとの値 -/

def rangeAt (r : Nat × Bytes) (p : Nat) : Option UInt8 :=
  if r.1 ≤ p then r.2[p - r.1]? else none

/-- 位置 `p` の値。どの区間にも入っていなければ `none` -/
def rangesAt (ranges : DirtyRanges) (p : Nat) : Option UInt8 := ranges.findSome? (rangeAt · p)

/-- 整列していて重ならず、空の区間を持たず、`limit` に収まる -/
structure RangesWf (limit : Nat) (ranges : DirtyRanges) : Prop where
  sorted : ranges.Pairwise fun a b => rangeEnd a ≤ b.1
  nonempty : ∀ r ∈ ranges, r.2 ≠ []
  bounded : ∀ r ∈ ranges, rangeEnd r ≤ limit

variable {r : Nat × Bytes} {p limit offset : Nat}

theorem rangeAt_eq_some_iff : (∃ b, rangeAt r p = some b) ↔ r.1 ≤ p ∧ p < rangeEnd r := by
  unfold rangeAt rangeEnd
  split
  · next h =>
    constructor
    · rintro ⟨b, hb⟩
      obtain ⟨hlt, -⟩ := List.getElem?_eq_some_iff.mp hb
      omega
    · rintro ⟨-, hlt⟩
      exact ⟨_, getElem?_eq_getElem (by omega)⟩
  · next h => exact ⟨fun ⟨_, hb⟩ => (nomatch hb), fun h' => absurd h'.1 h⟩

theorem rangeAt_eq_none_iff : rangeAt r p = none ↔ p < r.1 ∨ rangeEnd r ≤ p := by
  have h := @rangeAt_eq_some_iff r p
  rw [← Option.isSome_iff_exists, ← Option.not_isSome_iff_eq_none, h] at *
  omega

@[simp] theorem rangesAt_nil (p : Nat) : rangesAt [] p = none := rfl

theorem rangesAt_append (as bs : DirtyRanges) (p : Nat) :
    rangesAt (as ++ bs) p = (rangesAt as p).or (rangesAt bs p) := findSome?_append

theorem rangesAt_cons (r : Nat × Bytes) (rs : DirtyRanges) (p : Nat) :
    rangesAt (r :: rs) p = (rangeAt r p).or (rangesAt rs p) := by
  unfold rangesAt
  rw [findSome?_cons]
  cases rangeAt r p <;> rfl

variable {rs ranges : DirtyRanges}

theorem rangesAt_eq_none_iff : rangesAt rs p = none ↔ ∀ r ∈ rs, p < r.1 ∨ rangeEnd r ≤ p := by
  simp only [rangesAt, findSome?_eq_none_iff, rangeAt_eq_none_iff]

theorem rangesWf_nil (limit : Nat) : RangesWf limit [] := ⟨.nil, by simp, by simp⟩

theorem rangesWf_append :
    RangesWf limit (as ++ bs) ↔ RangesWf limit as ∧ RangesWf limit bs ∧
      ∀ a ∈ as, ∀ b ∈ bs, rangeEnd a ≤ b.1 := by
  constructor
  · intro h
    obtain ⟨ha, hb, hab⟩ := pairwise_append.mp h.sorted
    refine ⟨⟨ha, ?_, ?_⟩, ⟨hb, ?_, ?_⟩, hab⟩ <;> intro r hr
    · exact h.nonempty r (mem_append_left _ hr)
    · exact h.bounded r (mem_append_left _ hr)
    · exact h.nonempty r (mem_append_right _ hr)
    · exact h.bounded r (mem_append_right _ hr)
  · rintro ⟨ha, hb, hab⟩
    refine ⟨pairwise_append.mpr ⟨ha.sorted, hb.sorted, hab⟩, fun r hr => ?_, fun r hr => ?_⟩
    · rcases mem_append.mp hr with hr | hr
      · exact ha.nonempty r hr
      · exact hb.nonempty r hr
    · rcases mem_append.mp hr with hr | hr
      · exact ha.bounded r hr
      · exact hb.bounded r hr

theorem rangesWf_cons :
    RangesWf limit (r :: rs) ↔ (r.2 ≠ [] ∧ rangeEnd r ≤ limit) ∧ RangesWf limit rs ∧
      ∀ b ∈ rs, rangeEnd r ≤ b.1 := by
  rw [← singleton_append, rangesWf_append]
  simp only [mem_singleton, forall_eq]
  refine and_congr_left fun _ => ⟨fun h => ⟨h.nonempty r (by simp), h.bounded r (by simp)⟩, ?_⟩
  rintro ⟨h1, h2⟩
  exact ⟨by simp, by simpa using h1, by simpa using h2⟩

/-! ## 併合 -/

theorem fill_getElem? (buf : Bytes) (hs : rs.Pairwise fun a b => rangeEnd a ≤ b.1)
    (hb : ∀ r ∈ rs, start ≤ r.1 ∧ rangeEnd r ≤ stop) (hlen : buf.length = stop - start) (i : Nat) :
    (rs.foldl (fun buf r => overwrite buf (r.1 - start) r.2) buf)[i]? =
        (rangesAt rs (start + i)).or buf[i]? ∧
      (rs.foldl (fun buf r => overwrite buf (r.1 - start) r.2) buf).length = buf.length := by
  induction rs generalizing buf with
  | nil => simp
  | cons r rs ih =>
    obtain ⟨hr, hrs⟩ := pairwise_cons.mp hs
    obtain ⟨⟨hr1, hr2⟩, hbs⟩ := forall_mem_cons.mp hb
    have hfit : r.1 - start + r.2.length ≤ buf.length := by unfold rangeEnd at hr2; omega
    have hlen' := overwrite_length_of_le hfit
    obtain ⟨h1, h2⟩ := ih _ hrs hbs (hlen'.trans hlen)
    refine ⟨?_, h2.trans hlen'⟩
    rw [foldl_cons, h1, overwrite_getElem? (by omega), rangesAt_cons]
    by_cases hin : r.1 - start ≤ i ∧ i < r.1 - start + r.2.length
    · have hnone : rangesAt rs (start + i) = none := by
        refine rangesAt_eq_none_iff.mpr fun x hx => .inl ?_
        have := hr x hx
        unfold rangeEnd at this
        omega
      have hat : rangeAt r (start + i) = r.2[i - (r.1 - start)]? := by
        rw [rangeAt, if_pos (by omega)]
        congr 1; omega
      rw [if_pos hin, hnone, hat, Option.none_or, Option.or_none, Option.or_of_isSome]
      rw [getElem?_eq_getElem (by omega)]; rfl
    · have hat : rangeAt r (start + i) = none := by
        rw [rangeAt_eq_none_iff]; unfold rangeEnd; omega
      rw [if_neg hin, hat, Option.none_or]

/-- `absorb` が分けた四つの部分 -/
structure Absorbed (start stop : Nat) (ranges kept : DirtyRanges) (s e : Nat)
    (previous rest : DirtyRanges) : Prop where
  split : ranges = kept ++ (previous ++ rest)
  start_le : s ≤ start
  le_start : ∀ l, l ≤ start → (∀ r ∈ ranges, l ≤ r.1) → l ≤ s
  le_stop : stop ≤ e
  stop_le : ∀ l, stop ≤ l → (∀ r ∈ ranges, rangeEnd r ≤ l) → e ≤ l
  kept_lt : ∀ r ∈ kept, rangeEnd r < start
  kept_le : ∀ r ∈ kept, rangeEnd r ≤ s
  inside : ∀ r ∈ previous, s ≤ r.1 ∧ rangeEnd r ≤ e
  lt_rest : ∀ r ∈ rest, e < r.1
  /-- 併合した範囲に隙間は無い -/
  covered : ∀ p, s ≤ p → p < e → (start ≤ p ∧ p < stop) ∨
    ∃ r ∈ previous, r.1 ≤ p ∧ p < rangeEnd r

theorem absorb_spec (start stop : Nat) (hle : start ≤ stop) (hw : RangesWf limit ranges) :
    Absorbed start stop ranges (absorb start stop ranges).1 (absorb start stop ranges).2.1.1
      (absorb start stop ranges).2.1.2 (absorb start stop ranges).2.2.1
      (absorb start stop ranges).2.2.2 := by
  induction ranges generalizing start stop with
  | nil =>
    exact ⟨rfl, Nat.le_refl _, fun _ h _ => h, Nat.le_refl _, fun _ h _ => h, by simp [absorb],
      by simp [absorb], by simp [absorb], by simp [absorb], fun p h1 h2 => .inl ⟨h1, h2⟩⟩
  | cons r rs ih =>
    obtain ⟨hr, hrs, hsep⟩ := rangesWf_cons.mp hw
    have hlen := length_pos_iff.mpr hr.1
    have hend : r.1 < rangeEnd r := by unfold rangeEnd; omega
    unfold absorb
    split
    · next hlt =>
      have h := ih start stop hle hrs
      have hkept := h.le_start (rangeEnd r) (Nat.le_of_lt hlt) hsep
      refine ⟨by rw [cons_append, ← h.split], h.start_le, fun l h1 h2 => ?_, h.le_stop,
        fun l h1 h2 => ?_, ?_, ?_, h.inside, h.lt_rest, h.covered⟩
      · exact h.le_start l h1 (forall_mem_cons.mp h2).2
      · exact h.stop_le l h1 (forall_mem_cons.mp h2).2
      · exact forall_mem_cons.mpr ⟨hlt, h.kept_lt⟩
      · exact forall_mem_cons.mpr ⟨hkept, h.kept_le⟩
    · next hge =>
      split
      · next hgt =>
        refine ⟨rfl, Nat.le_refl _, fun _ h _ => h, Nat.le_refl _, fun _ h _ => h, by simp,
          by simp, by simp, ?_, fun p h1 h2 => .inl ⟨h1, h2⟩⟩
        refine forall_mem_cons.mpr ⟨hgt, fun x hx => ?_⟩
        exact Nat.lt_trans hgt (Nat.lt_of_lt_of_le hend (hsep x hx))
      · next hngt =>
        have h := ih (min start r.1) (max stop (rangeEnd r)) (by omega) hrs
        -- 一度併合を始めたら、後の区間が前に残ることはない
        have hnil : (absorb (min start r.1) (max stop (rangeEnd r)) rs).1 = [] := by
          refine eq_nil_iff_forall_not_mem.mpr fun x hx => ?_
          have hmem : x ∈ rs := by rw [h.split]; exact mem_append_left _ hx
          have h1 := h.kept_lt x hx
          have h2 := hsep x hmem
          unfold rangeEnd at h1 h2 hend
          omega
        have hsplit := h.split
        rw [hnil, nil_append] at hsplit
        have hstart := h.start_le
        have hstop := h.le_stop
        refine ⟨?_, Nat.le_trans hstart (Nat.min_le_left ..), fun l h1 h2 => ?_,
          Nat.le_trans (Nat.le_max_left ..) hstop, fun l h1 h2 => ?_, ?_, ?_, ?_, h.lt_rest,
          fun p h1 h2 => ?_⟩
        · simp only [hnil, nil_append, cons_append, ← hsplit]
        · obtain ⟨h3, h4⟩ := forall_mem_cons.mp h2
          exact h.le_start l (by omega) h4
        · obtain ⟨h3, h4⟩ := forall_mem_cons.mp h2
          exact h.stop_le l (by omega) h4
        · simp [hnil]
        · simp [hnil]
        · exact forall_mem_cons.mpr ⟨⟨Nat.le_trans hstart (Nat.min_le_right ..),
            Nat.le_trans (Nat.le_max_right ..) hstop⟩, h.inside⟩
        · rcases h.covered p h1 h2 with hc | ⟨x, hx, hc⟩
          · by_cases hin : r.1 ≤ p ∧ p < rangeEnd r
            · exact .inr ⟨r, mem_cons_self .., hin⟩
            · exact .inl (by omega)
          · exact .inr ⟨x, mem_cons_of_mem _ hx, hc⟩

def writtenAt (ranges : DirtyRanges) (offset : Nat) (bytes : Bytes) (p : Nat) : Option UInt8 :=
  if offset ≤ p ∧ p < offset + bytes.length then bytes[p - offset]? else rangesAt ranges p

theorem rangeAt_mk (start : Nat) (bytes : Bytes) (p : Nat) :
    rangeAt (start, bytes) p = if start ≤ p ∧ p < start + bytes.length then bytes[p - start]?
      else none := by
  unfold rangeAt
  dsimp only
  split
  · next h =>
    split
    · rfl
    · next h' => exact getElem?_eq_none (by omega)
  · next h => rw [if_neg (by omega)]

variable {bytes : Bytes}

theorem mergeWrite_spec (hw : RangesWf limit (before ++ ranges)) (hne : bytes ≠ [])
    (hlim : offset + bytes.length ≤ limit) (hbefore : ∀ r ∈ before, rangeEnd r ≤ offset) :
    RangesWf limit (mergeWrite before ranges offset bytes).1 ∧
      ∀ p, rangesAt (mergeWrite before ranges offset bytes).1 p =
        writtenAt (before ++ ranges) offset bytes p := by
  obtain ⟨hwb, hwr, hsep⟩ := rangesWf_append.mp hw
  have hlen := length_pos_iff.mpr hne
  have h := absorb_spec offset (offset + bytes.length) (by omega) hwr
  unfold mergeWrite
  generalize absorb offset (offset + bytes.length) ranges = parts at h
  obtain ⟨kept, ⟨s, e⟩, previous, rest⟩ := parts
  simp only at h ⊢
  have hsplit := h.split
  subst hsplit
  obtain ⟨hwk, hwpr, hkpr⟩ := rangesWf_append.mp hwr
  obtain ⟨hwp, hwrest, hprest⟩ := rangesWf_append.mp hwpr
  have hs := h.start_le
  have he := h.le_stop
  have hbs : ∀ r ∈ before, rangeEnd r ≤ s := fun r hr =>
    h.le_start _ (hbefore r hr) fun x hx => hsep r hr x hx
  have hfill := fun i => fill_getElem? (List.replicate (e - s) 0) hwp.sorted h.inside
    (by simp) i
  have hflen := (hfill 0).2
  rw [length_replicate] at hflen
  generalize previous.foldl (fun buf r => overwrite buf (r.1 - s) r.2) (List.replicate (e - s) 0) =
    filled at hfill hflen
  have hmlen : (overwrite filled (offset - s) bytes).length = e - s := by
    rw [overwrite_length_of_le (by omega), hflen]
  have hend : rangeEnd (s, overwrite filled (offset - s) bytes) = e := by
    simp only [rangeEnd, hmlen]; omega
  refine ⟨?_, fun p => ?_⟩
  · rw [append_assoc, rangesWf_append, rangesWf_append, rangesWf_cons, hend]
    refine ⟨hwb, ⟨hwk, ⟨⟨?_, ?_⟩, hwrest, fun b hb => Nat.le_of_lt (h.lt_rest b hb)⟩, ?_⟩, ?_⟩
    · refine length_pos_iff.mp ?_
      simp only [hmlen]
      omega
    · exact h.stop_le limit hlim hwr.bounded
    · intro a ha b hb
      rcases mem_cons.mp hb with rfl | hb
      · exact h.kept_le a ha
      · exact hkpr a ha b (mem_append_right _ hb)
    · intro a ha b hb
      rcases mem_append.mp hb with hb | hb
      · exact hsep a ha b (mem_append_left _ hb)
      · rcases mem_cons.mp hb with rfl | hb
        · exact hbs a ha
        · exact hsep a ha b (mem_append_right _ (mem_append_right _ hb))
  · rw [rangesAt_append, rangesAt_append, rangesAt_cons, rangeAt_mk, hmlen, writtenAt]
    simp only [rangesAt_append]
    by_cases hin : s ≤ p ∧ p < e
    · have hb : rangesAt before p = none :=
        rangesAt_eq_none_iff.mpr fun r hr => .inr (Nat.le_trans (hbs r hr) hin.1)
      have hk : rangesAt kept p = none :=
        rangesAt_eq_none_iff.mpr fun r hr => .inr (Nat.le_trans (h.kept_le r hr) hin.1)
      have hr : rangesAt rest p = none :=
        rangesAt_eq_none_iff.mpr fun r hr => .inl (Nat.lt_trans hin.2 (h.lt_rest r hr))
      rw [hb, hk, hr, if_pos (by omega), overwrite_getElem? (by omega)]
      simp only [Option.none_or, Option.or_none]
      by_cases hwr : offset ≤ p ∧ p < offset + bytes.length
      · rw [if_pos (by omega), if_pos hwr]
        congr 1; omega
      · rw [if_neg (by omega), if_neg hwr, (hfill (p - s)).1, show s + (p - s) = p by omega]
        obtain ⟨x, hx, hxp⟩ := (h.covered p hin.1 hin.2).resolve_left hwr
        rw [Option.or_of_isSome]
        refine Option.isSome_iff_ne_none.mpr fun hn => ?_
        have := rangesAt_eq_none_iff.mp hn x hx
        omega
    · have hp : rangesAt previous p = none := by
        refine rangesAt_eq_none_iff.mpr fun r hr => ?_
        have := h.inside r hr
        omega
      rw [if_neg (by omega), if_neg (by omega), hp, Option.none_or]
      exact Option.or_assoc

/-! ## `AcceptWrite` と `ClipRanges` -/

theorem takeWhile_append_dropWhile_lt (ranges : DirtyRanges) (offset : Nat) :
    ranges.takeWhile (·.1 < offset) ++ ranges.dropWhile (·.1 < offset) = ranges :=
  takeWhile_append_dropWhile

theorem mem_takeWhile_lt (h : r ∈ ranges.takeWhile (·.1 < offset)) : r.1 < offset := by
  simpa using all_eq_true.mp all_takeWhile r h

theorem mem_dropWhile_lt (hw : RangesWf limit ranges) (h : r ∈ ranges.dropWhile (·.1 < offset)) :
    offset ≤ r.1 := by
  induction ranges with
  | nil => cases h
  | cons a rs ih =>
    obtain ⟨ha, hrs, hsep⟩ := rangesWf_cons.mp hw
    rw [dropWhile_cons] at h
    split at h
    · exact ih hrs h
    · next hge =>
      have hge' : offset ≤ a.1 := by simpa using hge
      rcases mem_cons.mp h with rfl | h
      · exact hge'
      · exact Nat.le_trans hge' (Nat.le_trans (Nat.le_add_right ..) (hsep r h))

theorem startsAfter_iff (hw : RangesWf limit ranges) :
    startsAfter bound ranges = true ↔ ∀ r ∈ ranges, bound < r.1 := by
  cases ranges with
  | nil => simp [startsAfter]
  | cons a rs =>
    obtain ⟨-, -, hsep⟩ := rangesWf_cons.mp hw
    simp only [startsAfter, decide_eq_true_eq, forall_mem_cons]
    refine ⟨fun h => ⟨h, fun r hr => ?_⟩, fun h => h.1⟩
    exact Nat.lt_of_lt_of_le h (Nat.le_trans (Nat.le_add_right ..) (hsep r hr))

theorem insert_spec {before after : DirtyRanges} (hw : RangesWf limit (before ++ after))
    (hne : bytes ≠ []) (hlim : offset + bytes.length ≤ limit)
    (hb : ∀ r ∈ before, rangeEnd r ≤ offset) (ha : ∀ r ∈ after, offset + bytes.length ≤ r.1) :
    RangesWf limit (before ++ (offset, bytes) :: after) ∧
      ∀ p, rangesAt (before ++ (offset, bytes) :: after) p =
        writtenAt (before ++ after) offset bytes p := by
  obtain ⟨hwb, hwa, hsep⟩ := rangesWf_append.mp hw
  refine ⟨?_, fun p => ?_⟩
  · rw [rangesWf_append, rangesWf_cons]
    refine ⟨hwb, ⟨⟨hne, hlim⟩, hwa, ha⟩, fun a hma b hmb => ?_⟩
    rcases mem_cons.mp hmb with rfl | hmb
    · exact hb a hma
    · exact hsep a hma b hmb
  · rw [writtenAt, rangesAt_append, rangesAt_cons, rangesAt_append, rangeAt_mk]
    by_cases hin : offset ≤ p ∧ p < offset + bytes.length
    · have hbn : rangesAt before p = none :=
        rangesAt_eq_none_iff.mpr fun r hr => .inr (Nat.le_trans (hb r hr) hin.1)
      have han : rangesAt after p = none :=
        rangesAt_eq_none_iff.mpr fun r hr => .inl (Nat.lt_of_lt_of_le hin.2 (ha r hr))
      rw [if_pos hin, hbn, han, Option.none_or, Option.or_none, if_pos hin]
    · rw [if_neg hin, if_neg hin, Option.none_or]

theorem replace_spec {init after : DirtyRanges} (hw : RangesWf limit (init ++ r :: after))
    (hmne : merged ≠ []) (hmlim : r.1 + merged.length ≤ limit)
    (hcover : rangeEnd r ≤ r.1 + merged.length) (hr : r.1 ≤ offset)
    (ha : ∀ x ∈ after, r.1 + merged.length ≤ x.1)
    (hstop : offset + bytes.length ≤ r.1 + merged.length)
    (hval : ∀ p, r.1 ≤ p → p < r.1 + merged.length → merged[p - r.1]? =
      if offset ≤ p ∧ p < offset + bytes.length then bytes[p - offset]? else rangeAt r p) :
    RangesWf limit (init ++ (r.1, merged) :: after) ∧
      ∀ p, rangesAt (init ++ (r.1, merged) :: after) p =
        writtenAt (init ++ r :: after) offset bytes p := by
  obtain ⟨hwi, hwra, hsep⟩ := rangesWf_append.mp hw
  obtain ⟨-, hwa, -⟩ := rangesWf_cons.mp hwra
  have hir : ∀ a ∈ init, rangeEnd a ≤ r.1 := fun a h => hsep a h r (mem_cons_self ..)
  refine ⟨?_, fun p => ?_⟩
  · rw [rangesWf_append, rangesWf_cons]
    refine ⟨hwi, ⟨⟨hmne, hmlim⟩, hwa, ha⟩, fun a hma b hmb => ?_⟩
    rcases mem_cons.mp hmb with rfl | hmb
    · exact hir a hma
    · exact hsep a hma b (mem_cons_of_mem _ hmb)
  · rw [writtenAt, rangesAt_append, rangesAt_cons, rangesAt_append, rangesAt_cons, rangeAt_mk]
    by_cases hin : r.1 ≤ p ∧ p < r.1 + merged.length
    · have hin' : rangesAt init p = none :=
        rangesAt_eq_none_iff.mpr fun x hx => .inr (Nat.le_trans (hir x hx) hin.1)
      have han : rangesAt after p = none :=
        rangesAt_eq_none_iff.mpr fun x hx => .inl (Nat.lt_of_lt_of_le hin.2 (ha x hx))
      rw [if_pos hin, hval p hin.1 hin.2, hin', han]
      simp only [Option.none_or, Option.or_none]
    · have hrn : rangeAt r p = none := rangeAt_eq_none_iff.mpr (by omega)
      rw [if_neg hin, if_neg (by omega), hrn]

theorem acceptWrite_spec (hw : RangesWf limit ranges) (hne : bytes ≠ [])
    (hlim : offset + bytes.length ≤ limit) :
    RangesWf limit (acceptWrite ranges offset bytes).1 ∧
      ∀ p, rangesAt (acceptWrite ranges offset bytes).1 p = writtenAt ranges offset bytes p := by
  have hlen := length_pos_iff.mpr hne
  have hsplit := takeWhile_append_dropWhile_lt ranges offset
  have hbefore : ∀ r ∈ ranges.takeWhile (·.1 < offset), r.1 < offset := fun r =>
    mem_takeWhile_lt
  have hafter : ∀ r ∈ ranges.dropWhile (·.1 < offset), offset ≤ r.1 := fun r =>
    mem_dropWhile_lt hw
  unfold acceptWrite
  dsimp only
  generalize ranges.takeWhile (·.1 < offset) = before at hsplit hbefore ⊢
  generalize ranges.dropWhile (·.1 < offset) = after at hsplit hafter ⊢
  subst hsplit
  obtain ⟨hwb, hwa, hsep⟩ := rangesWf_append.mp hw
  split
  · next hl =>
    obtain rfl := getLast?_eq_none_iff.mp hl
    split
    · next hs =>
      exact insert_spec hw hne hlim (by simp) fun r hr =>
        Nat.le_of_lt ((startsAfter_iff hwa).mp hs r hr)
    · exact mergeWrite_spec hw hne hlim (by simp)
  · next previous hl =>
    obtain ⟨init, rfl⟩ := getLast?_eq_some_iff.mp hl
    obtain ⟨hwi, hwp, hip⟩ := rangesWf_append.mp hwb
    have hprev : previous.1 < offset := hbefore previous (by simp)
    have hinit : ∀ r ∈ init, rangeEnd r ≤ offset := fun r hr =>
      Nat.le_of_lt (Nat.lt_of_le_of_lt (hip r hr previous (by simp)) hprev)
    rw [dropLast_concat]
    split
    · next hs =>
      refine insert_spec hw hne hlim ?_ fun r hr =>
        Nat.le_of_lt ((startsAfter_iff hwa).mp hs.1 r hr)
      intro r hr
      rcases mem_append.mp hr with hr | hr
      · exact hinit r hr
      · obtain rfl := mem_singleton.mp hr
        exact Nat.le_of_lt hs.2
    · have hw' : RangesWf limit (init ++ previous :: after) := by simpa using hw
      have heq : init ++ [previous] ++ after = init ++ previous :: after := by simp
      have hpne := hwp.nonempty previous (by simp)
      have hplim := hwp.bounded previous (by simp)
      split
      · next hs =>
        have hfar := (startsAfter_iff hwa).mp hs.2
        rw [heq]
        split
        · next hin =>
          -- 直前の区間の中の上書き
          unfold rangeEnd at hs hin hfar hplim
          have hov : (overwrite previous.2 (offset - previous.1) bytes).length =
              previous.2.length := overwrite_length_of_le (by omega)
          refine replace_spec hw' ?_ (by omega) (by unfold rangeEnd; omega)
            (by omega) (fun x hx => ?_) (by omega) fun p h1 h2 => ?_
          · refine length_pos_iff.mp ?_
            rw [hov]; exact length_pos_iff.mpr hpne
          · have := hfar x hx; omega
          · rw [overwrite_getElem? (by omega)]
            by_cases hp : offset ≤ p ∧ p < offset + bytes.length
            · rw [if_pos (by omega), if_pos hp]; congr 1; omega
            · rw [if_neg (by omega), if_neg hp, rangeAt, if_pos h1]
        · next hout =>
          -- 末尾の延長
          unfold rangeEnd at hs hout hfar hplim
          have hlen' : (previous.2.take (offset - previous.1) ++ bytes).length =
              offset - previous.1 + bytes.length := by
            rw [length_append, length_take_of_le (by omega)]
          refine replace_spec hw' ?_ (by omega) (by unfold rangeEnd; omega)
            (by omega) (fun x hx => ?_) (by omega) fun p h1 h2 => ?_
          · refine length_pos_iff.mp ?_
            rw [hlen']; omega
          · have := hfar x hx; omega
          · rw [getElem?_append, length_take_of_le (by omega)]
            by_cases hp : offset ≤ p ∧ p < offset + bytes.length
            · rw [if_neg (by omega), if_pos hp]; congr 1; omega
            · rw [if_pos (by omega), if_neg hp, getElem?_take, if_pos (by omega), rangeAt,
                if_pos h1]
      · rw [heq]
        exact mergeWrite_spec hw' hne hlim hinit

theorem clipRanges_spec (hw : RangesWf limit ranges) (size : Nat) :
    RangesWf (min limit size) (clipRanges ranges size) ∧
      ∀ p, rangesAt (clipRanges ranges size) p = if p < size then rangesAt ranges p else none := by
  have hsplit := takeWhile_append_dropWhile_lt ranges size
  have hbefore : ∀ r ∈ ranges.takeWhile (·.1 < size), r.1 < size := fun r => mem_takeWhile_lt
  have hafter : ∀ r ∈ ranges.dropWhile (·.1 < size), size ≤ r.1 := fun r => mem_dropWhile_lt hw
  unfold clipRanges
  dsimp only
  generalize ranges.takeWhile (·.1 < size) = before at hsplit hbefore ⊢
  generalize ranges.dropWhile (·.1 < size) = after at hsplit hafter ⊢
  subst hsplit
  obtain ⟨hwb, hwa, hsep⟩ := rangesWf_append.mp hw
  -- `size` より前の位置に、後ろの区間は掛からない
  have hdrop : ∀ p, p < size → rangesAt after p = none := fun p hp =>
    rangesAt_eq_none_iff.mpr fun r hr => .inl (Nat.lt_of_lt_of_le hp (hafter r hr))
  split
  · next hl =>
    obtain rfl := getLast?_eq_none_iff.mp hl
    refine ⟨rangesWf_nil _, fun p => ?_⟩
    split
    · next hp => rw [nil_append, hdrop p hp]; rfl
    · rfl
  · next last hl =>
    obtain ⟨init, rfl⟩ := getLast?_eq_some_iff.mp hl
    obtain ⟨hwi, hwl, hil⟩ := rangesWf_append.mp hwb
    have hlast : last.1 < size := hbefore last (by simp)
    have hil' : ∀ r ∈ init, rangeEnd r ≤ last.1 := fun r hr => hil r hr last (by simp)
    have hwi' : RangesWf (min limit size) init := ⟨hwi.sorted, hwi.nonempty, fun r hr =>
      Nat.le_min.mpr ⟨hwi.bounded r hr, Nat.le_trans (hil' r hr) (Nat.le_of_lt hlast)⟩⟩
    rw [dropLast_concat]
    split
    · next hclip =>
      have hlim := hwl.bounded last (by simp)
      unfold rangeEnd at hclip hlim
      have hlen : (last.2.take (size - last.1)).length = size - last.1 :=
        length_take_of_le (by omega)
      refine ⟨?_, fun p => ?_⟩
      · rw [rangesWf_append]
        refine ⟨hwi', ⟨by simp, ?_, ?_⟩, by simpa using hil'⟩
        · simp only [mem_singleton, forall_eq]
          refine length_pos_iff.mp ?_
          rw [hlen]; omega
        · simp only [mem_singleton, forall_eq, rangeEnd, hlen]
          omega
      · rw [rangesAt_append, rangesAt_append, rangesAt_append, rangesAt_cons, rangesAt_cons,
          rangeAt_mk, hlen, rangesAt_nil, Option.or_none, Option.or_none]
        by_cases hp : p < size
        · rw [if_pos hp, hdrop p hp, Option.or_none]
          congr 1
          by_cases h1 : last.1 ≤ p
          · rw [if_pos (by omega), getElem?_take, if_pos (by omega), rangeAt, if_pos h1]
          · rw [if_neg (by omega), rangeAt, if_neg h1]
        · have hin : rangesAt init p = none := rangesAt_eq_none_iff.mpr fun r hr =>
            .inr (by have := hil' r hr; omega)
          rw [if_neg hp, hin, if_neg (by omega), Option.none_or]
    · next hfit =>
      refine ⟨⟨hwb.sorted, hwb.nonempty, fun r hr => ?_⟩, fun p => ?_⟩
      · refine Nat.le_min.mpr ⟨hwb.bounded r hr, ?_⟩
        rcases mem_append.mp hr with hr | hr
        · exact Nat.le_trans (hil' r hr) (Nat.le_of_lt hlast)
        · obtain rfl := mem_singleton.mp hr
          omega
      · by_cases hp : p < size
        · rw [if_pos hp, rangesAt_append _ after, hdrop p hp, Option.or_none]
        · rw [if_neg hp]
          refine rangesAt_eq_none_iff.mpr fun r hr => .inr ?_
          rcases mem_append.mp hr with hr | hr
          · have := hil' r hr; omega
          · obtain rfl := mem_singleton.mp hr
            omega

end SwordFS.Chunk.Slice
