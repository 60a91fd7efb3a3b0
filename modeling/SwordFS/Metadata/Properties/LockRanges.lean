import SwordFS.Infra.Segments
import SwordFS.Metadata.Properties.LockTxn
import SwordFS.Metadata.Redis.LockRecord

/-!
# 範囲の集まりの更新と text

一つの owner の範囲の集まりは、byte に種類と pid を割り当てる。`UpdateRanges` は要求した区間の
割り当てを置き換え、正準な集まりを返す。割り当てが正準な集まりを一意に定めること
（`Segment.canonical_unique`）から、同じ要求を繰り返しても結果は変わらない。
-/

namespace SwordFS.Metadata.Lock

open List Infra

/-! ## 正準な集まり -/

/-- 値として保存できる範囲 -/
structure Interval.Storable (r : Interval) : Prop where
  held : r.type ≠ .unlock
  stop_le : r.stop ≤ uint64Max
  pid_nonneg : 0 ≤ r.pid
  pid_le : r.pid ≤ int32Max

/-- 整列し、重ならず、空でなく、種類と pid の等しい隣が接しない -/
structure CanonicalRanges (rs : List Interval) : Prop where
  nonempty : ∀ r ∈ rs, r.start < r.stop
  ordered : rs.Pairwise fun a b => a.stop ≤ b.start ∧ mergeable a b = false
  storable : ∀ r ∈ rs, r.Storable

theorem canonicalRanges_nil : CanonicalRanges [] where
  nonempty _ h := nomatch h
  ordered := .nil
  storable _ h := nomatch h

/-- `ValidateRange` を通る要求 -/
structure ValidRequest (request : Interval) : Prop where
  nonempty : request.start < request.stop
  stop_le : request.stop ≤ uint64Max
  pid_nonneg : 0 ≤ request.pid
  pid_le : request.pid ≤ int32Max

def lockAt (rs : List Interval) (b : Nat) : Option (PosixType × Int) :=
  (rs.find? fun r => r.start ≤ b ∧ b < r.stop).map fun r => (r.type, r.pid)

/-! ## 名札つきの区間として見る -/

def Interval.segment (r : Interval) : Segment (PosixType × Int) := ⟨r.start, r.stop, (r.type, r.pid)⟩

def segments (rs : List Interval) : List (Segment (PosixType × Int)) := rs.map Interval.segment

theorem segment_injective : Function.Injective Interval.segment := by
  rintro ⟨s, t, k, p⟩ ⟨s', t', k', p'⟩ h
  cases h
  rfl

theorem segments_injective : Function.Injective segments :=
  map_injective_iff.mpr segment_injective

theorem mergeable_iff :
    mergeable a b = true ↔ a.stop = b.start ∧ a.segment.label = b.segment.label := by
  rw [mergeable, Bool.and_eq_true, Bool.and_eq_true, beq_iff_eq, beq_iff_eq, beq_iff_eq, and_assoc]
  exact and_congr_right fun _ => Prod.mk_inj.symm

theorem before_iff :
    Segment.Before a.segment b.segment ↔ a.stop ≤ b.start ∧ mergeable a b = false := by
  rw [← Bool.not_eq_true, mergeable_iff, not_and]
  rfl

variable {rs acc ranges : List Interval}

theorem canonical_segments_iff :
    Segment.Canonical (segments rs) ↔
      (∀ r ∈ rs, r.start < r.stop) ∧
        rs.Pairwise fun a b => a.stop ≤ b.start ∧ mergeable a b = false := by
  constructor
  · rintro ⟨hne, hord⟩
    exact ⟨fun r hr => hne _ (mem_map_of_mem hr),
      (pairwise_map.mp hord).imp before_iff.mp⟩
  · rintro ⟨hne, hord⟩
    refine ⟨fun s hs => ?_, pairwise_map.mpr (hord.imp before_iff.mpr)⟩
    obtain ⟨r, hr, rfl⟩ := mem_map.mp hs
    exact hne r hr

theorem CanonicalRanges.segments (h : CanonicalRanges rs) : Segment.Canonical (segments rs) :=
  canonical_segments_iff.mpr ⟨h.nonempty, h.ordered⟩

theorem holds_segments_iff :
    Segment.Holds (segments rs) b l ↔
      ∃ r ∈ rs, (r.start ≤ b ∧ b < r.stop) ∧ (r.type, r.pid) = l := by
  constructor
  · rintro ⟨s, hs, h⟩
    obtain ⟨r, hr, rfl⟩ := mem_map.mp hs
    exact ⟨r, hr, h⟩
  · rintro ⟨r, hr, h⟩
    exact ⟨_, mem_map_of_mem hr, h⟩

/-- 正準な集まりでは、byte の割り当ては名札つきの区間としての割り当て -/
theorem lockAt_eq_some_iff (h : CanonicalRanges rs) :
    lockAt rs b = some l ↔ Segment.Holds (segments rs) b l := by
  have hfind : ∀ {l}, lockAt rs b = some l → Segment.Holds (segments rs) b l := by
    intro l hl
    obtain ⟨r, hr, hlabel⟩ := Option.map_eq_some_iff.mp hl
    have hcover := find?_some hr
    exact holds_segments_iff.mpr
      ⟨r, mem_of_find?_eq_some hr, of_decide_eq_true hcover, hlabel⟩
  refine ⟨hfind, fun hl => ?_⟩
  cases hlock : lockAt rs b with
  | none =>
    obtain ⟨r, hr, hcover, -⟩ := holds_segments_iff.mp hl
    have hnone := find?_eq_none.mp (Option.map_eq_none_iff.mp hlock) r hr
    exact absurd (decide_eq_true hcover) hnone
  | some l' => rw [h.segments.holds_unique (hfind hlock) hl]

/-! ## 更新 -/

def replaced (ranges : List Interval) (request : Interval) : List Interval :=
  (((ranges.flatMap (cutOut request) ++ (if request.type = .unlock then [] else [request])
    ).insertionSort fun a b => a.start ≤ b.start).foldl pushRange []).reverse

def WithinBudget (rs : List Interval) : Prop :=
  rs.length ≤ kMaxIntervals ∧ (encode rs).length ≤ kMaxValueBytes

theorem updateRanges_eq_ok_iff :
    updateRanges ranges request = .ok out ↔
      out = replaced ranges request ∧ WithinBudget (replaced ranges request) := by
  simp only [updateRanges, Result.bind_ok_iff, Result.failIf_ok_iff, Result.pure_ok_iff,
    exists_const, not_or, Nat.not_lt]
  exact ⟨fun h => ⟨h.2.symm, h.1⟩, fun h => ⟨h.2, h.1.symm⟩⟩

theorem segments_cutOut (request part : Interval) :
    segments (cutOut request part) = part.segment.cut request.start request.stop := by
  have hover : overlaps part request = true ↔
      part.segment.start < request.stop ∧ request.start < part.segment.stop := by
    rw [overlaps, Bool.and_eq_true, decide_eq_true_iff, decide_eq_true_iff]
    rfl
  unfold cutOut Segment.cut
  by_cases h : overlaps part request = true
  · rw [if_pos h, if_pos (hover.mp h), segments, map_append]
    congr 1
    · show _ = if part.start < request.start then _ else _
      split <;> rfl
    · show _ = if request.stop < part.stop then _ else _
      split <;> rfl
  · rw [if_neg h, if_neg (hover.not.mp h)]
    rfl

theorem segments_pushRange (acc : List Interval) (part : Interval) :
    segments (pushRange acc part) = Segment.push (segments acc) part.segment := by
  cases acc with
  | nil => rfl
  | cons last rest =>
    show segments (if mergeable last part then _ else _) = if _ then _ else _
    by_cases h : mergeable last part = true
    · rw [if_pos h, if_pos (show last.segment.stop = part.segment.start ∧ _ from mergeable_iff.mp h)]
      rfl
    · rw [if_neg h, if_neg (show ¬ (last.segment.stop = part.segment.start ∧ _) from mergeable_iff.not.mp h)]
      rfl

theorem segments_foldl_pushRange (parts acc : List Interval) :
    segments (parts.foldl pushRange acc)
      = (segments parts).foldl Segment.push (segments acc) := by
  induction parts generalizing acc with
  | nil => rfl
  | cons part parts ih =>
    rw [foldl_cons, ih, segments_pushRange]
    rfl

theorem segments_replaced (ranges : List Interval) (request : Interval) :
    segments (replaced ranges request) = Segment.normalize
      ((segments ranges).flatMap (Segment.cut request.start request.stop) ++
        if request.type = .unlock then [] else [request.segment]) := by
  have hcut : segments (ranges.flatMap (cutOut request))
      = (segments ranges).flatMap (Segment.cut request.start request.stop) := by
    rw [segments, map_flatMap, segments, flatMap_map]
    exact congrArg (List.flatMap · ranges) (funext (segments_cutOut request))
  have hadd : segments (if request.type = .unlock then [] else [request])
      = if request.type = .unlock then [] else [request.segment] := by
    split <;> rfl
  rw [replaced, segments, map_reverse, ← segments, segments_foldl_pushRange, ← hcut, ← hadd,
    Segment.normalize]
  congr 2
  have hsort := map_insertionSort (fun a b : Interval => a.start ≤ b.start)
    (fun a b : Segment (PosixType × Int) => a.start ≤ b.start) Interval.segment
    (ranges.flatMap (cutOut request) ++ if request.type = .unlock then [] else [request])
    fun _ _ _ _ => Iff.rfl
  rw [segments, hsort, map_append]
  rfl

section Update

variable {request : Interval}

section

variable (h : CanonicalRanges ranges) (hreq : ValidRequest request)
include h hreq

theorem pieces_apart :
    (∀ s ∈ (segments ranges).flatMap (Segment.cut request.start request.stop) ++
        (if request.type = .unlock then [] else [request.segment]), s.start < s.stop) ∧
    ((segments ranges).flatMap (Segment.cut request.start request.stop) ++
        (if request.type = .unlock then [] else [request.segment])).Pairwise Segment.Apart := by
  have hpiece : ∀ t ∈ (segments ranges).flatMap (Segment.cut request.start request.stop),
      t.start < t.stop ∧ (t.stop ≤ request.start ∨ request.stop ≤ t.start) := by
    intro t ht
    obtain ⟨s, hs, hst⟩ := mem_flatMap.mp ht
    exact (Segment.mem_cut (h.segments.nonempty s hs) hst).2.2.2
  have hadded : ∀ t ∈ (if request.type = .unlock then [] else [request.segment]),
      t = request.segment := by
    intro t ht
    split at ht
    · cases ht
    · exact mem_singleton.mp ht
  refine ⟨fun s hs => ?_, pairwise_append.mpr ⟨?_, ?_, fun a ha b hb => ?_⟩⟩
  · rcases mem_append.mp hs with hs | hs
    · exact (hpiece s hs).1
    · rw [hadded s hs]
      exact hreq.nonempty
  · exact (Segment.ordered_cut hreq.nonempty h.segments).imp .inl
  · split <;> simp
  · rw [hadded b hb]
    exact (hpiece a ha).2

theorem replaced_holds (b : Nat) (l : PosixType × Int) :
    Segment.Holds (segments (replaced ranges request)) b l ↔
      (Segment.Holds (segments ranges) b l ∧ ¬ (request.start ≤ b ∧ b < request.stop)) ∨
        (request.start ≤ b ∧ b < request.stop) ∧ request.type ≠ .unlock ∧
          (request.type, request.pid) = l := by
  obtain ⟨hne, hapart⟩ := pieces_apart h hreq
  rw [segments_replaced, (Segment.normalize_spec hne hapart).2, Segment.holds_append,
    Segment.holds_cut h.segments.nonempty]
  refine or_congr_right ?_
  split
  next hunlock => exact ⟨fun hnil => absurd hnil Segment.not_holds_nil, fun hb => absurd hunlock hb.2.1⟩
  next hlock =>
    rw [Segment.holds_cons, or_iff_left Segment.not_holds_nil]
    exact and_congr_right fun _ => (and_iff_right hlock).symm

theorem replaced_canonical : CanonicalRanges (replaced ranges request) := by
  obtain ⟨hne, hapart⟩ := pieces_apart h hreq
  have hcanon := (Segment.normalize_spec hne hapart).1
  rw [← segments_replaced] at hcanon
  obtain ⟨hnonempty, hordered⟩ := canonical_segments_iff.mp hcanon
  refine ⟨hnonempty, hordered, fun r hr => ?_⟩
  have hlt := hnonempty r hr
  -- 範囲の最後の byte の割り当てをたどる
  have hlast : Segment.Holds (segments (replaced ranges request)) (r.stop - 1) (r.type, r.pid) :=
    holds_segments_iff.mpr ⟨r, hr, ⟨by omega, by omega⟩, rfl⟩
  rcases (replaced_holds h hreq _ _).mp hlast with ⟨hold, -⟩ | ⟨hin, hlock, hlabel⟩
  · obtain ⟨q, hq, hcover, hlabel⟩ := holds_segments_iff.mp hold
    obtain ⟨htype, hpid⟩ := Prod.mk.inj hlabel
    have hst := h.storable q hq
    have hstop := hst.stop_le
    exact ⟨htype ▸ hst.held, by omega, hpid ▸ hst.pid_nonneg, hpid ▸ hst.pid_le⟩
  · obtain ⟨htype, hpid⟩ := Prod.mk.inj hlabel
    have hstop := hreq.stop_le
    exact ⟨htype ▸ hlock, by omega, hpid ▸ hreq.pid_nonneg, hpid ▸ hreq.pid_le⟩

theorem replaced_replaced :
    replaced (replaced ranges request) request = replaced ranges request := by
  have hcanon := replaced_canonical h hreq
  refine segments_injective (Segment.canonical_unique (replaced_canonical hcanon hreq).segments
    hcanon.segments fun b l => ?_)
  rw [replaced_holds hcanon hreq, replaced_holds h hreq]
  tauto

theorem lockAt_replaced (b : Nat) :
    lockAt (replaced ranges request) b =
      if request.start ≤ b ∧ b < request.stop then
        if request.type = .unlock then none else some (request.type, request.pid)
      else lockAt ranges b := by
  refine Option.ext fun l => ?_
  rw [lockAt_eq_some_iff (replaced_canonical h hreq), replaced_holds h hreq]
  split
  next hin =>
    split
    next hunlock => simp [hin, hunlock]
    next hlock => simp [hin, hlock]
  next hout =>
    rw [lockAt_eq_some_iff h]
    simp [hout]

end

end Update

/-! ## text -/

def rangeText (r : Interval) : List Char :=
  [if r.type = .read then 'R' else 'W', ','] ++ decimal r.start ++ [','] ++ decimal r.stop ++ [','] ++
    decimal r.pid.toNat

def bodyText : List Interval → List Char
  | [] => []
  | r :: rs => rangeText r ++ rs.flatMap fun q => '|' :: rangeText q

theorem toList_toString_pid {pid : Int} (h : 0 ≤ pid) :
    (toString pid).toList = decimal pid.toNat := by
  obtain ⟨n, rfl⟩ := Int.eq_ofNat_of_zero_le h
  exact toList_toString n

theorem toList_encode (h : ∀ r ∈ rs, 0 ≤ r.pid) :
    (encode rs).toList = ['P', '2'] ++ rs.flatMap fun r => '|' :: rangeText r := by
  have hfold : ∀ (rs : List Interval) (text : String), (∀ r ∈ rs, 0 ≤ r.pid) →
      (rs.foldl (fun text r => text ++ "|" ++ (if r.type = .read then "R" else "W") ++ "," ++
        toString r.start ++ "," ++ toString r.stop ++ "," ++ toString r.pid) text).toList
        = text.toList ++ rs.flatMap fun r => '|' :: rangeText r := by
    intro rs
    induction rs with
    | nil => exact fun text _ => (append_nil _).symm
    | cons r rs ih =>
      intro text hpid
      rw [foldl_cons, ih _ fun q hq => hpid q (mem_cons_of_mem _ hq), flatMap_cons,
        ← append_assoc]
      congr 1
      simp only [String.toList_append, toList_toString, toList_toString_pid (hpid r mem_cons_self),
        rangeText]
      split <;> simp
  exact hfold rs "P2" h

theorem toList_encode_eq_body (hne : rs ≠ []) (h : ∀ r ∈ rs, 0 ≤ r.pid) :
    (encode rs).toList = "P2|".toList ++ bodyText rs := by
  cases rs with
  | nil => exact absurd rfl hne
  | cons r rs =>
    rw [toList_encode h, flatMap_cons]
    rfl

variable {r : Interval}

theorem not_mem_rangeText : '|' ∉ rangeText r := by
  have hdigit : ∀ n, '|' ∉ decimal n := fun n => not_mem_decimal (by decide)
  have hkind : '|' ≠ if r.type = .read then 'R' else 'W' := by split <;> decide
  simp only [rangeText, mem_append, mem_cons, not_mem_nil, or_false, not_or]
  refine ⟨⟨⟨⟨⟨⟨hkind, by decide⟩, hdigit _⟩, by decide⟩, hdigit _⟩, by decide⟩, hdigit _⟩

theorem parseRangeEntry_rangeText (h : r.Storable) (hlt : r.start < r.stop) :
    parseRangeEntry (rangeText r) = some r := by
  have hcomma : ∀ n, ',' ∉ decimal n := fun n => not_mem_decimal (by decide)
  have hmax : uint64Max = 18446744073709551615 := rfl
  have hstop := h.stop_le
  have hpid := h.pid_le
  have hint : int32Max = 2147483647 := rfl
  have hnonneg := h.pid_nonneg
  have hkind : ',' ∉ [if r.type = .read then 'R' else 'W'] := by
    rw [mem_singleton]
    split <;> decide
  -- 三つの区切りで順に分ける
  have hsplit₁ : splitOnce ',' (rangeText r) = ([if r.type = .read then 'R' else 'W'],
      decimal r.start ++ ',' :: (decimal r.stop ++ ',' :: decimal r.pid.toNat)) := by
    rw [← splitOnce_append _ hkind, rangeText]
    simp
  have hsplit₂ : splitOnce ',' (decimal r.start ++ ',' :: (decimal r.stop ++ ',' :: decimal r.pid.toNat))
      = (decimal r.start, decimal r.stop ++ ',' :: decimal r.pid.toNat) :=
    splitOnce_append _ (hcomma _)
  have hsplit₃ : splitOnce ',' (decimal r.stop ++ ',' :: decimal r.pid.toNat)
      = (decimal r.stop, decimal r.pid.toNat) :=
    splitOnce_append _ (hcomma _)
  unfold parseRangeEntry
  rw [hsplit₁]
  dsimp only
  rw [hsplit₂]
  dsimp only
  rw [hsplit₃]
  dsimp only
  have hstart : parseNumber (decimal r.start) = some r.start := parseDecimal_decimal (by omega)
  have hend : parseNumber (decimal r.stop) = some r.stop := parseDecimal_decimal (by omega)
  have hholder : parseNumber (decimal r.pid.toNat) = some r.pid.toNat :=
    parseDecimal_decimal (by omega)
  rw [hstart, hend, hholder]
  dsimp only
  rw [Int.toNat_of_nonneg hnonneg]
  have hheld := h.held
  rcases r with ⟨first, last, type, pid⟩
  cases type with
  | read => rw [if_pos (by simp), if_neg (by simp_all)]; simp
  | write => rw [if_pos (by simp), if_neg (by simp_all)]; simp
  | unlock => exact absurd rfl hheld

theorem splitOnce_bodyText (r : Interval) (rs : List Interval) :
    splitOnce '|' (bodyText (r :: rs)) = (rangeText r, bodyText rs) := by
  cases rs with
  | nil =>
    show splitOnce '|' (rangeText r ++ []) = (rangeText r, [])
    rw [append_nil]
    exact splitOnce_of_not_mem not_mem_rangeText
  | cons q rs => exact splitOnce_append _ not_mem_rangeText

theorem bodyText_ne_nil (r : Interval) (rs : List Interval) : bodyText (r :: rs) ≠ [] := by
  rw [bodyText, rangeText]
  simp

theorem CanonicalRanges.check (h : CanonicalRanges (acc ++ r :: rs)) :
    (acc.getLast?.any fun p => r.start < p.stop || mergeable p r) = false := by
  rw [Option.any_eq_false]
  intro p hp
  have hmem := mem_of_getLast? hp
  have hpair := (pairwise_append.mp h.ordered).2.2 p hmem r mem_cons_self
  rw [hpair.2, Bool.or_false, decide_eq_false_iff_not]
  omega

theorem decodeLoop_bodyText : ∀ {acc : List Interval},
    CanonicalRanges (acc ++ rs) → (acc ++ rs).length ≤ kMaxIntervals →
    decodeLoop (bodyText rs) acc = .ok (acc ++ rs) := by
  induction rs with
  | nil =>
    intro acc _ _
    rw [bodyText, decodeLoop, if_pos rfl, append_nil]
  | cons r rs ih =>
    intro acc h hlen
    have hmem : r ∈ acc ++ r :: rs := mem_append_right _ mem_cons_self
    have hsplit : acc ++ r :: rs = (acc ++ [r]) ++ rs := by rw [append_assoc]; rfl
    rw [length_append, length_cons] at hlen
    rw [decodeLoop, if_neg (bodyText_ne_nil r rs), splitOnce_bodyText,
      parseRangeEntry_rangeText (h.storable r hmem) (h.nonempty r hmem)]
    dsimp only
    rw [h.check, if_neg Bool.false_ne_true, if_neg (by omega), hsplit]
    refine ih (hsplit ▸ h) ?_
    rw [length_append, length_append, length_singleton]
    omega

theorem bodyText_getLast (hne : rs ≠ []) : (bodyText rs).getLast? ≠ some '|' := by
  have hend : ∀ (rs : List Interval) (r : Interval), ∃ text n,
      bodyText (r :: rs) = text ++ decimal n := by
    intro rs
    induction rs with
    | nil =>
      intro r
      exact ⟨_, r.pid.toNat, by rw [bodyText, flatMap_nil, append_nil, rangeText]⟩
    | cons q rs ih =>
      intro r
      obtain ⟨text, n, hbody⟩ := ih q
      refine ⟨rangeText r ++ '|' :: text, n, ?_⟩
      rw [bodyText] at hbody
      rw [bodyText, flatMap_cons, cons_append, hbody, append_assoc, cons_append]
  cases rs with
  | nil => exact absurd rfl hne
  | cons r rs =>
    obtain ⟨text, n, hbody⟩ := hend rs r
    rw [hbody]
    intro hlast
    have hdigits : decimal n ≠ [] := Nat.toDigits_ne_nil
    rw [getLast?_append_of_ne_nil _ hdigits] at hlast
    exact not_mem_decimal (by decide) (mem_of_getLast? hlast)

theorem decodeText_encode (h : CanonicalRanges rs) (hne : rs ≠ [])
    (hb : WithinBudget rs) (hfresh : holder.ranges = []) :
    decodeText (encode rs).toList false holder = .ok { holder with ranges := rs } := by
  have htext := toList_encode_eq_body hne fun r hr => (h.storable r hr).pid_nonneg
  have hbody : bodyText rs ≠ [] := by
    cases rs with
    | nil => exact absurd rfl hne
    | cons r rs => exact bodyText_ne_nil r rs
  have hsize : ¬ kMaxValueBytes < (encode rs).toList.length := by
    rw [String.length_toList]
    exact Nat.not_lt.mpr hb.2
  have hversion : ¬ ("P2|".toList ++ bodyText rs).take 3 ≠ "P2|".toList := not_not.mpr rfl
  have hdrop : ("P2|".toList ++ bodyText rs).drop 3 = bodyText rs := rfl
  rw [decodeText, if_neg hsize, if_neg Bool.false_ne_true, htext, if_neg hversion, hdrop, hfresh]
  dsimp only
  have hloop : decodeLoop (bodyText rs) [] = .ok ([] ++ rs) := decodeLoop_bodyText h hb.1
  rw [if_neg (not_or.mpr ⟨hbody, bodyText_getLast hne⟩), hloop]
  rfl

/-! ## 読める集まり -/

theorem parseRangeEntry_spec (h : parseRangeEntry entry = some r) :
    r.Storable ∧ r.start < r.stop := by
  unfold parseRangeEntry at h
  dsimp only at h
  split at h
  next hkind =>
    split at h
    next first last pid hfirst hlast hpid =>
      split at h
      next => cases h
      next hok =>
        obtain ⟨hle, hlt⟩ := not_or.mp hok
        cases h
        have hmax : uint64Max = 18446744073709551615 := rfl
        have hlimit := parseDecimal_lt hlast
        refine ⟨⟨?_, ?_, Int.natCast_nonneg _, not_lt.mp hle⟩, Nat.lt_of_not_le hlt⟩
        · show (if _ then PosixType.read else PosixType.write) ≠ _
          split <;> decide
        · show last ≤ uint64Max
          omega
    next => cases h
  next => cases h

theorem CanonicalRanges.snoc (h : CanonicalRanges acc) (hr : r.Storable) (hlt : r.start < r.stop)
    (hcheck : ¬ (acc.getLast?.any fun p => r.start < p.stop || mergeable p r) = true) :
    CanonicalRanges (acc ++ [r]) := by
  have hpair : ∀ a ∈ acc, a.stop ≤ r.start ∧ mergeable a r = false := by
    rcases eq_nil_or_concat acc with rfl | ⟨front, p, rfl⟩
    · exact fun a ha => nomatch ha
    · rw [concat_eq_append] at h hcheck ⊢
      rw [getLast?_concat, Option.any_some, Bool.or_eq_true, not_or, decide_eq_true_iff,
        Bool.not_eq_true] at hcheck
      obtain ⟨hle, hmerge⟩ := hcheck
      intro a ha
      rcases mem_append.mp ha with ha | ha
      · -- 間に空でない `p` があるので接しない
        have hap := ((pairwise_append.mp h.ordered).2.2 a ha p (mem_singleton_self _)).1
        have hp := h.nonempty p (mem_append_right _ (mem_singleton_self _))
        refine ⟨by omega, Bool.eq_false_iff.mpr fun hm => ?_⟩
        have := (mergeable_iff.mp hm).1
        omega
      · rw [mem_singleton.mp ha]
        exact ⟨Nat.le_of_not_lt hle, hmerge⟩
  refine ⟨?_, ?_, ?_⟩
  · rw [forall_mem_append]
    exact ⟨h.nonempty, fun a ha => mem_singleton.mp ha ▸ hlt⟩
  · refine pairwise_append.mpr ⟨h.ordered, pairwise_singleton _ _, fun a ha b hb => ?_⟩
    rw [mem_singleton.mp hb]
    exact hpair a ha
  · rw [forall_mem_append]
    exact ⟨h.storable, fun a ha => mem_singleton.mp ha ▸ hr⟩

theorem decodeLoop_canonical (h : CanonicalRanges acc)
    (hd : decodeLoop data acc = .ok out) : CanonicalRanges out := by
  fun_induction decodeLoop data acc with
  | case1 acc =>
    cases hd
    exact h
  | case2 | case3 | case4 => cases hd
  | case5 acc data hne r hr hcheck hlen ih =>
    obtain ⟨hst, hlt⟩ := parseRangeEntry_spec hr
    exact ih (h.snoc hst hlt hcheck) hd

theorem decodeText_canonical (hfresh : holder.ranges = [])
    (h : decodeText data false holder = .ok out) : CanonicalRanges out.ranges := by
  unfold decodeText at h
  split at h
  · cases h
  · rw [if_neg Bool.false_ne_true] at h
    split at h
    · cases h
    · dsimp only at h
      split at h
      · cases h
      · obtain ⟨ranges, hloop, rfl⟩ := Result.map_ok_iff.mp h
        rw [hfresh] at hloop
        exact decodeLoop_canonical canonicalRanges_nil hloop

/-! ## 型のある値との対応 -/

theorem decodeRanges_ok : ∀ {acc : List Interval},
    CanonicalRanges (acc ++ rs) → (acc ++ rs).length ≤ kMaxIntervals →
    decodeRanges acc.getLast? acc.length rs = .ok () := by
  induction rs with
  | nil => exact fun _ _ => rfl
  | cons r rs ih =>
    intro acc h hlen
    have hmem : r ∈ acc ++ r :: rs := mem_append_right _ mem_cons_self
    have hst := h.storable r hmem
    have hlt := h.nonempty r hmem
    have hsplit : acc ++ r :: rs = (acc ++ [r]) ++ rs := by rw [append_assoc]; rfl
    have hrest := ih (hsplit ▸ h) (hsplit ▸ hlen)
    rw [getLast?_concat, length_append, length_singleton] at hrest
    rw [length_append, length_cons] at hlen
    have hpid₁ := hst.pid_nonneg
    have hpid₂ := hst.pid_le
    simp only [decodeRanges, Result.bind_ok_iff, Result.failIf_ok_iff, exists_const]
    refine ⟨?_, ?_, by omega, hrest⟩
    · simp only [not_or]
      exact ⟨hst.held, by omega, by omega, by omega⟩
    · rw [h.check]
      exact Bool.false_ne_true

theorem decode_eq_decodeText (h : CanonicalRanges rs) (hne : rs ≠ [])
    (hb : WithinBudget rs) (hfresh : holder.ranges = []) :
    decode false (.posix rs) holder = decodeText (encode rs).toList false holder := by
  have hranges : decodeRanges ([] : List Interval).getLast? 0 rs = .ok () := decodeRanges_ok h hb.1
  rw [decodeText_encode h hne hb hfresh, decode]
  simp only [Result.bind_ok_iff, Result.failIf_ok_iff, Result.pure_ok_iff, exists_const]
  exact ⟨Nat.not_lt.mpr hb.2, hne, (), hranges, trivial⟩

/-! ## 結論 -/

/--
`UpdateRanges` は、成功すれば要求した区間の割り当てだけを置き換え、正準な集まりを返し、同じ要求の
繰り返しで変わらない。空でない正準な集まりは、予算に収まれば書いた text から読み戻せ、読める集まりは
正準なものに限る。
-/
theorem update_ranges_replaces :
    (∀ ranges request out, CanonicalRanges ranges → ValidRequest request →
      updateRanges ranges request = .ok out →
        (∀ b, lockAt out b =
          if request.start ≤ b ∧ b < request.stop then
            if request.type = .unlock then none else some (request.type, request.pid)
          else lockAt ranges b) ∧
        CanonicalRanges out ∧ updateRanges out request = .ok out) ∧
    (∀ ranges (holder : Holder), CanonicalRanges ranges → ranges ≠ [] → WithinBudget ranges →
      holder.ranges = [] →
      decodeText (encode ranges).toList false holder = .ok { holder with ranges := ranges }) ∧
    (∀ data (holder out : Holder), holder.ranges = [] → decodeText data false holder = .ok out →
      CanonicalRanges out.ranges) := by
  refine ⟨fun ranges request out h hreq hok => ?_, fun ranges holder h hne hb hfresh => ?_,
    fun _ _ _ => decodeText_canonical⟩
  · obtain ⟨rfl, hbudget⟩ := updateRanges_eq_ok_iff.mp hok
    refine ⟨lockAt_replaced h hreq, replaced_canonical h hreq, ?_⟩
    rw [updateRanges_eq_ok_iff, replaced_replaced h hreq]
    exact ⟨rfl, hbudget⟩
  · exact decodeText_encode h hne hb hfresh

/-- `[0, 10)` の読みの lock の中ほどを書きの lock に替える -/
theorem update_ranges_replaces_split :
    lockAt [⟨0, 3, .read, 1⟩, ⟨3, 5, .write, 2⟩, ⟨5, 10, .read, 1⟩] 4 = some (.write, 2) ∧
    CanonicalRanges [⟨0, 3, .read, 1⟩, ⟨3, 5, .write, 2⟩, ⟨5, 10, .read, 1⟩] := by
  have hcanon : CanonicalRanges [⟨0, 10, .read, 1⟩] :=
    ⟨by decide, by decide, fun r hr => by
      rw [mem_singleton.mp hr]
      exact ⟨by decide, by decide, by decide, by decide⟩⟩
  obtain ⟨hbytes, hout, -⟩ := update_ranges_replaces.1 [⟨0, 10, .read, 1⟩] ⟨3, 5, .write, 2⟩
    [⟨0, 3, .read, 1⟩, ⟨3, 5, .write, 2⟩, ⟨5, 10, .read, 1⟩] hcanon
    ⟨by decide, by decide, by decide, by decide⟩ rfl
  exact ⟨hbytes 4, hout⟩

/-- 空の集まりは正準だが、書いた text は読み戻せない -/
theorem empty_ranges_not_recovered :
    CanonicalRanges [] ∧ WithinBudget [] ∧
    decodeText (encode []).toList false { generation := 1, kernelOwner := 0 }
      = .error (.malformed "invalid POSIX lock record version") :=
  ⟨canonicalRanges_nil, ⟨by decide, by decide⟩, rfl⟩

end SwordFS.Metadata.Lock
