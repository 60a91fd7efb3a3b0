import Mathlib.Data.List.Sort

/-!
# 名札つきの区間の集まり

半開区間に名札を付けたものの列で、自然数の一部に名札を割り当てる。同じ割り当てを表す列は多いが、
整列し、重ならず、同じ名札で接する隣が無い列（`Canonical`）はただ一つである。
-/

namespace SwordFS.Infra

open List

/-- 区間 `[start, stop)` と名札 -/
structure Segment (α : Type) where
  start : Nat
  stop : Nat
  label : α
deriving DecidableEq, Repr

namespace Segment

variable {α : Type}

/-- 区間が `b` を含む -/
def Covers (s : Segment α) (b : Nat) : Prop := s.start ≤ b ∧ b < s.stop

/-- 列が `b` に名札 `l` を割り当てる -/
def Holds (ss : List (Segment α)) (b : Nat) (l : α) : Prop := ∃ s ∈ ss, s.Covers b ∧ s.label = l

/-- 二つの区間が重ならない -/
def Apart (a b : Segment α) : Prop := a.stop ≤ b.start ∨ b.stop ≤ a.start

/-- 前の区間が後の区間に先立ち、同じ名札で接することは無い -/
def Before (a b : Segment α) : Prop := a.stop ≤ b.start ∧ (a.stop = b.start → a.label ≠ b.label)

/-- 整列し、重ならず、空でなく、同じ名札で接する隣が無い -/
structure Canonical (ss : List (Segment α)) : Prop where
  nonempty : ∀ s ∈ ss, s.start < s.stop
  ordered : ss.Pairwise Before

variable {s : Segment α} {ss : List (Segment α)}

theorem Canonical.tail (h : Canonical (s :: ss)) : Canonical ss :=
  ⟨fun t ht => h.nonempty t (mem_cons_of_mem _ ht), (pairwise_cons.mp h.ordered).2⟩

variable {b lo hi : Nat} {l : α}

theorem not_holds_nil : ¬ Holds [] b l := by
  rintro ⟨_, hnil, -⟩
  cases hnil

theorem holds_cons : Holds (s :: ss) b l ↔ (s.Covers b ∧ s.label = l) ∨ Holds ss b l :=
  exists_mem_cons_iff ..

theorem holds_append : Holds (xs ++ ys) b l ↔ Holds xs b l ∨ Holds ys b l := by
  constructor
  · rintro ⟨s, hs, h⟩
    exact (mem_append.mp hs).imp (fun hx => ⟨s, hx, h⟩) fun hy => ⟨s, hy, h⟩
  · rintro (⟨s, hs, h⟩ | ⟨s, hs, h⟩)
    · exact ⟨s, mem_append_left _ hs, h⟩
    · exact ⟨s, mem_append_right _ hs, h⟩

theorem holds_congr (h : ∀ s, s ∈ xs ↔ s ∈ ys) : Holds xs b l ↔ Holds ys b l :=
  exists_congr fun s => by rw [h]

/-! ## 一意性 -/

section Unique

variable {s t : Segment α} {ss ts : List (Segment α)}

section

variable (h : Canonical (s :: ss))
include h

theorem Canonical.start_le (hb : Holds (s :: ss) b l) : s.start ≤ b := by
  rcases holds_cons.mp hb with ⟨hc, -⟩ | ⟨t, ht, hc, -⟩
  · exact hc.1
  · have hst := ((pairwise_cons.mp h.ordered).1 t ht).1
    exact (h.nonempty s mem_cons_self).le.trans (hst.trans hc.1)

theorem Canonical.stop_le (hb : Holds ss b l) : s.stop ≤ b := by
  obtain ⟨t, ht, hc, -⟩ := hb
  exact ((pairwise_cons.mp h.ordered).1 t ht).1.trans hc.1

theorem Canonical.holds_start : Holds (s :: ss) s.start s.label :=
  holds_cons.mpr (.inl ⟨⟨le_rfl, h.nonempty s mem_cons_self⟩, rfl⟩)

theorem Canonical.label_eq (hlt : b < s.stop) (hb : Holds (s :: ss) b l) : s.label = l := by
  rcases holds_cons.mp hb with ⟨-, hl⟩ | hrest
  · exact hl
  · exact absurd (h.stop_le hrest) (Nat.not_le.mpr hlt)

/-- 先頭の区間の名札は、その終わりの位置までで途切れる -/
theorem Canonical.not_holds_stop : ¬ Holds (s :: ss) s.stop s.label := by
  intro hb
  rcases holds_cons.mp hb with ⟨hc, -⟩ | ⟨t, ht, hc, hl⟩
  · exact absurd hc.2 (Nat.lt_irrefl _)
  · have hst := (pairwise_cons.mp h.ordered).1 t ht
    exact hst.2 (le_antisymm hst.1 hc.1) hl.symm

end

/-- 先頭の区間は割り当てから定まる。片側の不等号 -/
theorem Canonical.stop_le_stop (hs : Canonical (s :: ss)) (hstart : s.start = t.start)
    (hlabel : s.label = t.label) (h : ∀ b l, Holds (s :: ss) b l ↔ Holds (t :: ts) b l) : t.stop ≤ s.stop := by
  by_contra hlt
  -- `s` が終わる位置はまだ `t` の中にある
  have hcover : Holds (t :: ts) s.stop s.label := by
    refine holds_cons.mpr (.inl ⟨⟨?_, Nat.lt_of_not_le hlt⟩, hlabel.symm⟩)
    rw [← hstart]
    exact (hs.nonempty s mem_cons_self).le
  exact hs.not_holds_stop ((h _ _).mpr hcover)

theorem Canonical.head_eq (hs : Canonical (s :: ss)) (ht : Canonical (t :: ts))
    (h : ∀ b l, Holds (s :: ss) b l ↔ Holds (t :: ts) b l) : s = t := by
  have hstart : s.start = t.start :=
    le_antisymm (hs.start_le ((h _ _).mpr ht.holds_start)) (ht.start_le ((h _ _).mp hs.holds_start))
  have hlabel : s.label = t.label := by
    refine (ht.label_eq ?_ ((h _ _).mp hs.holds_start)).symm
    rw [hstart]
    exact ht.nonempty t mem_cons_self
  have hstop : s.stop = t.stop := le_antisymm
    (ht.stop_le_stop hstart.symm hlabel.symm fun b l => (h b l).symm)
    (hs.stop_le_stop hstart hlabel h)
  cases s
  cases t
  cases hstart
  cases hlabel
  cases hstop
  rfl

theorem Canonical.holds_unique (h : Canonical ss) (hl : Holds ss b l)
    (hl' : Holds ss b l') : l = l' := by
  induction ss with
  | nil => exact absurd hl not_holds_nil
  | cons s ss ih =>
    by_cases hlt : b < s.stop
    · rw [← h.label_eq hlt hl, h.label_eq hlt hl']
    · have hrest : ∀ {k}, Holds (s :: ss) b k → Holds ss b k := fun hk =>
        (holds_cons.mp hk).resolve_left fun hc => hlt hc.1.2
      exact ih h.tail (hrest hl) (hrest hl')

theorem Canonical.holds_tail (hs : Canonical (s :: ss))
    (h : ∀ b l, Holds (s :: ss) b l ↔ Holds (s :: ts) b l) (b : Nat) (l : α) :
    Holds ss b l → Holds ts b l := by
  intro hb
  have hge := hs.stop_le hb
  rcases holds_cons.mp ((h b l).mp (holds_cons.mpr (.inr hb))) with ⟨hc, -⟩ | hrest
  · exact absurd hc.2 (Nat.not_lt.mpr hge)
  · exact hrest

end Unique

/-- 割り当てが等しい正準な列は等しい -/
theorem canonical_unique : ∀ {ss ts : List (Segment α)}, Canonical ss → Canonical ts →
    (∀ b l, Holds ss b l ↔ Holds ts b l) → ss = ts := by
  intro ss
  induction ss with
  | nil =>
    intro ts _ ht h
    cases ts with
    | nil => rfl
    | cons t ts =>
      exact absurd ((h _ _).mpr ht.holds_start) not_holds_nil
  | cons s ss ih =>
    intro ts hs ht h
    cases ts with
    | nil =>
      exact absurd ((h _ _).mp hs.holds_start) not_holds_nil
    | cons t ts =>
      obtain rfl := hs.head_eq ht h
      rw [ih hs.tail ht.tail fun b l =>
        ⟨hs.holds_tail h b l, ht.holds_tail (fun b l => (h b l).symm) b l⟩]

/-! ## 切り抜き -/

/-- `s` から `[lo, hi)` を除いた残り -/
def cut (lo hi : Nat) (s : Segment α) : List (Segment α) :=
  if s.start < hi ∧ lo < s.stop then
    (if s.start < lo then [{ s with stop := lo }] else []) ++
      (if hi < s.stop then [{ s with start := hi }] else [])
  else [s]

theorem mem_cut (hs : s.start < s.stop) (ht : t ∈ s.cut lo hi) :
    t.label = s.label ∧ s.start ≤ t.start ∧ t.stop ≤ s.stop ∧ t.start < t.stop ∧
      (t.stop ≤ lo ∨ hi ≤ t.start) := by
  unfold cut at ht
  split at ht
  next hover =>
    rcases mem_append.mp ht with hleft | hright
    · split at hleft
      next hlt =>
        rw [mem_singleton.mp hleft]
        exact ⟨rfl, le_rfl, hover.2.le, hlt, .inl le_rfl⟩
      next => cases hleft
    · split at hright
      next hlt =>
        rw [mem_singleton.mp hright]
        exact ⟨rfl, hover.1.le, le_rfl, hlt, .inr le_rfl⟩
      next => cases hright
  next hapart =>
    rw [mem_singleton.mp ht]
    exact ⟨rfl, le_rfl, le_rfl, hs, by omega⟩

theorem covers_cut : (∃ t ∈ s.cut lo hi, t.Covers b) ↔ s.Covers b ∧ ¬ (lo ≤ b ∧ b < hi) := by
  unfold cut
  split
  next hover =>
    constructor
    · rintro ⟨t, ht, hc⟩
      rcases mem_append.mp ht with hleft | hright
      · split at hleft
        next =>
          cases mem_singleton.mp hleft
          exact ⟨⟨hc.1, hc.2.trans hover.2⟩, fun hb => absurd hc.2 (Nat.not_lt.mpr hb.1)⟩
        next => cases hleft
      · split at hright
        next =>
          cases mem_singleton.mp hright
          exact ⟨⟨hover.1.le.trans hc.1, hc.2⟩, fun hb => absurd hc.1 (Nat.not_le.mpr hb.2)⟩
        next => cases hright
    · rintro ⟨hc, hb⟩
      by_cases hleft : b < lo
      · refine ⟨{ s with stop := lo }, mem_append_left _ ?_, hc.1, hleft⟩
        rw [if_pos (hc.1.trans_lt hleft)]
        exact mem_singleton_self _
      · have hright : hi ≤ b := Nat.le_of_not_lt fun hbi => hb ⟨Nat.le_of_not_lt hleft, hbi⟩
        refine ⟨{ s with start := hi }, mem_append_right _ ?_, hright, hc.2⟩
        rw [if_pos (hright.trans_lt hc.2)]
        exact mem_singleton_self _
  next hapart =>
    constructor
    · rintro ⟨t, ht, hc⟩
      cases mem_singleton.mp ht
      refine ⟨hc, fun hb => hapart ⟨hc.1.trans_lt hb.2, hb.1.trans_lt hc.2⟩⟩
    · rintro ⟨hc, -⟩
      exact ⟨s, mem_singleton_self _, hc⟩

/-- 切り抜いた後の割り当て。切り抜いた区間の外では変わらない -/
theorem holds_cut (hss : ∀ s ∈ ss, s.start < s.stop) :
    Holds (ss.flatMap (cut lo hi)) b l ↔ Holds ss b l ∧ ¬ (lo ≤ b ∧ b < hi) := by
  constructor
  · rintro ⟨t, ht, hc, hl⟩
    obtain ⟨s, hs, hst⟩ := mem_flatMap.mp ht
    obtain ⟨hcover, hout⟩ := covers_cut.mp ⟨t, hst, hc⟩
    exact ⟨⟨s, hs, hcover, (mem_cut (hss s hs) hst).1.symm.trans hl⟩, hout⟩
  · rintro ⟨⟨s, hs, hc, hl⟩, hout⟩
    obtain ⟨t, ht, htc⟩ := covers_cut.mpr ⟨hc, hout⟩
    exact ⟨t, mem_flatMap.mpr ⟨s, hs, ht⟩, htc, (mem_cut (hss s hs) ht).1.trans hl⟩

theorem ordered_cut (hlt : lo < hi) (h : Canonical ss) :
    (ss.flatMap (cut lo hi)).Pairwise fun a b => a.stop ≤ b.start := by
  refine pairwise_flatMap.mpr ⟨fun s hs => ?_, ?_⟩
  · unfold cut
    split
    next =>
      refine pairwise_append.mpr ⟨?_, ?_, fun a ha b hb => ?_⟩
      · split <;> simp
      · split <;> simp
      · split at ha
        next =>
          split at hb
          next =>
            cases mem_singleton.mp ha
            cases mem_singleton.mp hb
            exact hlt.le
          next => cases hb
        next => cases ha
    next => exact pairwise_singleton _ _
  · refine h.ordered.imp_of_mem fun {s t} hs ht hbefore x hx y hy => ?_
    have hxs := (mem_cut (h.nonempty s hs) hx).2.2.1
    have hyt := (mem_cut (h.nonempty t ht) hy).2.1
    exact hxs.trans (hbefore.1.trans hyt)

/-! ## 整列と併合 -/

/-- 逆順に持つ正準な列 -/
structure Stacked (acc : List (Segment α)) : Prop where
  nonempty : ∀ s ∈ acc, s.start < s.stop
  ordered : acc.Pairwise fun a b => Before b a

theorem Stacked.reverse (h : Stacked acc) : Canonical acc.reverse :=
  ⟨fun s hs => h.nonempty s (mem_reverse.mp hs), pairwise_reverse.mpr h.ordered⟩

section Merge

variable [DecidableEq α]

/-- 直前の区間に続けられるなら伸ばし、そうでなければ新しく積む。列は逆順に持つ -/
def push : List (Segment α) → Segment α → List (Segment α)
  | [], s => [s]
  | last :: rest, s =>
    if last.stop = s.start ∧ last.label = s.label then { last with stop := s.stop } :: rest
    else s :: last :: rest

/-- 一つ積んだ後も正準で、割り当てには積んだ区間の分だけが加わる -/
theorem Stacked.push (h : Stacked acc)
    (hs : s.start < s.stop) (hafter : ∀ a ∈ acc, a.stop ≤ s.start) :
    Stacked (push acc s) ∧ (∀ a ∈ push acc s, a.stop ≤ s.stop) ∧
      ∀ b l, Holds (push acc s) b l ↔ Holds acc b l ∨ (s.Covers b ∧ s.label = l) := by
  cases acc with
  | nil =>
    refine ⟨⟨?_, pairwise_singleton _ _⟩, ?_, fun b l => ?_⟩
    · rintro a ha
      rwa [mem_singleton.mp ha]
    · rintro a ha
      rw [mem_singleton.mp ha]
    · show Holds [s] b l ↔ _
      rw [holds_cons, or_comm]
  | cons last rest =>
    obtain ⟨hlast, hrest⟩ := pairwise_cons.mp h.ordered
    have hne := h.nonempty last mem_cons_self
    rw [Segment.push]
    split
    next hjoin =>
      refine ⟨⟨?_, pairwise_cons.mpr ⟨hlast, hrest⟩⟩, ?_, fun b l => ?_⟩
      · intro a ha
        rcases mem_cons.mp ha with rfl | ha
        · show last.start < s.stop
          omega
        · exact h.nonempty a (mem_cons_of_mem _ ha)
      · intro a ha
        rcases mem_cons.mp ha with rfl | ha
        · exact le_rfl
        · exact (hafter a (mem_cons_of_mem _ ha)).trans hs.le
      · rw [holds_cons, holds_cons, or_right_comm]
        refine or_congr_left ?_
        show (last.start ≤ b ∧ b < s.stop) ∧ last.label = l ↔
          (last.start ≤ b ∧ b < last.stop) ∧ last.label = l ∨
            (s.start ≤ b ∧ b < s.stop) ∧ s.label = l
        rw [← hjoin.2, ← or_and_right]
        refine and_congr_left fun _ => ?_
        omega
    next hsplit =>
      refine ⟨⟨?_, pairwise_cons.mpr ⟨fun a ha => ?_, h.ordered⟩⟩, ?_, fun b l => ?_⟩
      · exact forall_mem_cons.mpr ⟨hs, h.nonempty⟩
      · refine ⟨hafter a ha, fun hjoin hl => ?_⟩
        rcases mem_cons.mp ha with rfl | ha
        · exact hsplit ⟨hjoin, hl⟩
        · -- 二つ前の区間は、間に一つ挟むので接しない
          have hgap := (hlast a ha).1
          have hnear := hafter last mem_cons_self
          omega
      · intro a ha
        rcases mem_cons.mp ha with rfl | ha
        · exact le_rfl
        · exact (hafter a ha).trans hs.le
      · rw [holds_cons, or_comm]

theorem Stacked.foldl : ∀ {acc : List (Segment α)}, Stacked acc →
    (∀ s ∈ ss, s.start < s.stop) → (ss.Pairwise fun a b => a.stop ≤ b.start) →
    (∀ a ∈ acc, ∀ s ∈ ss, a.stop ≤ s.start) →
    Stacked (ss.foldl Segment.push acc) ∧
      ∀ b l, Holds (ss.foldl Segment.push acc) b l ↔ Holds acc b l ∨ Holds ss b l := by
  induction ss with
  | nil =>
    intro acc h _ _ _
    exact ⟨h, fun b l => (or_iff_left not_holds_nil).symm⟩
  | cons s ss ih =>
    intro acc h hne hord hafter
    obtain ⟨hfirst, hrest⟩ := pairwise_cons.mp hord
    obtain ⟨hpush, hstop, hholds⟩ := h.push (hne s mem_cons_self)
      fun a ha => hafter a ha s mem_cons_self
    obtain ⟨hfold, hsame⟩ := ih hpush (fun t ht => hne t (mem_cons_of_mem _ ht)) hrest
      fun a ha t ht => (hstop a ha).trans (hfirst t ht)
    refine ⟨hfold, fun b l => ?_⟩
    rw [foldl_cons, hsame, hholds, holds_cons, or_assoc]

/-- 開始位置で整列し、接する区間を併合する -/
def normalize (ss : List (Segment α)) : List (Segment α) :=
  ((ss.insertionSort fun a b => a.start ≤ b.start).foldl push []).reverse

/-- 重ならない区間の集まりを正規化すると、正準な列になり、割り当ては変わらない -/
theorem normalize_spec (hne : ∀ s ∈ ss, s.start < s.stop) (hapart : ss.Pairwise Apart) :
    Canonical (normalize ss) ∧ ∀ b l, Holds (normalize ss) b l ↔ Holds ss b l := by
  have hperm := perm_insertionSort (fun a b : Segment α => a.start ≤ b.start) ss
  have hsorted : (ss.insertionSort fun a b => a.start ≤ b.start).Pairwise
      fun a b => a.start ≤ b.start := by
    have : Std.Total fun a b : Segment α => a.start ≤ b.start := ⟨fun _ _ => Nat.le_total ..⟩
    have : IsTrans (Segment α) fun a b => a.start ≤ b.start := ⟨fun _ _ _ => Nat.le_trans⟩
    exact pairwise_insertionSort _ ss
  have hsymm : ∀ {a b : Segment α}, Apart a b → Apart b a := Or.symm
  have hsapart := (hperm.pairwise_iff hsymm).mpr hapart
  have hsne : ∀ s ∈ ss.insertionSort fun a b => a.start ≤ b.start, s.start < s.stop :=
    fun s hs => hne s (hperm.mem_iff.mp hs)
  have hord : (ss.insertionSort fun a b => a.start ≤ b.start).Pairwise
      fun a b => a.stop ≤ b.start := by
    refine (hsorted.and hsapart).imp_of_mem fun {a b} _ hb ⟨hle, hab⟩ => hab.resolve_right ?_
    have := hsne b hb
    omega
  have hbase : Stacked ([] : List (Segment α)) := ⟨nofun, .nil⟩
  obtain ⟨hstack, hholds⟩ := hbase.foldl hsne hord nofun
  refine ⟨hstack.reverse, fun b l => ?_⟩
  rw [normalize, holds_congr fun s => mem_reverse, hholds, holds_congr fun s => hperm.mem_iff,
    or_iff_right not_holds_nil]

end Merge

end Segment

end SwordFS.Infra
