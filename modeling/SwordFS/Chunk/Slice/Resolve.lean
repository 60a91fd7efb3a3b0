import SwordFS.Infra.Overlay
import SwordFS.Chunk.Slice.Record

/-!
# record の解決の正しさ

`ResolveRange` が返す区間の各位置が、その位置を覆う最も新しい record の byte を指すことを示す。
-/

namespace SwordFS.Chunk.Slice

open List Infra Metadata

/-! ## 位置ごとの内容 -/

def objectByte (objects : SliceID → Option Bytes) (id : SliceID) (off : Nat) : UInt8 :=
  if id = 0 then 0 else ((objects id).getD []).getD off 0

def recordAt (objects : SliceID → Option Bytes) (r : SliceRecord) (q : Nat) : Option UInt8 :=
  if r.pos ≤ q ∧ q < r.pos + r.len then some (objectByte objects r.id (r.off + (q - r.pos)))
  else none

/-- 古い順の record の列が表す内容。どの record にも覆われない位置は零 -/
def resolveAt (objects : SliceID → Option Bytes) (records : List SliceRecord) (q : Nat) : UInt8 :=
  (overlay (records.map (recordAt objects)) q).getD 0

def ResolvedSlice.Covers (s : ResolvedSlice) (q : Nat) : Prop := s.pos ≤ q ∧ q < s.pos + s.len

def ResolvedSlice.byteAt (objects : SliceID → Option Bytes) (s : ResolvedSlice) (q : Nat) :
    UInt8 := objectByte objects s.id (s.off + (q - s.pos))

/-- 区間が、`records` のどれかの object の範囲に収まる -/
def ResolvedSlice.Within (records : List SliceRecord) (s : ResolvedSlice) : Prop :=
  s.id ≠ 0 → ∃ r ∈ records, r.id = s.id ∧ s.off + s.len ≤ r.off + r.len

/-- 区間の列 `spans` が `dom` の上の内容 `val` を正しく表す -/
structure SpansFor (objects : SliceID → Option Bytes) (records : List SliceRecord)
    (dom : Nat → Prop) (val : Nat → UInt8) (spans : List ResolvedSlice) : Prop where
  inside : ∀ s ∈ spans, ∀ q, s.Covers q → dom q
  value : ∀ s ∈ spans, ∀ q, s.Covers q → s.byteAt objects q = val q
  cover : ∀ q, dom q → ∃ s ∈ spans, s.Covers q
  within : ∀ s ∈ spans, s.Within records

variable {r : SliceRecord} {cs q : Nat}

theorem validateRecord_ok_iff :
    validateRecord r cs = .ok u ↔ 0 < r.len ∧ r.pos + r.len ≤ cs ∧
      (r.id = 0 → r.size = 0 ∧ r.off = 0) ∧
      (r.id ≠ 0 → r.id ≤ kMaxChunkIDValue ∧ r.off + r.len ≤ r.size) := by
  unfold validateRecord
  split
  · next h => exact ⟨(nomatch ·), fun h' => by omega⟩
  · next h =>
    split
    · next h0 =>
      split
      · next hz => exact ⟨(nomatch ·), fun h' => by have := h'.2.2.1 h0; omega⟩
      · next hz => exact ⟨fun _ => ⟨by omega, by omega, fun _ => by omega, fun hn => absurd h0 hn⟩,
          fun _ => rfl⟩
    · next h0 =>
      split
      · next hz => exact ⟨(nomatch ·), fun h' => by have := h'.2.2.2 h0; omega⟩
      · next hz => exact ⟨fun _ => ⟨by omega, by omega, fun hn => absurd hn h0, fun _ => by omega⟩,
          fun _ => rfl⟩

theorem validateRecords_ok_iff :
    validateRecords cs rs = .ok u ↔ ∀ r ∈ rs, validateRecord r cs = .ok () := by
  induction rs with
  | nil => simp [validateRecords]
  | cons r rs ih =>
    simp only [validateRecords, Result.bind_ok_iff, forall_mem_cons, ih]
    exact ⟨fun h => h.elim fun _ => id, fun h => ⟨(), h⟩⟩

/-! ## 隙間を埋める -/

def InGaps (gaps : List (Nat × Nat)) (q : Nat) : Prop := ∃ g ∈ gaps, g.1 ≤ q ∧ q < g.2

def SliceRecord.Covers (r : SliceRecord) (q : Nat) : Prop := r.pos ≤ q ∧ q < r.pos + r.len

instance (r : SliceRecord) (q : Nat) : Decidable (r.Covers q) := inferInstanceAs (Decidable (_ ∧ _))

variable {objects : SliceID → Option Bytes}

theorem recordAt_of_covers (h : r.Covers q) :
    recordAt objects r q = some (objectByte objects r.id (r.off + (q - r.pos))) := if_pos h

theorem recordAt_of_not_covers (h : ¬ r.Covers q) : recordAt objects r q = none := if_neg h

theorem inGaps_coverGaps : InGaps (coverGaps r gaps).1 q ↔ InGaps gaps q ∧ ¬ r.Covers q := by
  induction gaps with
  | nil => simp [coverGaps, InGaps]
  | cons g gaps ih =>
    obtain ⟨a, b⟩ := g
    have hcons : ∀ l : List (Nat × Nat), ∀ x : Nat × Nat,
        InGaps (x :: l) q ↔ (x.1 ≤ q ∧ q < x.2) ∨ InGaps l q := by
      intro l x; simp [InGaps]
    have happ : ∀ l m : List (Nat × Nat), InGaps (l ++ m) q ↔ InGaps l q ∨ InGaps m q := by
      intro l m; simp [InGaps, or_and_right, exists_or]
    have hif : ∀ (c : Prop) [Decidable c] (x : Nat × Nat),
        InGaps (if c then [x] else []) q ↔ c ∧ x.1 ≤ q ∧ q < x.2 := by
      intro c _ x; split <;> simp_all [InGaps]
    simp only [coverGaps]
    split
    · next h =>
      rw [hcons, ih, hcons]
      simp only [SliceRecord.Covers]
      constructor
      · rintro (hq | hq)
        · exact ⟨.inl hq, by omega⟩
        · exact ⟨.inr hq.1, hq.2⟩
      · rintro ⟨hq | hq, hn⟩
        · exact .inl hq
        · exact .inr ⟨hq, hn⟩
    · next h =>
      rw [happ, happ, hif, hif, ih, hcons]
      simp only [SliceRecord.Covers]
      constructor
      · rintro ((hq | hq) | hq)
        · exact ⟨.inl (by omega), by omega⟩
        · exact ⟨.inl (by omega), by omega⟩
        · exact ⟨.inr hq.1, hq.2⟩
      · rintro ⟨hq | hq, hn⟩
        · by_cases hlt : q < r.pos
          · exact .inl (.inl (by omega))
          · exact .inl (.inr (by omega))
        · exact .inr ⟨hq, hn⟩

/-- 埋めた区間は、隙間と record の交わりをちょうど覆い、record の byte を指す -/
theorem coverGaps_spans (objects : SliceID → Option Bytes) (r : SliceRecord)
    (gaps : List (Nat × Nat)) :
    SpansFor objects [r] (fun q => InGaps gaps q ∧ r.Covers q)
      (fun q => objectByte objects r.id (r.off + (q - r.pos))) (coverGaps r gaps).2 := by
  induction gaps with
  | nil => exact ⟨by simp [coverGaps], by simp [coverGaps], by simp [InGaps], by simp [coverGaps]⟩
  | cons g gaps ih =>
    obtain ⟨a, b⟩ := g
    have hcons : ∀ q, InGaps ((a, b) :: gaps) q ↔ (a ≤ q ∧ q < b) ∨ InGaps gaps q := by
      intro q; simp [InGaps]
    simp only [coverGaps]
    split
    · next h =>
      refine ⟨fun s hs q hq => ?_, ih.value, fun q hq => ?_, ih.within⟩
      · have := ih.inside s hs q hq
        exact ⟨(hcons q).mpr (.inr this.1), this.2⟩
      · rcases (hcons q).mp hq.1 with hg | hg
        · have := hq.2; unfold SliceRecord.Covers at this; omega
        · exact ih.cover q ⟨hg, hq.2⟩
    · next h =>
      refine ⟨?_, ?_, ?_, ?_⟩
      · refine forall_mem_cons.mpr ⟨fun q hq => ?_, fun s hs q hq => ?_⟩
        · simp only [ResolvedSlice.Covers] at hq
          exact ⟨(hcons q).mpr (.inl (by omega)), by unfold SliceRecord.Covers; omega⟩
        · have := ih.inside s hs q hq
          exact ⟨(hcons q).mpr (.inr this.1), this.2⟩
      · refine forall_mem_cons.mpr ⟨fun q hq => ?_, ih.value⟩
        simp only [ResolvedSlice.Covers] at hq
        by_cases h0 : r.id = 0
        · simp [ResolvedSlice.byteAt, objectByte, h0]
        · have hoff : r.off + (max r.pos a - r.pos) + (q - max r.pos a) = r.off + (q - r.pos) := by
            omega
          simp only [ResolvedSlice.byteAt, if_neg h0, hoff]
      · intro q hq
        rcases (hcons q).mp hq.1 with hg | hg
        · have := hq.2; unfold SliceRecord.Covers at this
          exact ⟨_, mem_cons_self .., by simp only [ResolvedSlice.Covers]; omega⟩
        · obtain ⟨s, hs, hc⟩ := ih.cover q ⟨hg, hq.2⟩
          exact ⟨s, mem_cons_of_mem _ hs, hc⟩
      · refine forall_mem_cons.mpr ⟨fun h0 => ?_, ih.within⟩
        refine ⟨r, mem_singleton_self r, rfl, ?_⟩
        simp only at h0 ⊢
        rw [if_neg h0]
        omega

/-- 新しい順の record について、`overlayNewest` は隙間の上の内容を正しく表す -/
theorem overlayNewest_spans (objects : SliceID → Option Bytes) (newest : List SliceRecord)
    (gaps : List (Nat × Nat)) :
    SpansFor objects newest (InGaps gaps) (resolveAt objects newest.reverse)
      (overlayNewest newest gaps) := by
  induction newest generalizing gaps with
  | nil =>
    refine ⟨?_, ?_, ?_, ?_⟩
    · intro s hs q hq
      obtain ⟨g, hg, rfl⟩ := mem_map.mp hs
      simp only [ResolvedSlice.Covers] at hq
      exact ⟨g, hg, by omega⟩
    · intro s hs q hq
      obtain ⟨g, hg, rfl⟩ := mem_map.mp hs
      simp [ResolvedSlice.byteAt, objectByte, resolveAt]
    · rintro q ⟨g, hg, hq⟩
      exact ⟨_, mem_map_of_mem hg, by simp only [ResolvedSlice.Covers]; omega⟩
    · intro s hs h0
      obtain ⟨g, hg, rfl⟩ := mem_map.mp hs
      exact absurd rfl h0
  | cons r older ih =>
    have hcov := coverGaps_spans objects r gaps
    have hold := ih (coverGaps r gaps).1
    -- 最新の record に覆われる位置はその byte、他は古い record の内容
    have hval : ∀ q, resolveAt objects (r :: older).reverse q =
        if r.Covers q then objectByte objects r.id (r.off + (q - r.pos))
        else resolveAt objects older.reverse q := by
      intro q
      rw [reverse_cons, resolveAt, map_append, overlay_append, map_singleton,
        overlay_singleton]
      split
      · next h => rw [recordAt_of_covers h]; rfl
      · next h => rw [recordAt_of_not_covers h]; rfl
    refine ⟨?_, ?_, ?_, ?_⟩
    · intro s hs q hq
      rcases mem_append.mp hs with hs | hs
      · exact (hcov.inside s hs q hq).1
      · exact (inGaps_coverGaps.mp (hold.inside s hs q hq)).1
    · intro s hs q hq
      rw [hval]
      rcases mem_append.mp hs with hs | hs
      · rw [if_pos (hcov.inside s hs q hq).2]
        exact hcov.value s hs q hq
      · rw [if_neg (inGaps_coverGaps.mp (hold.inside s hs q hq)).2]
        exact hold.value s hs q hq
    · intro q hq
      by_cases hc : r.Covers q
      · obtain ⟨s, hs, hsq⟩ := hcov.cover q ⟨hq, hc⟩
        exact ⟨s, mem_append_left _ hs, hsq⟩
      · obtain ⟨s, hs, hsq⟩ := hold.cover q (inGaps_coverGaps.mpr ⟨hq, hc⟩)
        exact ⟨s, mem_append_right _ hs, hsq⟩
    · intro s hs h0
      rcases mem_append.mp hs with hs | hs
      · obtain ⟨x, hx, hid, hle⟩ := hcov.within s hs h0
        obtain rfl := mem_singleton.mp hx
        exact ⟨x, mem_cons_self .., hid, hle⟩
      · obtain ⟨x, hx, hid, hle⟩ := hold.within s hs h0
        exact ⟨x, mem_cons_of_mem _ hx, hid, hle⟩

/-! ## 並べ替えと併合 -/

variable {records : List SliceRecord} {val : Nat → UInt8}

theorem SpansFor.congr_mem
    (h : SpansFor objects records dom val spans) (hm : ∀ s, s ∈ spans' ↔ s ∈ spans) :
    SpansFor objects records dom val spans' where
  inside := fun s hs => h.inside s ((hm s).mp hs)
  value := fun s hs => h.value s ((hm s).mp hs)
  cover := fun q hq => by
    obtain ⟨s, hs, hc⟩ := h.cover q hq
    exact ⟨s, (hm s).mpr hs, hc⟩
  within := fun s hs => h.within s ((hm s).mp hs)

theorem sortSpans_perm (spans : List ResolvedSlice) : (sortSpans spans).Perm spans :=
  perm_insertionSort _ spans

theorem sortSpans_sorted (spans : List ResolvedSlice) :
    (sortSpans spans).Pairwise fun a b => a.pos ≤ b.pos :=
  haveI : Std.Total fun a b : ResolvedSlice => a.pos ≤ b.pos := ⟨fun _ _ => Nat.le_total ..⟩
  haveI : IsTrans ResolvedSlice fun a b => a.pos ≤ b.pos := ⟨fun _ _ _ => Nat.le_trans⟩
  pairwise_insertionSort _ spans

theorem byteAt_merged {last span : ResolvedSlice} (hpos : last.pos + last.len = span.pos)
    (hid : last.id = span.id) (hoff : span.id = 0 ∨ last.off + last.len = span.off)
    (hq : span.pos ≤ q) : ResolvedSlice.byteAt objects { last with len := last.len + span.len } q =
      span.byteAt objects q := by
  simp only [ResolvedSlice.byteAt, hid]
  rcases hoff with h0 | hoff
  · simp [objectByte, h0]
  · congr 1; omega

variable {out : List ResolvedSlice}

theorem appendCoalesced_spans {dom : Nat → Prop} {span : ResolvedSlice}
    (h : SpansFor objects records dom val (span :: out)) :
    SpansFor objects records dom val (appendCoalesced out span) := by
  cases out with
  | nil => exact h
  | cons last rest =>
    unfold appendCoalesced
    dsimp only
    split
    · next hm =>
      obtain ⟨hpos, hid, hoff⟩ := hm
      have hspan := mem_cons_self (a := span) (l := last :: rest)
      have hlast : last ∈ span :: last :: rest := by simp
      have hrest : ∀ s ∈ rest, s ∈ span :: last :: rest := fun s hs => by simp [hs]
      -- まとめた区間の位置は、どちらかの区間の位置である
      have hcase : ∀ q, ResolvedSlice.Covers { last with len := last.len + span.len } q →
          (last.Covers q ∨ span.Covers q) := by
        intro q hq
        simp only [ResolvedSlice.Covers] at hq ⊢
        omega
      refine ⟨?_, ?_, ?_, ?_⟩
      · refine forall_mem_cons.mpr ⟨fun q hq => ?_, fun s hs => h.inside s (hrest s hs)⟩
        rcases hcase q hq with hc | hc
        · exact h.inside last hlast q hc
        · exact h.inside span hspan q hc
      · refine forall_mem_cons.mpr ⟨fun q hq => ?_, fun s hs => h.value s (hrest s hs)⟩
        rcases hcase q hq with hc | hc
        · exact h.value last hlast q hc
        · rw [byteAt_merged hpos hid hoff hc.1]
          exact h.value span hspan q hc
      · intro q hq
        obtain ⟨s, hs, hc⟩ := h.cover q hq
        rcases mem_cons.mp hs with rfl | hs
        · refine ⟨_, mem_cons_self .., ?_⟩
          simp only [ResolvedSlice.Covers] at hc ⊢
          omega
        · rcases mem_cons.mp hs with rfl | hs
          · refine ⟨_, mem_cons_self .., ?_⟩
            simp only [ResolvedSlice.Covers] at hc ⊢
            omega
          · exact ⟨s, mem_cons_of_mem _ hs, hc⟩
      · refine forall_mem_cons.mpr ⟨fun h0 => ?_, fun s hs => h.within s (hrest s hs)⟩
        obtain ⟨r, hr, hrid, hle⟩ := h.within span hspan (hid ▸ h0)
        refine ⟨r, hr, hrid.trans hid.symm, ?_⟩
        rcases hoff with hz | hoff
        · exact absurd (hid.trans hz) h0
        · simp only; omega
    · exact h

theorem appendCoalesced_sorted {span : ResolvedSlice}
    (h : (span :: out).Pairwise fun a b => b.pos ≤ a.pos) :
    (appendCoalesced out span).Pairwise fun a b => b.pos ≤ a.pos := by
  cases out with
  | nil => exact h
  | cons last rest =>
    unfold appendCoalesced
    dsimp only
    split
    · obtain ⟨-, hrest⟩ := pairwise_cons.mp h
      obtain ⟨hl, hr⟩ := pairwise_cons.mp hrest
      exact pairwise_cons.mpr ⟨hl, hr⟩
    · exact h

theorem foldl_appendCoalesced {dom : Nat → Prop}
    (h : SpansFor objects records dom val (spans ++ out))
    (hs : spans.Pairwise fun a b => a.pos ≤ b.pos) (ho : out.Pairwise fun a b => b.pos ≤ a.pos)
    (hso : ∀ s ∈ spans, ∀ o ∈ out, o.pos ≤ s.pos) :
    SpansFor objects records dom val (spans.foldl appendCoalesced out) ∧
      (spans.foldl appendCoalesced out).Pairwise fun a b => b.pos ≤ a.pos := by
  induction spans generalizing out with
  | nil => exact ⟨h, ho⟩
  | cons s spans ih =>
    obtain ⟨hs1, hs2⟩ := pairwise_cons.mp hs
    obtain ⟨hso1, hso2⟩ := forall_mem_cons.mp hso
    have hsorted := appendCoalesced_sorted (pairwise_cons.mpr ⟨hso1, ho⟩)
    have hpos : ∀ o ∈ appendCoalesced out s, o.pos ≤ s.pos := by
      intro o hmem
      cases out with
      | nil => obtain rfl := mem_singleton.mp hmem; exact Nat.le_refl _
      | cons last rest =>
        unfold appendCoalesced at hmem
        dsimp only at hmem
        split at hmem
        · rcases mem_cons.mp hmem with rfl | hmem
          · exact hso1 last (mem_cons_self ..)
          · exact hso1 o (mem_cons_of_mem _ hmem)
        · rcases mem_cons.mp hmem with rfl | hmem
          · exact Nat.le_refl _
          · exact hso1 o hmem
    refine ih ?_ hs2 hsorted fun x hx o hmem => Nat.le_trans (hpos o hmem) (hs1 x hx)
    -- 足した区間だけを取り出して一歩の補題を使い、残りの `spans` を戻す
    have hstep : ∀ (d : Nat → Prop), (∀ q, d q ↔ ∃ x ∈ s :: out, x.Covers q) →
        SpansFor objects records d val (s :: out) := by
      intro d hd
      refine ⟨fun x hx q hq => (hd q).mpr ⟨x, hx, hq⟩, fun x hx => h.value x ?_,
        fun q hq => (hd q).mp hq, fun x hx => h.within x ?_⟩
      all_goals
        rcases mem_cons.mp hx with rfl | hx
        · simp
        · simp [hx]
    have hout := appendCoalesced_spans (hstep _ fun _ => Iff.rfl)
    have hrest : ∀ x ∈ spans, x ∈ s :: spans ++ out := fun x hx => by simp [hx]
    refine ⟨fun x hx q hq => ?_, fun x hx => ?_, fun q hq => ?_, fun x hx => ?_⟩
    · rcases mem_append.mp hx with hx | hx
      · exact h.inside x (hrest x hx) q hq
      · obtain ⟨y, hy, hyq⟩ := hout.inside x hx q hq
        refine h.inside y ?_ q hyq
        rcases mem_cons.mp hy with rfl | hy <;> simp_all
    · rcases mem_append.mp hx with hx | hx
      · exact h.value x (hrest x hx)
      · exact hout.value x hx
    · obtain ⟨x, hx, hxq⟩ := h.cover q hq
      by_cases hin : x ∈ spans
      · exact ⟨x, mem_append_left _ hin, hxq⟩
      · have hx' : x ∈ s :: out := by simp_all
        obtain ⟨y, hy, hyq⟩ := hout.cover q ⟨x, hx', hxq⟩
        exact ⟨y, mem_append_right _ hy, hyq⟩
    · rcases mem_append.mp hx with hx | hx
      · exact h.within x (hrest x hx)
      · exact hout.within x hx

/-- 範囲が chunk に収まり record が正しければ、`ResolveRange` は内容を正しく表す区間を返す -/
theorem resolveRange_spec (objects : SliceID → Option Bytes) (hcs : 0 < cs)
    (hlen : pos + len ≤ cs) (hv : ∀ r ∈ records, validateRecord r cs = .ok ()) :
    ∃ spans, resolveRange records cs pos len = .ok spans ∧
      SpansFor objects records (fun q => pos ≤ q ∧ q < pos + len) (resolveAt objects records)
        spans ∧ spans.Pairwise fun a b => a.pos ≤ b.pos := by
  have hfail : Result.failIf (cs = 0 ∨ cs < pos ∨ cs - pos < len) (.invalidArgument
      "Slice read exceeds logical chunk bounds or output is null") = .ok () :=
    Result.failIf_ok_iff.mpr (by omega)
  have hval : validateRecords cs records = .ok () := validateRecords_ok_iff.mpr hv
  unfold resolveRange
  rw [hfail, hval]
  dsimp only [bind, Except.bind]
  split
  · next h0 =>
    refine ⟨[], rfl, ⟨by simp, by simp, fun q hq => ?_, by simp⟩, List.Pairwise.nil⟩
    omega
  · have hnew := overlayNewest_spans objects records.reverse [(pos, pos + len)]
    rw [reverse_reverse] at hnew
    have hsort := hnew.congr_mem fun s =>
      (sortSpans_perm (overlayNewest records.reverse [(pos, pos + len)])).mem_iff
    rw [← append_nil (sortSpans _)] at hsort
    obtain ⟨hspans, hsorted⟩ := foldl_appendCoalesced hsort (sortSpans_sorted _)
      List.Pairwise.nil (by simp)
    refine ⟨_, rfl, ?_, pairwise_reverse.mpr hsorted⟩
    have hrev := hspans.congr_mem fun s => mem_reverse
    refine ⟨fun s hs q hq => ?_, hrev.value, fun q hq => ?_, fun s hs h0 => ?_⟩
    · obtain ⟨g, hg, hgq⟩ := hrev.inside s hs q hq
      obtain rfl := mem_singleton.mp hg
      exact hgq
    · exact hrev.cover q ⟨_, mem_singleton_self _, hq⟩
    · obtain ⟨r, hr, hid, hle⟩ := hrev.within s hs h0
      exact ⟨r, mem_reverse.mp hr, hid, hle⟩

end SwordFS.Chunk.Slice
