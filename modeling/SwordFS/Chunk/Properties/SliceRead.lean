import SwordFS.Chunk.Alone
import SwordFS.Chunk.Slice.Resolve
import SwordFS.Chunk.Slice.SliceChunk

/-!
# Slice の読み出し

object の取り寄せが返す byte を位置ごとに述べる。手元の書き込み（overlay）に覆われた位置は、
後で上書きされるので取り寄せない。
-/

namespace SwordFS.Chunk

open Infra

namespace Slice

open Metadata

/-! ## 取り寄せ -/

def OverlaidAt (offset : Nat) (overlays : List (Nat × Bytes)) (q : Nat) : Prop :=
  ∃ o ∈ overlays, offset + o.1 ≤ q ∧ q < offset + o.1 + o.2.length

theorem overlaidAt_cons :
    OverlaidAt offset (o :: os) q ↔
      (offset + o.1 ≤ q ∧ q < offset + o.1 + o.2.length) ∨ OverlaidAt offset os q := by
  simp [OverlaidAt]

def sliceObjects (b : Backend) : SliceID → Option Bytes := fun id => b.objects (.slice id)

/-- 区間の指す object があり、区間はその中に収まる -/
def Stored (b : Backend) (s : ResolvedSlice) : Prop :=
  ∃ bytes, b.objects (.slice s.id) = some bytes ∧ s.off + s.len ≤ bytes.length

section

variable {b : Backend} {offset : Nat} {span : ResolvedSlice} (short : String)

theorem fetchRange_reads (hid : span.id ≠ 0) (hstored : Stored b span)
    (hlo : span.pos ≤ start) (hle : start ≤ stop) (hhi : stop ≤ span.pos + span.len)
    (hoff : offset ≤ start) (hres : stop ≤ offset + result.length) :
    ∃ out, Reads (fetchRange offset span start stop short result) b (.ok out) ∧
      out.length = result.length ∧ ∀ i, out.getD i 0 =
        if start ≤ offset + i ∧ offset + i < stop then
          span.byteAt (sliceObjects b) (offset + i)
        else result.getD i 0 := by
  obtain ⟨bytes, hbytes, hlen⟩ := hstored
  unfold fetchRange
  by_cases heq : start = stop
  · rw [if_pos heq]
    refine ⟨result, reads_pure _, rfl, fun i => ?_⟩
    rw [if_neg (by omega)]
  · rw [if_neg heq]
    have hget : Reads (get (.slice span.id) (span.off + (start - span.pos)) (stop - start)) b
        (.ok (slice bytes (span.off + (start - span.pos)) (stop - start))) := by
      have hquery : Reads (get (.slice span.id) (span.off + (start - span.pos)) (stop - start)) b _ :=
        reads_query _
      rwa [hbytes] at hquery
    have hslice : (slice bytes (span.off + (start - span.pos)) (stop - start)).length =
        stop - start := by
      rw [slice_length]
      omega
    refine ⟨_, hget.bind ((reads_failIf (by simpa using hslice)).bind (reads_pure _)), ?_, ?_⟩
    · rw [overwrite_length_of_le]
      omega
    · intro i
      rw [overwrite_getD (by omega), hslice]
      by_cases hi : start ≤ offset + i ∧ offset + i < stop
      · rw [if_pos (by omega), if_pos hi, slice_getD, if_pos (by omega)]
        unfold ResolvedSlice.byteAt objectByte sliceObjects
        rw [if_neg hid, hbytes, Option.getD_some]
        congr 1
        omega
      · rw [if_neg (by omega), if_neg hi]

/-- overlay に覆われない位置は、区間の残り全部が取り寄せられる -/
theorem fetchUncovered_reads (hid : span.id ≠ 0) (hstored : Stored b span)
    (hoff : offset ≤ span.pos) :
    ∀ (os : List (Nat × Bytes)) {cursor : Nat} {result : Bytes}, span.pos ≤ cursor →
      cursor ≤ span.pos + span.len → span.pos + span.len ≤ offset + result.length →
      ∃ out, Reads (fetchUncovered offset span short os cursor result) b (.ok out) ∧
        out.length = result.length ∧ ∀ i, ¬ OverlaidAt offset os (offset + i) → out.getD i 0 =
          if cursor ≤ offset + i ∧ offset + i < span.pos + span.len then
            span.byteAt (sliceObjects b) (offset + i)
          else result.getD i 0
  | [], cursor, result, hlo, hhi, hres => by
    obtain ⟨out, hr, hl, hv⟩ := fetchRange_reads short hid hstored hlo hhi
      (Nat.le_refl _) (hoff.trans hlo) hres
    exact ⟨out, hr, hl, fun i _ => hv i⟩
  | o :: os, cursor, result, hlo, hhi, hres => by
    unfold fetchUncovered
    dsimp only
    split
    · obtain ⟨out, hr, hl, hv⟩ := fetchRange_reads short hid hstored hlo hhi
        (Nat.le_refl _) (hoff.trans hlo) hres
      exact ⟨out, hr, hl, fun i _ => hv i⟩
    · next hend =>
      split
      · obtain ⟨out, hr, hl, hv⟩ := fetchUncovered_reads hid hstored hoff os hlo hhi hres
        exact ⟨out, hr, hl, fun i hi => hv i fun h => hi (overlaidAt_cons.mpr (.inr h))⟩
      · next hpast =>
        -- overlay の手前を取り寄せ、overlay の後ろから続ける
        have hbefore : ∃ mid, Reads (if cursor < offset + o.1 then
              fetchRange offset span cursor (offset + o.1) short result else pure result) b
              (.ok mid) ∧ mid.length = result.length ∧ ∀ i, mid.getD i 0 =
            if cursor ≤ offset + i ∧ offset + i < offset + o.1 then
              span.byteAt (sliceObjects b) (offset + i)
            else result.getD i 0 := by
          split
          · next hlt =>
            exact fetchRange_reads short hid hstored hlo (Nat.le_of_lt hlt) (by omega)
              (hoff.trans hlo) (by omega)
          · refine ⟨result, reads_pure _, rfl, fun i => ?_⟩
            rw [if_neg (by omega)]
        obtain ⟨mid, hmid, hmlen, hmv⟩ := hbefore
        have hnext : span.pos ≤ min (span.pos + span.len) (offset + o.1 + o.2.length) := by omega
        have hroom : span.pos + span.len ≤ offset + mid.length := by omega
        obtain ⟨out, hr, hl, hv⟩ := fetchUncovered_reads hid hstored hoff os hnext
          (Nat.min_le_left _ _) hroom
        refine ⟨out, ?_, hl.trans hmlen, fun i hi => ?_⟩
        · split at hmid
          · next hlt => rw [if_pos hlt]; exact hmid.bind hr
          · next hlt => rw [if_neg hlt]; exact hmid.bind hr
        obtain ⟨hno, hnos⟩ := not_or.mp fun h => hi (overlaidAt_cons.mpr h)
        rw [hv i hnos, hmv i]
        by_cases hin : cursor ≤ offset + i ∧ offset + i < span.pos + span.len
        · rw [if_pos hin]
          by_cases hlt : offset + i < offset + o.1
          · rw [if_neg (by omega), if_pos (by omega)]
          · rw [if_pos (by omega)]
        · rw [if_neg hin, if_neg (by omega), if_neg (by omega)]

/-- overlay に覆われない位置には、object を持つ区間があればその byte が入り、無ければ変わらない -/
theorem fetchSpans_reads {val : Nat → UInt8} :
    ∀ {spans : List ResolvedSlice} (overlays : List (Nat × Bytes)) {result : Bytes},
      (∀ s ∈ spans, offset ≤ s.pos ∧ s.pos + s.len ≤ offset + result.length) →
      (∀ s ∈ spans, s.id ≠ 0 → Stored b s) →
      (∀ s ∈ spans, ∀ q, s.Covers q → s.byteAt (sliceObjects b) q = val q) →
      ∃ out, Reads (fetchSpans offset short overlays spans result) b (.ok out) ∧
        out.length = result.length ∧ ∀ i, ¬ OverlaidAt offset overlays (offset + i) →
          ((∃ s ∈ spans, s.id ≠ 0 ∧ s.Covers (offset + i)) → out.getD i 0 = val (offset + i)) ∧
          ((∀ s ∈ spans, s.id ≠ 0 → ¬ s.Covers (offset + i)) → out.getD i 0 = result.getD i 0)
  | [], overlays, result, _, _, _ => by
    unfold fetchSpans
    refine ⟨result, reads_pure _, rfl, fun i _ => ⟨?_, fun _ => rfl⟩⟩
    rintro ⟨s, hs, -⟩
    cases hs
  | span :: spans, overlays, result, hin, hstored, hval => by
    obtain ⟨⟨hoff, hend⟩, hin⟩ := List.forall_mem_cons.mp hin
    obtain ⟨hst, hstored⟩ := List.forall_mem_cons.mp hstored
    obtain ⟨hv, hval⟩ := List.forall_mem_cons.mp hval
    unfold fetchSpans
    by_cases hid : span.id = 0
    · rw [if_pos hid]
      obtain ⟨out, hr, hl, hout⟩ := fetchSpans_reads overlays hin hstored hval
      refine ⟨out, hr, hl, fun i hi => ⟨?_, fun h => ?_⟩⟩
      · rintro ⟨s, hs, hne, hc⟩
        rcases List.mem_cons.mp hs with rfl | hs
        · exact absurd hid hne
        · exact (hout i hi).1 ⟨s, hs, hne, hc⟩
      · exact (hout i hi).2 fun s hs => h s (List.mem_cons_of_mem _ hs)
    · rw [if_neg hid]
      dsimp only
      have hkept := List.dropWhile_sublist
        (fun o : Nat × Bytes => decide (offset + o.1 + o.2.length ≤ span.pos)) (l := overlays)
      generalize overlays.dropWhile
        (fun o => decide (offset + o.1 + o.2.length ≤ span.pos)) = kept at hkept
      obtain ⟨mid, hmid, hmlen, hmv⟩ := fetchUncovered_reads short hid (hst hid) hoff kept
        (Nat.le_refl _) (Nat.le_add_right _ _) hend
      obtain ⟨out, hr, hl, hout⟩ := fetchSpans_reads kept
        (hmlen.symm ▸ hin) hstored hval
      refine ⟨out, hmid.bind hr, hl.trans hmlen, fun i hi => ?_⟩
      have hi' : ¬ OverlaidAt offset kept (offset + i) := by
        rintro ⟨o, ho, h⟩
        exact hi ⟨o, hkept.subset ho, h⟩
      obtain ⟨hin', hout'⟩ := hout i hi'
      have hmid := hmv i hi'
      by_cases hlater : ∃ s ∈ spans, s.id ≠ 0 ∧ s.Covers (offset + i)
      · refine ⟨fun _ => hin' hlater, fun h => ?_⟩
        obtain ⟨s, hs, hne, hc⟩ := hlater
        exact absurd hc (h s (List.mem_cons_of_mem _ hs) hne)
      · have hlater' : ∀ s ∈ spans, s.id ≠ 0 → ¬ s.Covers (offset + i) :=
          fun s hs hne hc => hlater ⟨s, hs, hne, hc⟩
        rw [hout' hlater', hmid]
        refine ⟨?_, fun h => ?_⟩
        · rintro ⟨s, hs, hne, hc⟩
          rcases List.mem_cons.mp hs with rfl | hs
          · exact (if_pos hc).trans (hv _ hc)
          · exact absurd hc (hlater' s hs hne)
        · exact if_neg (h span (List.mem_cons_self ..) hid)

end

/-! ## 手元の書き込みを重ねる -/

/-- 読む範囲に切り出した書き込みは、範囲に収まり、元の書き込みの位置だけを覆う -/
theorem overlaysIn_spec (dirty : DirtyRanges) (offset len : Nat) :
    (∀ o ∈ overlaysIn dirty offset len, o.1 + o.2.length ≤ len) ∧
      ∀ q, rangesAt dirty q = none → ¬ OverlaidAt offset (overlaysIn dirty offset len) q := by
  have hmem : ∀ o ∈ overlaysIn dirty offset len, o.1 + o.2.length ≤ len ∧
      ∃ r ∈ dirty, r.1 ≤ offset + o.1 ∧ offset + o.1 + o.2.length ≤ rangeEnd r := by
    intro o ho
    obtain ⟨r, hr, hro⟩ := List.mem_filterMap.mp ho
    dsimp only at hro
    split at hro
    · next hlt =>
      obtain rfl := Option.some.inj hro
      simp only [slice_length, rangeEnd] at *
      exact ⟨by omega, r, hr, by omega, by omega⟩
    · cases hro
  refine ⟨fun o ho => (hmem o ho).1, ?_⟩
  rintro q hq ⟨o, ho, hlo, hhi⟩
  obtain ⟨-, r, hr, hrlo, hrhi⟩ := hmem o ho
  rcases rangesAt_eq_none_iff.mp hq r hr with h | h <;> omega

theorem applyOverlays_getD :
    ∀ {overlays : List (Nat × Bytes)} {buf : Bytes},
      (∀ o ∈ overlays, o.1 + o.2.length ≤ buf.length) → ∀ i, ¬ OverlaidAt offset overlays (offset + i) →
      (overlays.foldl (fun buf o => overwrite buf o.1 o.2) buf).getD i 0 = buf.getD i 0
  | [], _, _, _, _ => rfl
  | o :: os, buf, hin, i, hi => by
    obtain ⟨ho, hin⟩ := List.forall_mem_cons.mp hin
    obtain ⟨hno, hnos⟩ := not_or.mp fun h => hi (overlaidAt_cons.mpr h)
    have hin' : ∀ x ∈ os, x.1 + x.2.length ≤ (overwrite buf o.1 o.2).length := by
      rw [overwrite_length_of_le ho]
      exact hin
    rw [List.foldl_cons, applyOverlays_getD hin' i hnos, overwrite_getD (by omega),
      if_neg (by omega)]

/-! ## 解決された範囲を読む -/

def ObjectsStored (b : Backend) (records : List SliceRecord) : Prop :=
  ∀ r ∈ records, r.id ≠ 0 → ∃ bytes, b.objects (.slice r.id) = some bytes ∧
    r.off + r.len ≤ bytes.length

section

variable {b : Backend} {records : List SliceRecord} {offset published len : Nat}
  {val : Nat → UInt8} {spans : List ResolvedSlice}

theorem SpansFor.stored (h : SpansFor (sliceObjects b) records dom val spans)
    (hst : ObjectsStored b records) : ∀ s ∈ spans, s.id ≠ 0 → Stored b s := by
  intro s hs h0
  obtain ⟨r, hr, hid, hle⟩ := h.within s hs h0
  obtain ⟨bytes, hbytes, hbl⟩ := hst r hr (hid ▸ h0)
  exact ⟨bytes, hid ▸ hbytes, hle.trans hbl⟩

variable
  (h : SpansFor (sliceObjects b) records (fun q => offset ≤ q ∧ q < offset + published) val spans)
  (hlen : published ≤ len) (hpos : ∀ s ∈ spans, 0 < s.len)
include h hlen hpos

theorem SpansFor.fits : ∀ s ∈ spans, offset ≤ s.pos ∧
    s.pos + s.len ≤ offset + (List.replicate len (0 : UInt8)).length := by
  intro s hs
  have := hpos s hs
  have hfirst := h.inside s hs s.pos ⟨Nat.le_refl _, by omega⟩
  have hlast := h.inside s hs (s.pos + s.len - 1) ⟨by omega, by omega⟩
  rw [List.length_replicate]
  omega

/-- 内容 `val` を正しく表す区間を取り寄せると、覆われない位置に `val` が並ぶ -/
theorem SpansFor.fetch (hstored : ∀ s ∈ spans, s.id ≠ 0 → Stored b s)
    (overlays : List (Nat × Bytes)) (short : String) :
    ∃ out, Reads (fetchSpans offset short overlays spans (List.replicate len 0)) b (.ok out) ∧
      out.length = len ∧ ∀ i, ¬ OverlaidAt offset overlays (offset + i) →
        (i < published → out.getD i 0 = val (offset + i)) ∧
          (published ≤ i → out.getD i 0 = 0) := by
  have hblank : ∀ i, (List.replicate len (0 : UInt8)).getD i 0 = 0 := by
    intro i
    rw [List.getD_eq_getElem?_getD, List.getElem?_replicate]
    split <;> rfl
  obtain ⟨out, hr, hl, hout⟩ := fetchSpans_reads short overlays (h.fits hlen hpos) hstored h.value
  refine ⟨out, hr, by simpa using hl, fun i hi => ⟨fun hlt => ?_, fun hge => ?_⟩⟩
  · by_cases hex : ∃ s ∈ spans, s.id ≠ 0 ∧ s.Covers (offset + i)
    · exact (hout i hi).1 hex
    · -- 覆うのは zero の区間だけなので、内容も零である
      obtain ⟨s, hs, hc⟩ := h.cover (offset + i) ⟨by omega, by omega⟩
      have h0 : s.id = 0 := by
        by_contra hne
        exact hex ⟨s, hs, hne, hc⟩
      have hz : s.byteAt (sliceObjects b) (offset + i) = 0 := if_pos h0
      rw [(hout i hi).2 fun s hs hne hc => hex ⟨s, hs, hne, hc⟩, hblank, ← h.value s hs _ hc, hz]
  · rw [(hout i hi).2 fun s hs hne hc => ?_, hblank]
    have := (h.inside s hs _ hc).2
    omega

end

end Slice

end SwordFS.Chunk
