import Mathlib.Data.List.Chain
import Mathlib.Data.List.Induction
import SwordFS.Chunk.Slice.ResolveLoop

/-!
# `ResolveRange` は最後の書き手が勝つ重ね合わせである

出所は object の id と、その中の位置で述べる。byte の内容についての `resolveRange_spec` を、
知りたい一点だけが `1` である object の集まりに使うと、出所そのものが決まる。
-/

namespace SwordFS.Chunk.Slice

open List Infra Metadata

/-! ## 位置の出所 -/

def newestCover (records : List SliceRecord) (q : Nat) : Option SliceRecord :=
  records.reverse.find? fun r => decide (r.Covers q)

/-- 位置 `q` の出所。object の id とその中の位置で、零のときは `none` -/
def sourceAt (records : List SliceRecord) (q : Nat) : Option (SliceID × Nat) :=
  match newestCover records q with
  | none => none
  | some r => if r.id = 0 then none else some (r.id, r.off + (q - r.pos))

def ResolvedSlice.sourceAt (s : ResolvedSlice) (q : Nat) : Option (SliceID × Nat) :=
  if s.id = 0 then none else some (s.id, s.off + (q - s.pos))

def ResolvedSlice.Mergeable (a b : ResolvedSlice) : Prop :=
  a.pos + a.len = b.pos ∧ a.id = b.id ∧ (b.id = 0 ∨ a.off + a.len = b.off)

/-- `ResolveRange` が受け付ける入力 -/
structure Resolvable (records : List SliceRecord) (cs pos len : Nat) : Prop where
  chunkSize : 0 < cs
  range : pos + len ≤ cs
  records : ∀ r ∈ records, validateRecord r cs = .ok ()

theorem objectByte_eq (objects : SliceID → Option Bytes) (id : SliceID) (off : Nat) :
    objectByte objects id off = match (if id = 0 then none else some (id, off)) with
      | none => 0
      | some src => ((objects src.1).getD []).getD src.2 0 := by
  unfold objectByte
  split <;> rfl

theorem resolveAt_eq (objects : SliceID → Option Bytes) (records : List SliceRecord) (q : Nat) :
    resolveAt objects records q = match sourceAt records q with
      | none => 0
      | some src => ((objects src.1).getD []).getD src.2 0 := by
  unfold sourceAt newestCover
  induction records using List.reverseRecOn with
  | nil => rfl
  | append_singleton records r ih =>
    rw [resolveAt, map_append, overlay_append, map_singleton, overlay_singleton,
      reverse_append, reverse_singleton, singleton_append]
    by_cases hc : r.Covers q
    · rw [recordAt_of_covers hc, find?_cons_of_pos (by simpa using hc)]
      exact objectByte_eq objects r.id _
    · rw [recordAt_of_not_covers hc, find?_cons_of_neg (by simpa using hc)]
      exact ih

/-- `src` の一点だけが `1` である object の集まり -/
def probe (src : SliceID × Nat) : SliceID → Option Bytes := fun id =>
  if id = src.1 then some (List.replicate src.2 0 ++ [1]) else none

theorem probe_eq_one_iff (src src' : SliceID × Nat) :
    ((probe src src'.1).getD []).getD src'.2 0 = 1 ↔ src' = src := by
  obtain ⟨id, off⟩ := src
  obtain ⟨id', off'⟩ := src'
  unfold probe
  dsimp only
  by_cases hid : id' = id
  · subst hid
    rw [if_pos rfl, Option.getD_some, getD_eq_getElem?_getD]
    rcases Nat.lt_trichotomy off' off with hlt | rfl | hgt
    · rw [getElem?_append_left (by simpa using hlt)]
      simp [hlt]
      omega
    · simp
    · rw [getElem?_eq_none (by simp; omega)]
      simp
      omega
  · rw [if_neg hid]
    simp [hid]

theorem source_ext {a b : Option (SliceID × Nat)}
    (h : ∀ objects : SliceID → Option Bytes,
      (match a with | none => (0 : UInt8) | some src => ((objects src.1).getD []).getD src.2 0) =
        match b with | none => 0 | some src => ((objects src.1).getD []).getD src.2 0) : a = b := by
  have hone : ∀ src src' : SliceID × Nat, ((probe src src'.1).getD []).getD src'.2 0 = 1 → src' = src :=
    fun src src' => (probe_eq_one_iff src src').mp
  have hself : ∀ src : SliceID × Nat, ((probe src src.1).getD []).getD src.2 0 = 1 :=
    fun src => (probe_eq_one_iff src src).mpr rfl
  cases a with
  | none =>
    cases b with
    | none => rfl
    | some src =>
      have hzero : (0 : UInt8) = 1 := (h (probe src)).trans (hself src)
      exact absurd hzero (by decide)
  | some src =>
    cases b with
    | none =>
      have hone : (1 : UInt8) = 0 := (hself src).symm.trans (h (probe src))
      exact absurd hone (by decide)
    | some src' => exact congrArg some (hone src src' ((h (probe src)).symm.trans (hself src))).symm

/-! ## 区間が重ならないこと -/

def ResolvedSlice.Apart (a b : ResolvedSlice) : Prop := ∀ q, a.Covers q → ¬ b.Covers q

theorem ResolvedSlice.Apart.symm {a b : ResolvedSlice} (h : a.Apart b) : b.Apart a :=
  fun q hb ha => h q ha hb

theorem coverGaps_apart : ∀ {gaps : List (Nat × Nat)},
    GapsWf limit gaps → (coverGaps r gaps).2.Pairwise ResolvedSlice.Apart
  | [], _ => List.Pairwise.nil
  | (a, b) :: gaps, hw => by
    obtain ⟨-, -, hw, hord⟩ := gapsWf_cons.mp hw
    have ih := coverGaps_apart (r := r) hw
    simp only [coverGaps]
    split
    · exact ih
    · refine pairwise_cons.mpr ⟨fun s hs q hq hsq => ?_, ih⟩
      -- 他の区間は、後ろの隙間の中にある
      obtain ⟨⟨g, hg, hgq⟩, -⟩ := (coverGaps_spans (fun _ => none) r gaps).inside s hs q hsq
      have hb := hord g hg
      simp only [ResolvedSlice.Covers] at hq
      omega

/-- 新しい record の区間は、古い record に残された隙間に掛からない -/
theorem overlayNewest_apart : ∀ {newest : List SliceRecord}
    {gaps : List (Nat × Nat)}, GapsWf limit gaps →
    (overlayNewest newest gaps).Pairwise ResolvedSlice.Apart
  | [], gaps, hw => by
    refine pairwise_map.mpr (hw.ordered.imp_of_mem fun {a b} ha _ hab q hqa hqb => ?_)
    have := hw.nonempty a ha
    simp only [ResolvedSlice.Covers] at hqa hqb
    omega
  | r :: older, gaps, hw => by
    refine pairwise_append.mpr
      ⟨coverGaps_apart hw, overlayNewest_apart hw.coverGaps, fun a ha b hb q hqa hqb => ?_⟩
    have hcovered := (coverGaps_spans (fun _ => none) r gaps).inside a ha q hqa
    have hleft := (overlayNewest_spans (fun _ => none) older _).inside b hb q hqb
    exact (inGaps_coverGaps.mp hleft).2 hcovered.2

def ResolvedSlice.Before (a b : ResolvedSlice) : Prop := a.pos + a.len ≤ b.pos

theorem sortSpans_before (hpos : ∀ s ∈ spans, 0 < s.len)
    (h : spans.Pairwise ResolvedSlice.Apart) : (sortSpans spans).Pairwise ResolvedSlice.Before := by
  have hperm := sortSpans_perm spans
  have hapart : (sortSpans spans).Pairwise ResolvedSlice.Apart :=
    (hperm.pairwise_iff ResolvedSlice.Apart.symm).mpr h
  refine (hapart.and (sortSpans_sorted spans)).imp_of_mem fun {a b} _ hb hab => ?_
  have hlen := hpos b (hperm.mem_iff.mp hb)
  by_contra hn
  unfold ResolvedSlice.Before at hn
  exact hab.1 b.pos ⟨hab.2, by omega⟩ ⟨Nat.le_refl _, by omega⟩

/-! ## 併合の終わり -/

/-- 併合の途中の列。逆順で、位置の順に並び、隣り合う区間はまとめられない -/
structure Coalescing (out : List ResolvedSlice) : Prop where
  before : out.Pairwise fun a b => b.Before a
  apart : out.IsChain fun a b => ¬ b.Mergeable a
  nonempty : ∀ s ∈ out, 0 < s.len

/-- 一区間を足した後も同じ形で、足した区間より後ろには何も無い -/
theorem Coalescing.append {span : ResolvedSlice} (h : Coalescing out)
    (hlen : 0 < span.len) (hb : ∀ s ∈ out, s.Before span) :
    Coalescing (appendCoalesced out span) ∧
      ∀ s ∈ appendCoalesced out span, s.pos + s.len ≤ span.pos + span.len := by
  cases out with
  | nil =>
    refine ⟨⟨pairwise_singleton .., .singleton _, ?_⟩, ?_⟩ <;>
    · intro s hs
      obtain rfl := mem_singleton.mp hs
      omega
  | cons last rest =>
    obtain ⟨hl, hrest⟩ := forall_mem_cons.mp hb
    obtain ⟨hpl, hpr⟩ := pairwise_cons.mp h.before
    obtain ⟨hnl, hnr⟩ := forall_mem_cons.mp h.nonempty
    unfold appendCoalesced
    dsimp only
    split
    · next hm =>
      obtain ⟨hpos, -, -⟩ := hm
      refine ⟨⟨pairwise_cons.mpr ⟨hpl, hpr⟩, ?_, ?_⟩, ?_⟩
      · -- まとめた区間の始まりは変わらない
        cases hr : rest with
        | nil => exact .singleton _
        | cons prev rest' =>
          have hchain := h.apart
          rw [hr] at hchain
          cases hchain with
          | cons_cons hn hc => exact .cons_cons hn hc
      · refine forall_mem_cons.mpr ⟨?_, hnr⟩
        show 0 < last.len + span.len
        omega
      · refine forall_mem_cons.mpr ⟨?_, fun s hs => ?_⟩
        · show last.pos + (last.len + span.len) ≤ span.pos + span.len
          omega
        · exact (hrest s hs).trans (Nat.le_add_right _ _)
    · next hm =>
      refine ⟨⟨pairwise_cons.mpr ⟨hb, h.before⟩, .cons_cons hm h.apart,
        forall_mem_cons.mpr ⟨hlen, h.nonempty⟩⟩, ?_⟩
      refine forall_mem_cons.mpr ⟨Nat.le_refl _, fun s hs => ?_⟩
      exact (hb s hs).trans (Nat.le_add_right _ _)

theorem Coalescing.foldl : ∀ {spans out : List ResolvedSlice}, Coalescing out →
    spans.Pairwise ResolvedSlice.Before → (∀ s ∈ spans, 0 < s.len) →
    (∀ s ∈ spans, ∀ o ∈ out, o.Before s) → Coalescing (spans.foldl appendCoalesced out)
  | [], _, h, _, _, _ => h
  | s :: spans, out, h, hs, hlen, hso => by
    obtain ⟨hs1, hs2⟩ := pairwise_cons.mp hs
    obtain ⟨hl, hlen⟩ := forall_mem_cons.mp hlen
    obtain ⟨hso1, hso2⟩ := forall_mem_cons.mp hso
    obtain ⟨hnext, hend⟩ := h.append hl hso1
    exact hnext.foldl hs2 hlen fun x hx o ho => (hend o ho).trans (hs1 x hx)

theorem coalescing_nil : Coalescing [] :=
  ⟨List.Pairwise.nil, .nil, forall_mem_nil _⟩

/-- 受け付けた入力の結果は、位置の順に並び、隣り合う区間はまとめられない -/
theorem resolveRange_coalesced (hr : Resolvable records cs pos len)
    (h : resolveRange records cs pos len = .ok spans) :
    spans.Pairwise ResolvedSlice.Before ∧ (spans.IsChain fun a b => ¬ a.Mergeable b) ∧
      ∀ s ∈ spans, 0 < s.len := by
  have hfail : Result.failIf (cs = 0 ∨ cs < pos ∨ cs - pos < len) (.invalidArgument
      "Slice read exceeds logical chunk bounds or output is null") = .ok () := by
    have := hr.chunkSize
    have := hr.range
    exact Result.failIf_ok_iff.mpr (by omega)
  rw [resolveRange, hfail, validateRecords_ok_iff (u := ()) |>.mpr hr.records] at h
  dsimp only [bind, Except.bind] at h
  split at h
  · cases h
    exact ⟨List.Pairwise.nil, .nil, forall_mem_nil _⟩
  · next h0 =>
    cases h
    have hw := gapsWf_range h0 hr.range
    have hlen : ∀ s ∈ overlayNewest records.reverse [(pos, pos + len)], 0 < s.len :=
      overlayNewest_len_pos
        (fun r hm => (validateRecord_ok_iff.mp (hr.records r (mem_reverse.mp hm))).1) hw
    have hout := coalescing_nil.foldl (sortSpans_before hlen (overlayNewest_apart hw))
      (fun s hs => hlen s ((sortSpans_perm _).mem_iff.mp hs)) (by simp)
    refine ⟨pairwise_reverse.mpr hout.before, isChain_reverse.mpr hout.apart, ?_⟩
    intro s hs
    exact hout.nonempty s (mem_reverse.mp hs)

/-! ## 全体 -/

theorem resolveRange_error
    (h : ¬ Resolvable records cs pos len) : ∃ e, resolveRange records cs pos len = .error e := by
  cases hres : resolveRange records cs pos len with
  | error e => exact ⟨e, rfl⟩
  | ok spans =>
    obtain ⟨_, hb, hrest⟩ := Result.bind_ok_iff.mp hres
    obtain ⟨_, hv, -⟩ := Result.bind_ok_iff.mp hrest
    have hb := Result.failIf_ok_iff.mp hb
    exact absurd ⟨by omega, by omega, validateRecords_ok_iff.mp hv⟩ h

/--
`ResolveRange` は、最後の書き手が勝つ重ね合わせを返す。

計算 `A` は、溢れない所で正しければ何でもよい。受け付けた入力では、結果は順に並んだ空でない区間で、
`[pos, pos + len)` をちょうど敷き詰め、各位置の出所は最も新しい record である。
受け付けない入力では失敗を返し、出力はそのまま残る。
-/
theorem resolveInto_overlay {A : Arith} (hA : A.Exact) {records : List SliceRecord} {cs : Nat}
    (hcs : cs < 2 ^ 32) (hsize : ∀ r ∈ records, r.size < 2 ^ 32) (pos len : Nat)
    (out : List ResolvedSlice) :
    (Resolvable records cs pos len → ∃ spans,
      resolveInto A records cs pos len (some out) = (.ok (), some spans) ∧
      spans.Pairwise ResolvedSlice.Before ∧ (∀ s ∈ spans, 0 < s.len) ∧
      (∀ q, (∃ s ∈ spans, s.Covers q) ↔ pos ≤ q ∧ q < pos + len) ∧
      (∀ s ∈ spans, ∀ q, s.Covers q → s.sourceAt q = sourceAt records q) ∧
      spans.IsChain fun a b => ¬ a.Mergeable b) ∧
    (¬ Resolvable records cs pos len → ∃ e,
      resolveInto A records cs pos len (some out) = (.error e, some out)) := by
  have hinto := resolveInto_eq hA hcs hsize pos len out
  constructor
  · intro hr
    obtain ⟨spans, hspans, hfor, -⟩ :=
      resolveRange_spec (fun _ => none) hr.chunkSize hr.range hr.records
    obtain ⟨hbefore, hchain, hlen⟩ := resolveRange_coalesced hr hspans
    rw [hspans] at hinto
    refine ⟨spans, hinto, hbefore, hlen, fun q => ⟨?_, hfor.cover q⟩, ?_, hchain⟩
    · rintro ⟨s, hs, hq⟩
      exact hfor.inside s hs q hq
    · intro s hs q hq
      refine source_ext fun objects => ?_
      obtain ⟨spans', hspans', hfor', -⟩ :=
        resolveRange_spec objects hr.chunkSize hr.range hr.records
      obtain rfl : spans = spans' := Except.ok.inj (hspans.symm.trans hspans')
      rw [← resolveAt_eq, ← hfor'.value s hs q hq]
      exact (objectByte_eq objects s.id _).symm
  · intro hr
    obtain ⟨e, he⟩ := resolveRange_error hr
    rw [he] at hinto
    exact ⟨e, hinto⟩

def overlappingRecords : List SliceRecord := [⟨0, 1, 4, 0, 4⟩, ⟨2, 2, 8, 3, 4⟩, ⟨3, 0, 0, 0, 2⟩]

/-- `uint32_t` の計算で、新しい record が前の record の途中を隠す -/
theorem resolveInto_overlay_overlapping : ∃ spans,
    resolveInto uint32 overlappingRecords 8 0 8 (some []) = (.ok (), some spans) ∧
    spans = [⟨0, 1, 0, 2⟩, ⟨2, 2, 3, 1⟩, ⟨3, 0, 0, 2⟩, ⟨5, 2, 6, 1⟩, ⟨6, 0, 0, 2⟩] ∧
    ∀ s ∈ spans, ∀ q, s.Covers q → s.sourceAt q = sourceAt overlappingRecords q := by
  have hr : Resolvable overlappingRecords 8 0 8 := ⟨by decide, by decide, by decide⟩
  obtain ⟨spans, hok, -, -, -, hsource, -⟩ :=
    (resolveInto_overlay uint32_exact (by decide) (by decide) 0 8 []).1 hr
  refine ⟨spans, hok, ?_, hsource⟩
  have heval : resolveInto uint32 overlappingRecords 8 0 8 (some []) = (.ok (),
      some [⟨0, 1, 0, 2⟩, ⟨2, 2, 3, 1⟩, ⟨3, 0, 0, 2⟩, ⟨5, 2, 6, 1⟩, ⟨6, 0, 0, 2⟩]) := by
    decide +kernel
  rw [heval] at hok
  exact (Option.some.inj (Prod.ext_iff.mp hok).2).symm

end SwordFS.Chunk.Slice
