import SwordFS.Chunk.Slice.Resolve

/-!
# `ResolveRange` の loop

`SliceRecord.cpp` の `ResolveRange` を、順序付き map を書き換えながら進む loop のまま写し、
`Record.lean` の `resolveRange`（隙間の列を一度に埋める形）に一致することを示す。

map は key の順に並んだ組の列、iterator はその前後の列で表す。`erase`、二つの `emplace`、
`lower_bound` による置き直しは code の順に行う。

## 32 bit の計算

加算と減算は引数 `A` で受け取る。`uint32` は `2 ^ 32` を法とする計算である。
溢れない計算で自然数と一致する `A`（`Arith.Exact`）であれば、どれを使っても結果は同じである。
つまり、溢れる加算の値が結果に現れることはない。
-/

namespace SwordFS.Chunk.Slice

open List Infra Metadata

/-! ## 計算 -/

/-- 加算と減算 -/
structure Arith where
  add : Nat → Nat → Nat
  sub : Nat → Nat → Nat

def uint32 : Arith where
  add := fun a b => (a + b) % 2 ^ 32
  sub := fun a b => (a + 2 ^ 32 - b) % 2 ^ 32

/-- 溢れない計算では、自然数の計算と一致する -/
structure Arith.Exact (A : Arith) : Prop where
  add : ∀ {a b}, a + b < 2 ^ 32 → A.add a b = a + b
  sub : ∀ {a b}, b ≤ a → a < 2 ^ 32 → A.sub a b = a - b

theorem uint32_exact : uint32.Exact where
  add := fun h => Nat.mod_eq_of_lt h
  sub := fun {a b} hle hlt => by
    have h : a + 2 ^ 32 - b = a - b + 2 ^ 32 := by omega
    show (a + 2 ^ 32 - b) % 2 ^ 32 = a - b
    rw [h, Nat.add_mod_right, Nat.mod_eq_of_lt (by omega)]

/-! ## 順序付き map -/

/-- `std::map` の iterator。前の要素と、指す要素から後ろを持つ -/
structure Cursor where
  before : List (Nat × Nat)
  after : List (Nat × Nat)

def lowerBound (k : Nat) (gaps : List (Nat × Nat)) : Cursor :=
  ⟨gaps.takeWhile (·.1 < k), gaps.dropWhile (·.1 < k)⟩

/-- `upper_bound`：key が `k` より大きい最初の要素 -/
def upperBound (k : Nat) (gaps : List (Nat × Nat)) : Cursor :=
  ⟨gaps.takeWhile (·.1 ≤ k), gaps.dropWhile (·.1 ≤ k)⟩

def emplace (k v : Nat) : List (Nat × Nat) → List (Nat × Nat)
  | [] => [(k, v)]
  | g :: gaps =>
    if k < g.1 then (k, v) :: g :: gaps
    else if k = g.1 then g :: gaps
    else g :: emplace k v gaps

/-! ## loop -/

/-- record と交わりうる最初の隙間。一つ前の隙間が `pos` を越えていれば、そこから始める -/
def seekGap (pos : Nat) (gaps : List (Nat × Nat)) : Cursor :=
  let gap := upperBound pos gaps
  match gap.before.getLast? with
  | some g => if pos < g.2 then ⟨gap.before.dropLast, g :: gap.after⟩ else gap
  | none => gap

/-- 一つの record についての `while` loop。残る隙間と、埋めた区間を足した列を返す -/
def coverLoop (A : Arith) (r : SliceRecord) (recordEnd : Nat) :
    Nat → Cursor → List ResolvedSlice → List (Nat × Nat) × List ResolvedSlice
  | 0, gap, resolved => (gap.before ++ gap.after, resolved)
  | fuel + 1, gap, resolved =>
    match gap.after with
    | [] => (gap.before, resolved)
    | (gapStart, gapEnd) :: rest =>
      if gapStart < recordEnd then
        let coverStart := max r.pos gapStart
        let coverEnd := min recordEnd gapEnd
        let erased := gap.before ++ rest
        let withLeft :=
          if gapStart < coverStart then emplace gapStart coverStart erased else erased
        let uncovered := if coverEnd < gapEnd then emplace coverEnd gapEnd withLeft else withLeft
        coverLoop A r recordEnd fuel (lowerBound coverEnd uncovered)
          (resolved ++ [⟨coverStart, r.id,
            if r.id = 0 then 0 else A.add r.off (A.sub coverStart r.pos),
            A.sub coverEnd coverStart⟩])
      else (gap.before ++ gap.after, resolved)

/-- 新しい record から順に隙間を埋める loop。隙間が尽きれば終わる -/
def resolveLoop (A : Arith) : List SliceRecord → List (Nat × Nat) → List ResolvedSlice →
    List (Nat × Nat) × List ResolvedSlice
  | [], uncovered, resolved => (uncovered, resolved)
  | r :: older, uncovered, resolved =>
    if uncovered = [] then (uncovered, resolved)
    else
      let next := coverLoop A r (A.add r.pos r.len) (uncovered.length + 1)
        (seekGap r.pos uncovered) resolved
      resolveLoop A older next.1 next.2

def appendCoalescedWith (A : Arith) (out : List ResolvedSlice) (span : ResolvedSlice) :
    List ResolvedSlice :=
  match out with
  | [] => [span]
  | last :: rest =>
    if A.add last.pos last.len = span.pos ∧ last.id = span.id ∧
        (span.id = 0 ∨ A.add last.off last.len = span.off) then
      { last with len := A.add last.len span.len } :: rest
    else span :: out

/-- `ResolveRange`。`out` は呼び出し側の vector で、null のときは `none` -/
def resolveInto (A : Arith) (records : List SliceRecord) (chunkSize pos len : Nat)
    (out : Option (List ResolvedSlice)) : Result Unit × Option (List ResolvedSlice) :=
  if out = none ∨ chunkSize = 0 ∨ chunkSize < pos ∨ chunkSize - pos < len then
    (.error (.invalidArgument "Slice read exceeds logical chunk bounds or output is null"), out)
  else
    match validateRecords chunkSize records with
    | .error e => (.error e, out)
    | .ok () =>
      if len = 0 then (.ok (), some [])
      else
        let covered := resolveLoop A records.reverse [(pos, A.add pos len)] []
        let resolved := covered.2 ++ covered.1.map fun g => ⟨g.1, 0, 0, A.sub g.2 g.1⟩
        (.ok (), some ((sortSpans resolved).foldl (appendCoalescedWith A) []).reverse)

/-! ## 隙間の列 -/

/-- 隙間は空でなく、位置の順に並び、`[0, limit)` に収まる -/
structure GapsWf (limit : Nat) (gaps : List (Nat × Nat)) : Prop where
  nonempty : ∀ g ∈ gaps, g.1 < g.2
  bounded : ∀ g ∈ gaps, g.2 ≤ limit
  ordered : gaps.Pairwise fun a b => a.2 ≤ b.1

variable {limit cs : Nat}

theorem gapsWf_append :
    GapsWf limit (l ++ m) ↔ GapsWf limit l ∧ GapsWf limit m ∧
      ∀ a ∈ l, ∀ b ∈ m, a.2 ≤ b.1 := by
  constructor
  · intro h
    obtain ⟨hl, hm, hlm⟩ := pairwise_append.mp h.ordered
    exact ⟨⟨fun g hg => h.nonempty g (mem_append_left _ hg),
        fun g hg => h.bounded g (mem_append_left _ hg), hl⟩,
      ⟨fun g hg => h.nonempty g (mem_append_right _ hg),
        fun g hg => h.bounded g (mem_append_right _ hg), hm⟩, hlm⟩
  · rintro ⟨hl, hm, hlm⟩
    refine ⟨?_, ?_, pairwise_append.mpr ⟨hl.ordered, hm.ordered, hlm⟩⟩
    · intro g hg
      exact (mem_append.mp hg).elim (hl.nonempty g) (hm.nonempty g)
    · intro g hg
      exact (mem_append.mp hg).elim (hl.bounded g) (hm.bounded g)

theorem gapsWf_cons :
    GapsWf limit ((a, b) :: gaps) ↔ a < b ∧ b ≤ limit ∧ GapsWf limit gaps ∧
      ∀ g ∈ gaps, b ≤ g.1 := by
  constructor
  · intro h
    obtain ⟨hord, hrest⟩ := pairwise_cons.mp h.ordered
    exact ⟨h.nonempty _ (mem_cons_self ..), h.bounded _ (mem_cons_self ..),
      ⟨fun g hg => h.nonempty g (mem_cons_of_mem _ hg),
        fun g hg => h.bounded g (mem_cons_of_mem _ hg), hrest⟩, hord⟩
  · rintro ⟨hlt, hle, hw, hord⟩
    exact ⟨forall_mem_cons.mpr ⟨hlt, hw.nonempty⟩, forall_mem_cons.mpr ⟨hle, hw.bounded⟩,
      pairwise_cons.mpr ⟨hord, hw.ordered⟩⟩

theorem gapsWf_nil (limit : Nat) : GapsWf limit [] :=
  ⟨forall_mem_nil _, forall_mem_nil _, List.Pairwise.nil⟩

variable {r : SliceRecord}

theorem coverGaps_sub : ∀ {gaps : List (Nat × Nat)}, ∀ g ∈ (coverGaps r gaps).1,
    ∃ o ∈ gaps, o.1 ≤ g.1 ∧ g.2 ≤ o.2
  | [], _, h => nomatch h
  | (a, b) :: gaps, g, h => by
    have hrest : g ∈ (coverGaps r gaps).1 → ∃ o ∈ (a, b) :: gaps, o.1 ≤ g.1 ∧ g.2 ≤ o.2 := by
      intro hg
      obtain ⟨o, ho, hle⟩ := coverGaps_sub g hg
      exact ⟨o, mem_cons_of_mem _ ho, hle⟩
    simp only [coverGaps] at h
    split at h
    · rcases mem_cons.mp h with rfl | h
      · exact ⟨_, mem_cons_self .., Nat.le_refl _, Nat.le_refl _⟩
      · exact hrest h
    · rcases mem_append.mp h with h | h
      · refine ⟨_, mem_cons_self .., ?_⟩
        rcases mem_append.mp h with h | h
        · split at h
          · obtain rfl := mem_singleton.mp h; dsimp only; omega
          · cases h
        · split at h
          · obtain rfl := mem_singleton.mp h; dsimp only; omega
          · cases h
      · exact hrest h

theorem GapsWf.coverGaps : ∀ {gaps : List (Nat × Nat)},
    GapsWf limit gaps → GapsWf limit (coverGaps r gaps).1
  | [], h => h
  | (a, b) :: gaps, h => by
    obtain ⟨hlt, hle, hw, hord⟩ := gapsWf_cons.mp h
    have ih := hw.coverGaps
    have hafter : ∀ g ∈ (Slice.coverGaps r gaps).1, b ≤ g.1 := by
      intro g hg
      obtain ⟨o, ho, hog⟩ := coverGaps_sub g hg
      exact (hord o ho).trans hog.1
    simp only [Slice.coverGaps]
    split
    · exact gapsWf_cons.mpr ⟨hlt, hle, ih, hafter⟩
    · next hmeet =>
      refine gapsWf_append.mpr ⟨gapsWf_append.mpr ⟨?_, ?_, ?_⟩, ih, ?_⟩
      · split
        · exact gapsWf_cons.mpr ⟨by omega, by omega, gapsWf_nil _, forall_mem_nil _⟩
        · exact gapsWf_nil _
      · split
        · exact gapsWf_cons.mpr ⟨by omega, by omega, gapsWf_nil _, forall_mem_nil _⟩
        · exact gapsWf_nil _
      · intro x hx y hy
        split at hx
        · split at hy
          · obtain rfl := mem_singleton.mp hx
            obtain rfl := mem_singleton.mp hy
            dsimp only
            omega
          · cases hy
        · cases hx
      · intro x hx y hy
        have hb := hafter y hy
        rcases mem_append.mp hx with hx | hx
        · split at hx
          · obtain rfl := mem_singleton.mp hx
            dsimp only
            omega
          · cases hx
        · split at hx
          · obtain rfl := mem_singleton.mp hx
            exact hb
          · cases hx

theorem coverGaps_before : ∀ {l : List (Nat × Nat)}, (∀ g ∈ l, g.2 ≤ r.pos) →
    coverGaps r (l ++ m) = (l ++ (coverGaps r m).1, (coverGaps r m).2)
  | [], _ => rfl
  | (a, b) :: l, h => by
    obtain ⟨hb, hl⟩ := forall_mem_cons.mp h
    rw [cons_append, coverGaps, coverGaps_before hl]
    exact if_pos (.inl hb)

theorem coverGaps_after : ∀ {gaps : List (Nat × Nat)},
    (∀ g ∈ gaps, r.pos + r.len ≤ g.1) → coverGaps r gaps = (gaps, [])
  | [], _ => rfl
  | (a, b) :: gaps, h => by
    obtain ⟨ha, hgaps⟩ := forall_mem_cons.mp h
    rw [coverGaps, coverGaps_after hgaps]
    exact if_pos (.inr ha)

/-! ## map の操作 -/

theorem emplace_append (hm : ∀ g ∈ m, k < g.1) :
    ∀ {l : List (Nat × Nat)}, (∀ g ∈ l, g.1 < k) → emplace k v (l ++ m) = l ++ (k, v) :: m
  | [], _ => by
    cases m with
    | nil => rfl
    | cons g m => exact if_pos (hm g (mem_cons_self ..))
  | g :: l, hl => by
    obtain ⟨hg, hl⟩ := forall_mem_cons.mp hl
    rw [cons_append, emplace, if_neg (by omega), if_neg (by omega), emplace_append hm hl]
    rfl

theorem lowerBound_append (hl : ∀ g ∈ l, g.1 < k)
    (hm : ∀ g ∈ m, k ≤ g.1) : lowerBound k (l ++ m) = ⟨l, m⟩ := by
  have hl' : ∀ g ∈ l, decide (g.1 < k) = true := fun g hg => decide_eq_true (hl g hg)
  have htake : m.takeWhile (fun g => decide (g.1 < k)) = [] := by
    cases m with
    | nil => rfl
    | cons g m =>
      rw [takeWhile_cons_of_neg]
      simpa using hm g (mem_cons_self ..)
  have hdrop : m.dropWhile (fun g => decide (g.1 < k)) = m := by
    cases m with
    | nil => rfl
    | cons g m =>
      rw [dropWhile_cons_of_neg]
      simpa using hm g (mem_cons_self ..)
  rw [lowerBound, takeWhile_append_of_pos hl', dropWhile_append_of_pos hl', htake, hdrop,
    append_nil]

/-- 探し始める位置。前の隙間は record に届かず、後ろの隙間は record の始まりを越える -/
theorem seekGap_spec (pos : Nat) (h : GapsWf limit gaps) :
    (seekGap pos gaps).before ++ (seekGap pos gaps).after = gaps ∧
      (∀ g ∈ (seekGap pos gaps).before, g.2 ≤ pos) ∧
      ∀ g ∈ (seekGap pos gaps).after, pos < g.2 := by
  have hsplit : (upperBound pos gaps).before ++ (upperBound pos gaps).after = gaps :=
    takeWhile_append_dropWhile
  have hbefore : ∀ g ∈ (upperBound pos gaps).before, g.1 ≤ pos := fun g hg => by
    simpa using all_eq_true.mp all_takeWhile g hg
  rw [← hsplit] at h
  obtain ⟨hwb, hwa, -⟩ := gapsWf_append.mp h
  -- key の順なので、先頭が `pos` を越えれば後ろは全て越える
  have hafter : ∀ g ∈ (upperBound pos gaps).after, pos < g.2 := by
    intro g hg
    have hkey : pos < g.1 := by
      have hne : (upperBound pos gaps).after ≠ [] := ne_nil_of_mem hg
      have hhead := head_dropWhile_not (fun g : Nat × Nat => decide (g.1 ≤ pos)) hne
      cases hl : (upperBound pos gaps).after with
      | nil => exact absurd hl hne
      | cons x xs =>
        have hx : pos < x.1 := by
          have hx0 : (upperBound pos gaps).after.head hne = x := by simp [hl]
          have := (congrArg (fun y : Nat × Nat => decide (y.1 ≤ pos)) hx0).symm.trans hhead
          simpa using this
        rw [hl] at hg hwa
        obtain ⟨hlt, -, -, hord⟩ := gapsWf_cons.mp hwa
        rcases mem_cons.mp hg with rfl | hg
        · exact hx
        · have := hord g hg
          omega
    have := hwa.nonempty g hg
    omega
  unfold seekGap
  dsimp only
  split
  · next g hlast =>
    have happ := dropLast_append_getLast? g hlast
    rw [← happ] at hwb hbefore
    obtain ⟨hwi, -, hord⟩ := gapsWf_append.mp hwb
    have hg : g.1 ≤ pos := hbefore g (by simp)
    have hinit : ∀ x ∈ (upperBound pos gaps).before.dropLast, x.2 ≤ pos := by
      intro x hx
      have := hord x hx g (mem_singleton_self g)
      omega
    split
    · next hlt =>
      refine ⟨?_, hinit, forall_mem_cons.mpr ⟨hlt, hafter⟩⟩
      have : (upperBound pos gaps).before.dropLast ++ [g] ++ (upperBound pos gaps).after = gaps := by
        rw [happ, hsplit]
      simpa using this
    · next hge =>
      refine ⟨hsplit, fun x hx => ?_, hafter⟩
      rw [← happ] at hx
      rcases mem_append.mp hx with hx | hx
      · exact hinit x hx
      · obtain rfl := mem_singleton.mp hx
        omega
  · next hlast =>
    refine ⟨hsplit, fun x hx => ?_, hafter⟩
    rw [getLast?_eq_none_iff.mp hlast] at hx
    cases hx

/-! ## loop が隙間を埋めること -/

variable {A : Arith}

/--
loop は、指す位置から後ろの隙間を `coverGaps` と同じに埋める。

一周ごとに隙間が一つ消費される。右に残りができるのは record の終わりに達したときで、
置き直した iterator の指す隙間はもう record と交わらない。
-/
theorem coverLoop_eq (hA : A.Exact) (hlimit : limit < 2 ^ 32) (hlen : 0 < r.len)
    (hoff : r.id ≠ 0 → r.off + r.len < 2 ^ 32) :
    ∀ {fuel : Nat} {before after : List (Nat × Nat)} (resolved : List ResolvedSlice),
      GapsWf limit (before ++ after) → (∀ g ∈ after, r.pos < g.2) → after.length < fuel →
      coverLoop A r (r.pos + r.len) fuel ⟨before, after⟩ resolved =
        (before ++ (coverGaps r after).1, resolved ++ (coverGaps r after).2)
  | 0, _, _, _, _, _, h => absurd h (Nat.not_lt_zero _)
  | _ + 1, before, [], resolved, _, _, _ => by simp [coverLoop, coverGaps]
  | fuel + 1, before, (a, b) :: rest, resolved, hw, hreach, hfuel => by
    obtain ⟨hwb, hwa, hord⟩ := gapsWf_append.mp hw
    obtain ⟨hab, hbl, hwr, hbr⟩ := gapsWf_cons.mp hwa
    obtain ⟨hposb, hreach⟩ := forall_mem_cons.mp hreach
    have hba : ∀ g ∈ before, g.1 < a := fun g hg => by
      have hle := hord g hg _ (mem_cons_self ..)
      have hlt := hwb.nonempty g hg
      dsimp only at hle
      omega
    simp only [coverLoop]
    dsimp only at hposb
    by_cases hmeet : a < r.pos + r.len
    · rw [if_pos hmeet]
      -- 交わる部分は空でない
      have hstart : max r.pos a < min (r.pos + r.len) b := by omega
      have hspan : (⟨max r.pos a, r.id,
          if r.id = 0 then 0 else A.add r.off (A.sub (max r.pos a) r.pos),
          A.sub (min (r.pos + r.len) b) (max r.pos a)⟩ : ResolvedSlice) =
          ⟨max r.pos a, r.id, if r.id = 0 then 0 else r.off + (max r.pos a - r.pos),
            min (r.pos + r.len) b - max r.pos a⟩ := by
        rw [hA.sub (by omega) (by omega), hA.sub (by omega) (by omega)]
        by_cases h0 : r.id = 0
        · simp [h0]
        · have := hoff h0
          rw [hA.add (by omega)]
      have hleft : (if a < max r.pos a then emplace a (max r.pos a) (before ++ rest)
          else before ++ rest) =
          (before ++ if a < max r.pos a then [(a, max r.pos a)] else []) ++ rest := by
        split
        · rw [emplace_append (fun g hg => by have := hbr g hg; omega) hba]
          simp
        · simp
      have hcover : coverGaps r ((a, b) :: rest) =
          ((if a < max r.pos a then [(a, max r.pos a)] else []) ++
            (if min (r.pos + r.len) b < b then [(min (r.pos + r.len) b, b)] else []) ++
              (coverGaps r rest).1,
            ⟨max r.pos a, r.id, if r.id = 0 then 0 else r.off + (max r.pos a - r.pos),
              min (r.pos + r.len) b - max r.pos a⟩ :: (coverGaps r rest).2) := by
        rw [coverGaps]
        exact if_neg (by omega)
      have hinit : ∀ g ∈ before ++ (if a < max r.pos a then [(a, max r.pos a)] else []),
          g.1 < min (r.pos + r.len) b := by
        intro g hg
        rcases mem_append.mp hg with hg | hg
        · have := hba g hg
          omega
        · split at hg
          · obtain rfl := mem_singleton.mp hg
            dsimp only
            omega
          · cases hg
      have hwf : GapsWf limit ((before ++ if a < max r.pos a then [(a, max r.pos a)] else []) ++
          rest) := by
        have hsub : ∀ g ∈ (if a < max r.pos a then [(a, max r.pos a)] else []),
            a = g.1 ∧ g.1 < g.2 ∧ g.2 ≤ b := by
          intro g hg
          split at hg
          · obtain rfl := mem_singleton.mp hg
            dsimp only
            omega
          · cases hg
        refine gapsWf_append.mpr ⟨gapsWf_append.mpr ⟨hwb, ?_, ?_⟩, hwr, ?_⟩
        · split
          · exact gapsWf_cons.mpr ⟨by omega, by omega, gapsWf_nil _, forall_mem_nil _⟩
          · exact gapsWf_nil _
        · intro x hx y hy
          rw [← (hsub y hy).1]
          exact hord x hx _ (mem_cons_self ..)
        · intro x hx y hy
          have hb := hbr y hy
          rcases mem_append.mp hx with hx | hx
          · have := hord x hx _ (mem_cons_self ..)
            dsimp only at this
            omega
          · have := hsub x hx
            omega
      rw [hspan, hleft, hcover]
      generalize (if a < max r.pos a then [(a, max r.pos a)] else []) = left at *
      by_cases hright : min (r.pos + r.len) b < b
      · -- record の終わりが隙間の内側にある
        rw [if_pos hright, if_pos hright,
          emplace_append (fun g hg => by have := hbr g hg; omega) hinit,
          lowerBound_append hinit (forall_mem_cons.mpr ⟨Nat.le_refl _, fun g hg => by
            have := hbr g hg; omega⟩)]
        have hrest : coverGaps r rest = (rest, []) :=
          coverGaps_after fun g hg => by have := hbr g hg; omega
        cases fuel with
        | zero => simp only [length_cons] at hfuel; omega
        | succ fuel =>
          simp only [coverLoop]
          rw [if_neg (by omega), hrest]
          simp
      · rw [if_neg hright, if_neg hright,
          lowerBound_append hinit (fun g hg => by have := hbr g hg; omega)]
        rw [coverLoop_eq hA hlimit hlen hoff _ hwf hreach (by simpa using hfuel)]
        simp
    · have hnone : coverGaps r ((a, b) :: rest) = ((a, b) :: rest, []) :=
        coverGaps_after (forall_mem_cons.mpr ⟨by dsimp only; omega, fun g hg => by
          have := hbr g hg; omega⟩)
      rw [if_neg hmeet, hnone]
      simp

theorem overlayNewest_nil : ∀ newest : List SliceRecord, overlayNewest newest [] = []
  | [] => rfl
  | _ :: older => overlayNewest_nil older

theorem resolveLoop_eq (hA : A.Exact) (hcs : cs < 2 ^ 32) :
    ∀ {newest : List SliceRecord} {gaps : List (Nat × Nat)} (resolved : List ResolvedSlice),
      GapsWf cs gaps →
      (∀ r ∈ newest, validateRecord r cs = .ok () ∧ r.size < 2 ^ 32) →
      (resolveLoop A newest gaps resolved).2 ++ (resolveLoop A newest gaps resolved).1.map
          (fun g => ⟨g.1, 0, 0, A.sub g.2 g.1⟩) =
        resolved ++ overlayNewest newest gaps
  | [], gaps, resolved, hw, _ => by
    have hmap : gaps.map (fun g => (⟨g.1, 0, 0, A.sub g.2 g.1⟩ : ResolvedSlice)) =
        gaps.map fun g => ⟨g.1, 0, 0, g.2 - g.1⟩ := by
      refine map_congr_left fun g hg => ?_
      rw [hA.sub (hw.nonempty g hg).le (Nat.lt_of_le_of_lt (hw.bounded g hg) hcs)]
    exact congrArg (resolved ++ ·) hmap
  | r :: older, gaps, resolved, hw, hv => by
    obtain ⟨⟨hr, hsize⟩, hv⟩ := forall_mem_cons.mp hv
    obtain ⟨hlen, hend, -, hobj⟩ := validateRecord_ok_iff.mp hr
    rw [resolveLoop]
    by_cases hempty : gaps = []
    · rw [if_pos hempty, hempty, overlayNewest_nil]
      rfl
    · rw [if_neg hempty]
      obtain ⟨hsplit, hbefore, hafter⟩ := seekGap_spec r.pos hw
      have hloop : coverLoop A r (A.add r.pos r.len) (gaps.length + 1) (seekGap r.pos gaps)
          resolved = ((coverGaps r gaps).1, resolved ++ (coverGaps r gaps).2) := by
        rw [hA.add (by omega)]
        have hlong : (seekGap r.pos gaps).after.length < gaps.length + 1 := by
          have := congrArg List.length hsplit
          rw [length_append] at this
          omega
        have hcover := coverLoop_eq hA hcs hlen (fun h0 => by have := hobj h0; omega) resolved
          (hsplit.symm ▸ hw) hafter hlong
        have heq := coverGaps_before (m := (seekGap r.pos gaps).after) hbefore
        rw [hsplit] at heq
        rw [hcover, heq]
      dsimp only
      rw [hloop, resolveLoop_eq hA hcs _ hw.coverGaps hv, overlayNewest, append_assoc]

/-! ## 併合 -/

/-- 区間の終わりが 32 bit に収まる。object の中の位置は、object を持つ区間だけを問う -/
structure ResolvedSlice.Fits (s : ResolvedSlice) : Prop where
  pos : s.pos + s.len < 2 ^ 32
  off : s.id ≠ 0 → s.off + s.len < 2 ^ 32

theorem appendCoalescedWith_eq (hA : A.Exact) {span : ResolvedSlice}
    (ho : ∀ s ∈ out, s.Fits) (hs : span.Fits) :
    appendCoalescedWith A out span = appendCoalesced out span ∧
      ∀ s ∈ appendCoalesced out span, s.Fits := by
  cases out with
  | nil => exact ⟨rfl, by simpa [appendCoalesced] using hs⟩
  | cons last rest =>
    obtain ⟨hl, hrest⟩ := forall_mem_cons.mp ho
    have hcond : (A.add last.pos last.len = span.pos ∧ last.id = span.id ∧
        (span.id = 0 ∨ A.add last.off last.len = span.off)) ↔
        (last.pos + last.len = span.pos ∧ last.id = span.id ∧
          (span.id = 0 ∨ last.off + last.len = span.off)) := by
      rw [hA.add hl.pos]
      refine and_congr_right fun _ => and_congr_right fun hid => ?_
      by_cases h0 : span.id = 0
      · simp [h0]
      · rw [hA.add (hl.off (hid ▸ h0))]
    simp only [appendCoalescedWith, appendCoalesced, hcond]
    split
    · next hm =>
      obtain ⟨hpos, hid, hoff⟩ := hm
      have hend := hs.pos
      rw [hA.add (by omega)]
      refine ⟨rfl, forall_mem_cons.mpr ⟨⟨?_, fun h0 => ?_⟩, hrest⟩⟩
      · show last.pos + (last.len + span.len) < 2 ^ 32
        omega
      · show last.off + (last.len + span.len) < 2 ^ 32
        have hsoff := hs.off (hid ▸ h0)
        rcases hoff with hz | hoff
        · exact absurd (hid.trans hz) h0
        · omega
    · exact ⟨rfl, forall_mem_cons.mpr ⟨hs, ho⟩⟩

theorem foldl_appendCoalescedWith (hA : A.Exact) :
    ∀ {spans out : List ResolvedSlice}, (∀ s ∈ spans, s.Fits) → (∀ s ∈ out, s.Fits) →
      spans.foldl (appendCoalescedWith A) out = spans.foldl appendCoalesced out
  | [], _, _, _ => rfl
  | s :: spans, out, hs, ho => by
    obtain ⟨hspan, hs⟩ := forall_mem_cons.mp hs
    obtain ⟨heq, hfits⟩ := appendCoalescedWith_eq hA ho hspan
    rw [foldl_cons, foldl_cons, heq, foldl_appendCoalescedWith hA hs hfits]

/-! ## 全体 -/

theorem gapsWf_range (hlen : len ≠ 0) (hend : pos + len ≤ cs) : GapsWf cs [(pos, pos + len)] :=
  gapsWf_cons.mpr ⟨by omega, hend, gapsWf_nil _, forall_mem_nil _⟩

theorem coverGaps_len_pos (hlen : 0 < r.len) :
    ∀ {gaps : List (Nat × Nat)}, GapsWf limit gaps → ∀ s ∈ (coverGaps r gaps).2, 0 < s.len
  | [], _, _, h => nomatch h
  | (a, b) :: gaps, hw, s, h => by
    obtain ⟨hab, -, hw, -⟩ := gapsWf_cons.mp hw
    simp only [coverGaps] at h
    split at h
    · exact coverGaps_len_pos hlen hw s h
    · next hmeet =>
      rcases mem_cons.mp h with rfl | h
      · dsimp only
        omega
      · exact coverGaps_len_pos hlen hw s h

theorem overlayNewest_len_pos :
    ∀ {newest : List SliceRecord} {gaps : List (Nat × Nat)}, (∀ r ∈ newest, 0 < r.len) →
      GapsWf limit gaps → ∀ s ∈ overlayNewest newest gaps, 0 < s.len
  | [], gaps, _, hw, s, h => by
    obtain ⟨g, hg, rfl⟩ := mem_map.mp h
    have := hw.nonempty g hg
    dsimp only
    omega
  | r :: older, gaps, hr, hw, s, h => by
    obtain ⟨hlen, hr⟩ := forall_mem_cons.mp hr
    rcases mem_append.mp h with h | h
    · exact coverGaps_len_pos hlen hw s h
    · exact overlayNewest_len_pos hr hw.coverGaps s h

theorem overlayNewest_fits {records : List SliceRecord} (hcs : cs < 2 ^ 32) (hlen : len ≠ 0)
    (hend : pos + len ≤ cs) (hv : ∀ r ∈ records, validateRecord r cs = .ok () ∧ r.size < 2 ^ 32) :
    ∀ s ∈ overlayNewest records.reverse [(pos, pos + len)], s.Fits := by
  intro s hs
  have hspans := overlayNewest_spans (fun _ => none) records.reverse [(pos, pos + len)]
  have hpos : 0 < s.len := overlayNewest_len_pos
    (fun r hr => (validateRecord_ok_iff.mp (hv r (mem_reverse.mp hr)).1).1)
    (gapsWf_range hlen hend) s hs
  refine ⟨?_, fun h0 => ?_⟩
  · -- 最後の位置は求めた範囲に入る
    have hlast : s.Covers (s.pos + s.len - 1) := by
      unfold ResolvedSlice.Covers
      omega
    obtain ⟨g, hg, hin⟩ := hspans.inside s hs _ hlast
    obtain rfl := mem_singleton.mp hg
    dsimp only at hin
    omega
  · obtain ⟨r, hr, hid, hle⟩ := hspans.within s hs h0
    obtain ⟨hvr, hsize⟩ := hv r (mem_reverse.mp hr)
    have hobj := (validateRecord_ok_iff.mp hvr).2.2.2 (hid ▸ h0)
    omega

/-- loop の結果は、溢れない計算を使う限り `resolveRange` に一致する。失敗は出力に触れない -/
theorem resolveInto_eq (hA : A.Exact) (hcs : cs < 2 ^ 32)
    (hsize : ∀ r ∈ records, r.size < 2 ^ 32) (pos len : Nat) (out : List ResolvedSlice) :
    resolveInto A records cs pos len (some out) =
      match resolveRange records cs pos len with
      | .error e => (.error e, some out)
      | .ok spans => (.ok (), some spans) := by
  unfold resolveInto resolveRange
  by_cases hbound : cs = 0 ∨ cs < pos ∨ cs - pos < len
  · rw [if_pos (.inr hbound), Result.failIf_error_iff.mpr ⟨hbound, rfl⟩]
    rfl
  · rw [if_neg (by simpa using hbound), Result.failIf_ok_iff (u := ()) |>.mpr hbound]
    cases hv : validateRecords cs records with
    | error e => rfl
    | ok u =>
      have hv := validateRecords_ok_iff.mp hv
      have hvs : ∀ r ∈ records, validateRecord r cs = .ok () ∧ r.size < 2 ^ 32 :=
        fun r hr => ⟨hv r hr, hsize r hr⟩
      dsimp only [bind, Except.bind]
      by_cases h0 : len = 0
      · rw [if_pos h0, if_pos h0]
        rfl
      · have hend : pos + len ≤ cs := by omega
        rw [if_neg h0, if_neg h0, hA.add (by omega)]
        have hloop := resolveLoop_eq hA hcs [] (gapsWf_range h0 hend)
          (fun r hr => hvs r (mem_reverse.mp hr))
        rw [nil_append] at hloop
        have hfits := overlayNewest_fits hcs h0 hend hvs
        rw [hloop, foldl_appendCoalescedWith hA
          (fun s hs => hfits s ((sortSpans_perm _).mem_iff.mp hs)) (forall_mem_nil _)]
        rfl

end SwordFS.Chunk.Slice
