import SwordFS.Chunk.Properties.CommittedRange
import SwordFS.Chunk.Slice.WindowCandidates

/-!
# 併合は内容と順序を保つ

`PrepareWindowCandidates` の間に凍結と切り詰めがどのように割り込んでも、成功したときの差し替えは
内容を変えない。

切り詰めの途中（境界を捕えてから手元を縮めるまで）では、縮める先より後の byte だけが、
読んだ時点によって異なり得る。
-/

namespace SwordFS.Chunk.Slice

open List Infra Metadata

/-! ## session の条件 -/

/-- `frozen_` の番地は異なり、候補は条件を満たす -/
structure WindowState.Valid (s : WindowState) : Prop where
  nodup : s.frozen.Nodup
  fresh : ∀ a ∈ s.frozen, a < s.next
  wellFormed : ∀ a ∈ s.frozen, (s.heap a).WellFormed

def WindowState.Safe (s : WindowState) (p : Nat) : Prop := ∀ size ∈ s.truncating, p < size

def WindowState.slices (s : WindowState) : List FrozenSlice := s.frozen.map s.heap

/-- 公開済みの内容に `frozen_` を順に重ねたときの byte -/
def WindowState.contentAt (s : WindowState) (p : Nat) : UInt8 :=
  overlayAt s.slices p (s.committed p)

def FrozenSlice.visibleEnd (c : FrozenSlice) : Nat := c.pos + c.visibleLen

namespace WindowState

variable {s : WindowState} {cs : List FrozenSlice}

theorem alloc_heap_of_lt (h : a < s.next) : (s.alloc cs).heap a = s.heap a :=
  if_neg (Nat.not_le.mpr h)

theorem map_alloc_range : (List.range' s.next cs.length).map (s.alloc cs).heap = cs := by
  refine ext_getElem (by simp) fun i h₁ h₂ => ?_
  simp [alloc, h₂]

theorem slices_alloc_append (hfresh : ∀ a ∈ s.frozen, a < s.next) :
    (s.frozen ++ List.range' s.next cs.length).map (s.alloc cs).heap = s.slices ++ cs := by
  rw [map_append, map_alloc_range]
  congr 1
  exact map_congr_left fun a ha => alloc_heap_of_lt (hfresh a ha)

theorem Valid.freezeActive (h : s.Valid) (hne : ∀ r ∈ active, r.2 ≠ []) :
    (s.freezeActive active).Valid where
  nodup := by
    refine List.Nodup.append h.nodup nodup_range' fun a ha ha' => ?_
    have hlt := h.fresh a ha
    have hge := (mem_range'_1.mp ha').1
    omega
  fresh := by
    intro a ha
    show a < s.next + (active.map freshSlice).length
    rw [length_map]
    rcases mem_append.mp ha with ha | ha
    · have := h.fresh a ha
      omega
    · exact (mem_range'_1.mp ha).2
  wellFormed := by
    have hall : ∀ c ∈ s.slices ++ active.map freshSlice, c.WellFormed := by
      intro c hc
      rcases mem_append.mp hc with hc | hc
      · obtain ⟨a, ha, rfl⟩ := mem_map.mp hc
        exact h.wellFormed a ha
      · obtain ⟨r, hr, rfl⟩ := mem_map.mp hc
        exact ⟨length_pos_iff.mpr (hne r hr), le_rfl, fun _ => rfl⟩
    intro a ha
    refine hall _ ?_
    rw [← slices_alloc_append h.fresh, length_map]
    exact mem_map_of_mem ha

theorem Valid.clip (h : s.Valid) (size : Nat) : (s.clip size).Valid where
  nodup := h.nodup.filter _
  fresh a ha := h.fresh a (mem_filter.mp ha).1
  wellFormed a ha := by
    obtain ⟨hmem, hvis⟩ := mem_filter.mp ha
    obtain ⟨hpos, hstored, hacc⟩ := h.wellFormed a hmem
    have hheap : (s.clip size).heap a = (s.heap a).clip size := if_pos hmem
    rw [hheap]
    refine ⟨Nat.pos_of_ne_zero (of_decide_eq_true hvis), ?_, fun hw => ?_⟩
    · exact (Nat.min_le_left _ _).trans hstored
    · have := hacc hw
      simp only [FrozenSlice.clip]
      omega

theorem visibleEnd_clip (ha : a ∈ (s.clip size).frozen) :
    ((s.clip size).heap a).visibleEnd ≤ size := by
  obtain ⟨hmem, hvis⟩ := mem_filter.mp ha
  have hheap : (s.clip size).heap a = (s.heap a).clip size := if_pos hmem
  have hne := of_decide_eq_true hvis
  rw [hheap]
  simp only [FrozenSlice.clip, FrozenSlice.visibleEnd] at hne ⊢
  omega

theorem visibleEnd_clip_le (size : Nat) :
    ((s.clip size).heap a).visibleEnd ≤ (s.heap a).visibleEnd := by
  simp only [clip, FrozenSlice.visibleEnd]
  split
  · exact Nat.add_le_add_left (Nat.min_le_left _ _) _
  · exact le_rfl

end WindowState

/-! ## 番地の列の並べ直し -/

section

variable {sources frozen : List Nat} {inserted : List (Nat × Nat)}

theorem mem_rebuild (h : a ∈ rebuild sources inserted frozen) :
    (a ∈ frozen ∧ a ∉ sources) ∨ ∃ q ∈ inserted, q.2 = a := by
  obtain ⟨⟨b, i⟩, hb, ha⟩ := mem_flatMap.mp h
  rcases mem_append.mp ha with ha | ha
  · split at ha
    next => cases ha
    next hb' =>
      cases mem_singleton.mp ha
      exact .inl ⟨mem_of_getElem? (mk_mem_zipIdx_iff_getElem?.mp hb), hb'⟩
  · obtain ⟨q, hq, rfl⟩ := mem_map.mp ha
    exact .inr ⟨q, (mem_filter.mp hq).1, rfl⟩

theorem filter_sublist_rebuild :
    (frozen.filter (· ∉ sources)).Sublist (rebuild sources inserted frozen) := by
  have hfrom : ∀ n, (frozen.filter (· ∉ sources)).Sublist
      ((frozen.zipIdx n).flatMap fun q =>
        (if q.1 ∈ sources then [] else [q.1]) ++ (inserted.filter (·.1 = q.2)).map (·.2)) := by
    induction frozen with
    | nil => exact fun _ => List.Sublist.slnil
    | cons a frozen ih =>
      intro n
      rw [zipIdx_cons, flatMap_cons, append_assoc, filter_cons]
      by_cases ha : a ∈ sources
      · rw [if_neg (by simpa using ha), if_pos ha, nil_append]
        exact (ih (n + 1)).trans (sublist_append_right _ _)
      · rw [if_pos (by simpa using ha), if_neg ha]
        exact ((ih (n + 1)).trans (sublist_append_right _ _)).cons_cons a
  exact hfrom 0

theorem rebuild_append_first (rest : List Nat) :
    rebuild sources inserted frozen <+: rebuild sources inserted (frozen ++ rest) := by
  rw [rebuild, rebuild, zipIdx_append, flatMap_append]
  exact prefix_append _ _

theorem map_rebuild (hsources : ∀ a i, (a, i) ∈ frozen.zipIdx →
      (a ∈ sources ↔ i ∈ sources')) (hf : ∀ a ∈ frozen, f a = f₀ a)
    (hbuilt : inserted.map (fun q => (q.1, f q.2)) = built) :
    (rebuild sources inserted frozen).map f = rebuildFrozen sources' built (frozen.map f₀) := by
  subst hbuilt
  rw [rebuild, rebuildFrozen, zipIdx_map, flatMap_map, map_flatMap]
  refine flatMap_congr fun q hq => ?_
  have hmem : q.1 ∈ frozen := mem_of_getElem? (mk_mem_zipIdx_iff_getElem?.mp hq)
  have hiff := hsources q.1 q.2 hq
  rw [map_append, filter_map, map_map, map_map]
  congr 1
  simp only [Prod.map, id]
  by_cases hs : q.1 ∈ sources
  · rw [if_pos hs, if_pos (hiff.mp hs)]
    rfl
  · rw [if_neg hs, if_neg (mt hiff.mpr hs), map_singleton, hf q.1 hmem]

theorem nodup_rebuild (hfrozen : frozen.Nodup) (hfresh : ∀ a ∈ frozen, a < n)
    (hnew : ∀ q ∈ inserted, n ≤ q.2) (hinserted : (inserted.map (·.2)).Nodup) :
    (rebuild sources inserted frozen).Nodup := by
  have hinserted_at : ∀ i, ((inserted.filter (·.1 = i)).map (·.2)).Nodup := fun i =>
    hinserted.sublist (filter_sublist.map _)
  have hmem : ∀ {a i b}, b ∈ (if a ∈ sources then [] else [a]) ++
      (inserted.filter (·.1 = i)).map (·.2) → b = a ∨ (i, b) ∈ inserted := by
    intro a i b hb
    rcases mem_append.mp hb with hb | hb
    · split at hb
      next => cases hb
      next => exact .inl (mem_singleton.mp hb)
    · obtain ⟨⟨j, b⟩, hq, rfl⟩ := mem_map.mp hb
      obtain ⟨hin, heq⟩ := mem_filter.mp hq
      obtain rfl : j = i := of_decide_eq_true heq
      exact .inr hin
  have hzip : frozen.zipIdx.Pairwise fun q q' => q.1 ≠ q'.1 ∧ q.2 ≠ q'.2 := by
    refine List.Pairwise.and ?_ ?_
    · exact pairwise_map.mp (by rw [zipIdx_map_fst]; exact hfrozen)
    · exact pairwise_map.mp (by rw [zipIdx_map_snd]; exact nodup_range')
  have hold : ∀ q ∈ frozen.zipIdx, q.1 < n := fun q hq =>
    hfresh q.1 (mem_of_getElem? (mk_mem_zipIdx_iff_getElem?.mp hq))
  refine nodup_flatMap.mpr ⟨fun q hq => ?_, hzip.imp_of_mem fun {q q'} hq hq' hne => ?_⟩
  · refine List.Nodup.append ?_ (hinserted_at q.2) fun b hb hb' => ?_
    · split
      · exact nodup_nil
      · exact nodup_singleton _
    · obtain ⟨r, hr, rfl⟩ := mem_map.mp hb'
      have hge := hnew r (mem_filter.mp hr).1
      have hlt := hold q hq
      split at hb
      next => cases hb
      next =>
        rw [mem_singleton.mp hb] at hge
        omega
  · intro b hb hb'
    have hlt := hold q hq
    have hlt' := hold q' hq'
    rcases hmem hb with rfl | hin <;> rcases hmem hb' with heq | hin'
    · exact hne.1 heq
    · have := hnew _ hin'
      dsimp only at this
      omega
    · have := hnew _ hin
      subst heq
      dsimp only at this
      omega
    · -- 同じ番地は一度しか挿し込まれない
      have := inj_on_of_nodup_map hinserted hin hin' rfl
      exact hne.2 (congrArg Prod.fst this)

end

/-! ## 読み終えた window -/

section

variable {s : WindowState} {pending : PendingViews}

theorem WindowState.readCommitted_getD (h : i < len) :
    (s.readCommitted offset len).getD i 0 = s.committed (offset + i) := by
  simp [readCommitted, h]

/-- 公開済みの内容を写した状態では、読み出しは `ReadCommittedRange` の返すもの -/
theorem WindowState.readCommitted_reads {sc : SliceChunk} (hu32 : cx.chunkSize ≤ kMaxU32)
    (hlen : 0 < len) (h : Readable cx ino sc b offset len)
    (hview : ∀ q, s.committed q = committedByte cx ino sc b q) :
    Reads (sc.readCommittedRange cx ino offset len) b (.ok (s.readCommitted offset len)) := by
  have heq : s.readCommitted offset len =
      (List.range' offset len).map (committedByte cx ino sc b) :=
    range_map_eq (by simp [readCommitted]) fun i hi => by rw [readCommitted_getD hi, hview]
  exact readCommittedRange_alone hu32 hlen (fun _ => ⟨congrArg _ heq.symm, rfl⟩)
    fun _ hno => absurd h hno

/-- 組み立てた候補は、控えた候補を公開済みの内容に重ねたもの -/
theorem merged_buildGroup (hwf : ∀ x ∈ pending, x.2.WellFormed)
    (hg : g ∈ windowGroups (pending.map (·.2))) :
    Merged (pending.map (·.2)) s.committed s.Safe g (WindowSystem.buildGroup s pending g) := by
  refine merged_overlayPending hg (fun c hc => ?_) (by simp [WindowState.readCommitted])
    fun p hlo hhi => ?_
  · obtain ⟨x, hx, rfl⟩ := mem_map.mp hc
    exact (hwf x hx).stored
  · rw [WindowState.readCommitted_getD (by omega), Nat.add_sub_cancel' hlo]

/-- 読んだ後に境界が捕えられても、切られない位置の内容は変わらない -/
theorem Merged.mono (h : Merged vals view Safe g b)
    (hsafe : ∀ p, Safe' p → Safe p ∧ view' p = view p) : Merged vals view' Safe' g b :=
  { h with
    bytes := fun p v hp hv => by
      rw [(hsafe p hp).2]
      exact h.bytes p v (hsafe p hp).1 hv }

end

/-! ## 不変条件 -/

/-- 読み込みの途中の条件 -/
structure Hydrating (s : WindowState) (pending : PendingViews) (epoch : Nat)
    (todo : List GroupBuild) (built : List (Nat × FrozenSlice)) : Prop where
  epoch_le : epoch ≤ s.truncateEpoch
  wellFormed : ∀ x ∈ pending, x.2.WellFormed
  /-- 切り詰めが無ければ、`frozen_` は控えた列で始まる -/
  current : s.truncateEpoch = epoch →
    (∃ rest, s.frozen = pending.map (·.1) ++ rest) ∧ ∀ x ∈ pending, s.heap x.1 = x.2
  groups : s.truncateEpoch = epoch → ∃ ready, windowGroups (pending.map (·.2)) = ready ++ todo ∧
    List.Forall₂ (Merged (pending.map (·.2)) s.committed s.Safe) ready built

/-- Flush の控えた候補は、見えるものに限れば `frozen_` の先頭にある -/
structure CandidatesFirst (s : WindowState) (candidates : List Nat) : Prop where
  old : ∀ a ∈ candidates, a < s.next
  first : candidates.filter (fun a => (s.heap a).visibleLen ≠ 0) <+: s.frozen

def WindowLocal (S : WindowSystem) : WindowPc → Prop
  | .attempt _ => CandidatesFirst S.state S.candidates
  | .hydrate _ pending epoch todo built => CandidatesFirst S.state S.candidates ∧
    Hydrating S.state pending epoch todo built
  | .done _ => True

/-- 済んだ切り詰めの、長さとその時の `next` -/
abbrev Cuts := List (Nat × Nat)

def Cuts.watch (cuts : Cuts) (S : WindowSystem) : WindowEvent → Cuts
  | .clip size => (size, S.state.next) :: cuts
  | _ => cuts

structure WindowInv (S : WindowSystem) (cuts : Cuts) : Prop where
  valid : S.state.Valid
  pc : WindowLocal S S.pc
  past : ∀ x ∈ cuts, x.2 ≤ S.state.next
  /-- 切り詰めより前からある候補は、その長さを越えない -/
  cut : ∀ x ∈ cuts, ∀ a ∈ S.state.frozen, a < x.2 → (S.state.heap a).visibleEnd ≤ x.1

section

variable {s : WindowState} {pending : PendingViews} {epoch : Nat} {todo : List GroupBuild}
  {built : List (Nat × FrozenSlice)} {candidates : List Nat}

theorem CandidatesFirst.freezeActive (h : CandidatesFirst s candidates) (active : DirtyRanges) :
    CandidatesFirst (s.freezeActive active) candidates where
  old a ha := (h.old a ha).trans_le (Nat.le_add_right _ _)
  first := by
    have hsame : candidates.filter (fun a => ((s.freezeActive active).heap a).visibleLen ≠ 0) =
        candidates.filter fun a => (s.heap a).visibleLen ≠ 0 := by
      refine filter_congr fun a ha => ?_
      rw [show (s.freezeActive active).heap a = s.heap a from
        WindowState.alloc_heap_of_lt (h.old a ha)]
    rw [hsame]
    exact h.first.trans (prefix_append _ _)

theorem CandidatesFirst.clip (h : CandidatesFirst s candidates) (size : Nat) :
    CandidatesFirst (s.clip size) candidates where
  old := h.old
  first := by
    -- `frozen_` から外れている控えは、既に見えない
    have hsplit : candidates.filter (fun a => ((s.clip size).heap a).visibleLen ≠ 0) =
        (candidates.filter fun a => (s.heap a).visibleLen ≠ 0).filter
          fun a => ((s.heap a).clip size).visibleLen ≠ 0 := by
      rw [filter_filter]
      refine filter_congr fun a ha => ?_
      by_cases hmem : a ∈ s.frozen
      · have hheap : (s.clip size).heap a = (s.heap a).clip size := if_pos hmem
        rw [hheap]
        simp only [FrozenSlice.clip]
        by_cases hz : (s.heap a).visibleLen = 0 <;> simp [hz]
      · have hheap : (s.clip size).heap a = s.heap a := if_neg hmem
        have hz : (s.heap a).visibleLen = 0 := by
          by_contra hne
          exact hmem (h.first.subset (mem_filter.mpr ⟨ha, decide_eq_true hne⟩))
        rw [hheap]
        simp [hz]
    rw [hsplit]
    exact h.first.filter _

theorem Hydrating.freezeActive (hs : s.Valid) (h : Hydrating s pending epoch todo built)
    (active : DirtyRanges) : Hydrating (s.freezeActive active) pending epoch todo built where
  epoch_le := h.epoch_le
  wellFormed := h.wellFormed
  current he := by
    obtain ⟨⟨rest, hrest⟩, hheap⟩ := h.current he
    refine ⟨⟨rest ++ List.range' s.next active.length, ?_⟩, fun x hx => ?_⟩
    · rw [← append_assoc, ← hrest]
      rfl
    · have hmem : x.1 ∈ s.frozen := by
        rw [hrest]
        exact mem_append_left _ (mem_map_of_mem hx)
      exact (WindowState.alloc_heap_of_lt (hs.fresh _ hmem)).trans (hheap x hx)
  groups := h.groups

theorem Hydrating.capture (h : Hydrating s pending epoch todo built) (size : Nat) :
    Hydrating (s.capture size) pending epoch todo built where
  epoch_le := h.epoch_le
  wellFormed := h.wellFormed
  current := h.current
  groups he := by
    obtain ⟨ready, hgroups, hmerged⟩ := h.groups he
    refine ⟨ready, hgroups, hmerged.imp fun _ _ hm => hm.mono fun p hp => ?_⟩
    exact ⟨fun size' hs => hp size' (mem_cons_of_mem _ hs), if_pos (hp size mem_cons_self)⟩

theorem Hydrating.clip (h : Hydrating s pending epoch todo built) (size : Nat) :
    Hydrating (s.clip size) pending epoch todo built where
  epoch_le := h.epoch_le.trans (Nat.le_succ _)
  wellFormed := h.wellFormed
  current he := absurd (he ▸ h.epoch_le) (Nat.not_succ_le_self _)
  groups he := absurd (he ▸ h.epoch_le) (Nat.not_succ_le_self _)

theorem Hydrating.begin (hs : s.Valid) :
    Hydrating s s.views s.truncateEpoch (windowGroups (s.views.map (·.2))) [] where
  epoch_le := le_rfl
  wellFormed x hx := by
    obtain ⟨a, ha, rfl⟩ := mem_map.mp hx
    exact hs.wellFormed a ha
  current _ := by
    refine ⟨⟨[], ?_⟩, fun x hx => ?_⟩
    · rw [WindowState.views, map_map, append_nil]
      exact (map_id _).symm
    · obtain ⟨a, -, rfl⟩ := mem_map.mp hx
      rfl
  groups _ := ⟨[], rfl, .nil⟩

theorem Hydrating.read (h : Hydrating s pending epoch (g :: todo) built) :
    Hydrating s pending epoch todo (built ++ [WindowSystem.buildGroup s pending g]) where
  epoch_le := h.epoch_le
  wellFormed := h.wellFormed
  current := h.current
  groups he := by
    obtain ⟨ready, hgroups, hmerged⟩ := h.groups he
    have hg : g ∈ windowGroups (pending.map (·.2)) := by
      rw [hgroups]
      exact mem_append_right _ mem_cons_self
    refine ⟨ready ++ [g], by rw [hgroups, append_assoc]; rfl, ?_⟩
    exact rel_append hmerged (.cons (merged_buildGroup h.wellFormed hg) .nil)

end

/-! ## 差し替え -/

section

variable {s : WindowState} {pending : PendingViews} {rest : List Nat}
  {built : List (Nat × FrozenSlice)}

theorem PendingViews.mem_sources : a ∈ pending.sources ↔
    ∃ i ∈ windowSources (pending.map (·.2)), ∃ c, pending[i]? = some (a, c) := by
  simp [sources, mem_filterMap]

/-- 差し替えの条件：控えた後に切り詰めは無く、すべての window を読み終えている -/
structure Installs (s : WindowState) (pending : PendingViews) (rest : List Nat)
    (built : List (Nat × FrozenSlice)) : Prop where
  frozen : s.frozen = pending.map (·.1) ++ rest
  heap : ∀ x ∈ pending, s.heap x.1 = x.2
  merged : List.Forall₂ (Merged (pending.map (·.2)) s.committed s.Safe)
    (windowGroups (pending.map (·.2))) built

theorem Installs.slices (h : Installs s pending rest built) :
    s.slices = pending.map (·.2) ++ rest.map s.heap := by
  rw [WindowState.slices, h.frozen, map_append, map_map]
  congr 1
  exact map_congr_left h.heap

theorem Installs.sources_iff (hs : s.Valid) (h : Installs s pending rest built)
    (ha : (a, i) ∈ s.frozen.zipIdx) :
    a ∈ pending.sources ↔ i ∈ windowSources (pending.map (·.2)) := by
  have hget := mk_mem_zipIdx_iff_getElem?.mp ha
  have hat : ∀ {j b : Nat} {c : FrozenSlice}, pending[j]? = some (b, c) →
      s.frozen[j]? = some b := by
    intro j b c hj
    have hlt := (List.getElem?_eq_some_iff.mp hj).1
    rw [h.frozen, getElem?_append_left (by simpa using hlt), getElem?_map, hj]
    rfl
  rw [PendingViews.mem_sources]
  constructor
  · rintro ⟨j, hj, c, hc⟩
    have hlt := (List.getElem?_eq_some_iff.mp hget).1
    obtain rfl : i = j := (getElem?_inj hlt hs.nodup).mp (hget.trans (hat hc).symm)
    exact hj
  · intro hi
    obtain ⟨c, hc, -⟩ := mem_windowSources.mp hi
    rw [getElem?_map, Option.map_eq_some_iff] at hc
    obtain ⟨⟨a', c'⟩, hc', rfl⟩ := hc
    obtain rfl : a = a' := Option.some.inj (hget.symm.trans (hat hc'))
    exact ⟨i, hi, c', hc'⟩

open WindowSystem (insertedAt)

theorem map_insertedAt : (insertedAt s built).map
    (fun q => (q.1, (s.alloc (built.map (·.2))).heap q.2)) = built := by
  refine ext_getElem (by simp [insertedAt]) fun i h₁ h₂ => ?_
  simp [insertedAt, WindowState.alloc, h₂]

theorem map_snd_insertedAt : (insertedAt s built).map (·.2) = List.range' s.next built.length := by
  refine map_snd_zip ?_
  simp

theorem le_of_mem_insertedAt (hq : q ∈ insertedAt s built) :
    s.next ≤ q.2 ∧ q.2 < s.next + built.length := by
  have hmem : q.2 ∈ (insertedAt s built).map (·.2) := mem_map_of_mem hq
  rw [map_snd_insertedAt] at hmem
  exact mem_range'_1.mp hmem

section

variable (hs : s.Valid) (h : Installs s pending rest built)
include hs h

theorem Installs.slices_install : (WindowSystem.install s pending built).1.slices =
      rebuildFrozen (windowSources (pending.map (·.2))) built s.slices :=
  map_rebuild (fun _ _ ha => h.sources_iff hs ha)
    (fun a ha => WindowState.alloc_heap_of_lt (hs.fresh a ha)) map_insertedAt

theorem Installs.contentAt (hp : s.Safe p) :
    (WindowSystem.install s pending built).1.contentAt p = s.contentAt p := by
  rw [WindowState.contentAt, WindowState.contentAt, h.slices_install hs, h.slices]
  exact overlayAt_rebuildFrozen h.merged hp

theorem Installs.wellFormed : ∀ c ∈ pending.map (·.2), c.WellFormed := by
  intro c hc
  obtain ⟨x, hx, rfl⟩ := mem_map.mp hc
  rw [← h.heap x hx]
  refine hs.wellFormed _ ?_
  rw [h.frozen]
  exact mem_append_left _ (mem_map_of_mem hx)

theorem Installs.acceptedEnd : Slice.acceptedEnd (WindowSystem.install s pending built).1.slices =
      Slice.acceptedEnd s.slices := by
  rw [h.slices_install hs, h.slices]
  exact acceptedEnd_rebuildFrozen h.merged (h.wellFormed hs)

end

theorem new_of_install (ha : a ∈ (WindowSystem.install s pending built).1.frozen)
    (hnew : a ∉ s.frozen) : ∃ b ∈ built, (WindowSystem.install s pending built).1.heap a = b.2 := by
  rcases mem_rebuild ha with ⟨hold, -⟩ | ⟨q, hq, rfl⟩
  · exact absurd hold hnew
  · have hmem : (q.1, (s.alloc (built.map (·.2))).heap q.2) ∈ built := by
      have := mem_map_of_mem (f := fun q => (q.1, (s.alloc (built.map (·.2))).heap q.2)) hq
      rwa [map_insertedAt] at this
    exact ⟨_, hmem, rfl⟩

theorem Installs.valid (hs : s.Valid) (h : Installs s pending rest built) :
    (WindowSystem.install s pending built).1.Valid where
  nodup := by
    refine nodup_rebuild hs.nodup hs.fresh (fun q hq => (le_of_mem_insertedAt hq).1) ?_
    show ((insertedAt s built).map (·.2)).Nodup
    rw [map_snd_insertedAt]
    exact nodup_range'
  fresh a ha := by
    show a < s.next + (built.map (·.2)).length
    rw [length_map]
    rcases mem_rebuild ha with ⟨hold, -⟩ | ⟨q, hq, rfl⟩
    · exact (hs.fresh a hold).trans_le (Nat.le_add_right _ _)
    · exact (le_of_mem_insertedAt hq).2
  wellFormed a ha := by
    by_cases hold : a ∈ s.frozen
    · have hheap : (WindowSystem.install s pending built).1.heap a = s.heap a :=
        WindowState.alloc_heap_of_lt (hs.fresh a hold)
      rw [hheap]
      exact hs.wellFormed a hold
    · obtain ⟨b, hb, hheap⟩ := new_of_install ha hold
      obtain ⟨g, hg, hm⟩ := merged_of_mem h.merged hb
      have hlt := (windowGroups_groupOf hg).nonempty
      have hend := hm.recordEnd
      have hpos := hm.pos
      rw [hheap]
      exact ⟨by omega, hm.stored.le, fun _ => hm.accepted⟩

end

/-! ## 併合は内容と順序を保つ -/

/-- object か record を持つ、1 MiB 以上である、または window の境を跨ぐ -/
def FrozenSlice.staysWhole (c : FrozenSlice) : Bool :=
  c.preparedId.isSome || c.createdChunkId.isSome || c.recordedChunkId.isSome ||
    c.uncertainRecordChunkId.isSome || decide (kRmwWindowBytes ≤ c.visibleLen) ||
    decide (c.windowBase + kRmwWindowBytes < c.visibleEnd)

/-- `PrepareWindowCandidates` が成功を返す一手の、前の `s` と後の `s'`。`cuts` は済んだ切り詰め -/
structure Coalesces (s s' : WindowState) (result : List Nat) (cuts : Cuts) : Prop where
  /-- 内容は変わらない -/
  content : ∀ p, s.Safe p → s'.contentAt p = s.contentAt p
  /-- 受け入れた末尾の最大は変わらない -/
  accepted : acceptedEnd s'.slices = acceptedEnd s.slices
  /-- 併合しない候補は、そのまま順に残る -/
  kept : (s.frozen.filter fun a => (s.heap a).staysWhole).Sublist s'.frozen
  unchanged : ∀ a ∈ s.frozen, s'.heap a = s.heap a
  /-- 併合された候補は一つの window に収まる -/
  window : ∀ a ∈ s'.frozen, a ∉ s.frozen → ∃ base, kRmwWindowBytes ∣ base ∧
    base ≤ (s'.heap a).pos ∧ (s'.heap a).visibleEnd ≤ base + kRmwWindowBytes
  /-- 返る列は、見えるものに限れば `frozen_` の先頭 -/
  first : result.filter (fun a => (s'.heap a).visibleLen ≠ 0) <+: s'.frozen
  /-- 併合された候補が切り詰めた長さを越えるのは、その後で凍結した候補を併合し、それと同じ末尾を持つときだけ -/
  cut : ∀ x ∈ cuts, ∀ a ∈ s'.frozen, a ∉ s.frozen → (s'.heap a).visibleEnd ≤ x.1 ∨
    ∃ a₀ ∈ s.frozen, a₀ ∉ s'.frozen ∧ x.2 ≤ a₀ ∧
      (s.heap a₀).visibleEnd = (s'.heap a).visibleEnd

section

variable {s : WindowState} {pending : PendingViews} {rest : List Nat}
  {built : List (Nat × FrozenSlice)} {candidates : List Nat} {cuts : Cuts}

theorem CandidatesFirst.coalesces (h : CandidatesFirst s candidates) :
    Coalesces s s candidates cuts where
  content _ _ := rfl
  accepted := rfl
  kept := filter_sublist
  unchanged _ _ := rfl
  window _ ha hnew := absurd ha hnew
  first := h.first
  cut _ _ _ ha hnew := absurd ha hnew

theorem FrozenSlice.groupable_of_staysWhole {c : FrozenSlice} (h : c.staysWhole = true) :
    c.groupable = false := by
  by_contra hg
  obtain ⟨-, -, h₁, h₂, h₃, h₄, h₅, h₆⟩ :=
    FrozenSlice.groupable_iff.mp (Bool.eq_true_of_not_eq_false hg)
  have hfit : ¬ c.windowBase + kRmwWindowBytes < c.visibleEnd := Nat.not_lt.mpr h₆
  simp [staysWhole, h₁, h₂, h₃, h₄, hfit, Nat.not_le.mpr h₅] at h

theorem Installs.groupable_of_source (h : Installs s pending rest built)
    (ha : a ∈ pending.sources) : (s.heap a).groupable = true := by
  obtain ⟨i, hi, c, hc⟩ := PendingViews.mem_sources.mp ha
  obtain ⟨c', hc', hg, -⟩ := mem_windowSources.mp hi
  rw [getElem?_map, hc] at hc'
  cases hc'
  rwa [h.heap _ (mem_of_getElem? hc)]

theorem Installs.coalesces (hs : s.Valid) (h : Installs s pending rest built)
    (hcut : ∀ x ∈ cuts, ∀ a ∈ s.frozen, a < x.2 → (s.heap a).visibleEnd ≤ x.1) :
    Coalesces s (WindowSystem.install s pending built).1
      (WindowSystem.install s pending built).2 cuts where
  content _ hp := h.contentAt hs hp
  accepted := h.acceptedEnd hs
  kept := by
    refine List.Sublist.trans (monotone_filter_right _ fun a ha => ?_) filter_sublist_rebuild
    refine decide_eq_true fun hsource => ?_
    have hg := h.groupable_of_source hsource
    rw [FrozenSlice.groupable_of_staysWhole ha] at hg
    cases hg
  unchanged a ha := WindowState.alloc_heap_of_lt (hs.fresh a ha)
  window a ha hnew := by
    obtain ⟨b, hb, hheap⟩ := new_of_install ha hnew
    obtain ⟨g, hg, hm⟩ := merged_of_mem h.merged hb
    obtain ⟨hdvd, hlo, hhi⟩ := (windowGroups_groupOf hg).in_window
    rw [hheap, FrozenSlice.visibleEnd, hm.recordEnd, hm.pos]
    exact ⟨g.base, hdvd, hlo, hhi⟩
  first := by
    have hhead : (WindowSystem.install s pending built).2 <+:
        (WindowSystem.install s pending built).1.frozen := by
      show rebuild _ _ _ <+: rebuild _ _ s.frozen
      rw [h.frozen]
      exact rebuild_append_first rest
    rwa [filter_eq_self.mpr fun a ha => ?_]
    have hvis := ((h.valid hs).wellFormed a (hhead.subset ha)).visible
    exact decide_eq_true (Nat.pos_iff_ne_zero.mp hvis)
  cut x hx a ha hnew := by
    obtain ⟨b, hb, hheap⟩ := new_of_install ha hnew
    obtain ⟨g, hg, hm⟩ := merged_of_mem h.merged hb
    -- 末尾を決めた候補も置き換えられている
    obtain ⟨c, i, hc, hgr, hbase, hend⟩ := (windowGroups_groupOf hg).last
    have hget := mk_mem_zipIdx_iff_getElem?.mp hc
    have hi : i ∈ windowSources (pending.map (·.2)) :=
      mem_windowSources.mpr ⟨c, hget, hgr, g, hg, hbase.symm⟩
    rw [getElem?_map, Option.map_eq_some_iff] at hget
    obtain ⟨⟨a₀, c₀⟩, hpend, rfl⟩ := hget
    have hsource : a₀ ∈ pending.sources := PendingViews.mem_sources.mpr ⟨i, hi, c₀, hpend⟩
    have hmem : a₀ ∈ s.frozen := by
      rw [h.frozen]
      exact mem_append_left _ (mem_map_of_mem (mem_of_getElem? hpend))
    have hgone : a₀ ∉ (WindowSystem.install s pending built).1.frozen := by
      intro hin
      rcases mem_rebuild hin with ⟨-, hno⟩ | ⟨q, hq, hqa⟩
      · exact hno hsource
      · have hlt := hs.fresh a₀ hmem
        have hge := (le_of_mem_insertedAt hq).1
        omega
    have hlast : (s.heap a₀).visibleEnd =
        ((WindowSystem.install s pending built).1.heap a).visibleEnd := by
      rw [h.heap _ (mem_of_getElem? hpend), hheap]
      exact hend.trans hm.recordEnd.symm
    rcases Nat.lt_or_ge a₀ x.2 with hold | hnewer
    · exact .inl (hlast ▸ hcut x hx a₀ hmem hold)
    · exact .inr ⟨a₀, hmem, hgone, hnewer, hlast⟩

end

/-! ## 一手と実行 -/

section

variable {S S' : WindowSystem} {cuts : Cuts}

theorem Hydrating.installs (h : Hydrating s pending s.truncateEpoch [] built) :
    ∃ rest, Installs s pending rest built := by
  obtain ⟨⟨rest, hrest⟩, hheap⟩ := h.current rfl
  obtain ⟨ready, hgroups, hmerged⟩ := h.groups rfl
  rw [append_nil] at hgroups
  exact ⟨rest, hrest, hheap, hgroups ▸ hmerged⟩

/-- `PrepareWindowCandidates` の一動作 -/
inductive WindowMoves : WindowSystem → WindowSystem → Prop
  | fail {S e} : WindowMoves S { S with pc := .done (.error e) }
  | keep {S left} : S.pc = .attempt left → WindowMoves S { S with pc := .done (.ok S.candidates) }
  | view {S left left' groups} : S.pc = .attempt left →
      groups = windowGroups (S.state.views.map (·.2)) →
      WindowMoves S { S with pc := .hydrate left' S.state.views S.state.truncateEpoch groups [] }
  | read {S left pending epoch g todo built b} :
      S.pc = .hydrate left pending epoch (g :: todo) built →
      b = WindowSystem.buildGroup S.state pending g →
      WindowMoves S { S with pc := .hydrate left pending epoch todo (built ++ [b]) }
  | retry {S left pending epoch built left'} : S.pc = .hydrate left pending epoch [] built →
      WindowMoves S { S with pc := .attempt left' }
  | install {S left pending built s' result} :
      S.pc = .hydrate left pending S.state.truncateEpoch [] built →
      (s', result) = WindowSystem.install S.state pending built →
      WindowMoves S { S with state := s', pc := .done (.ok result) }

theorem WindowSystem.exec_moves (h : S.exec fault = some S') : WindowMoves S S' := by
  unfold exec at h
  split at h
  next => cases h; exact .fail
  next hpc =>
    split at h <;> cases h
    · exact .keep hpc
    · exact .view hpc rfl
  next hpc =>
    split at h <;> cases h
    · exact .fail
    · exact .read hpc rfl
  next hpc =>
    split at h <;> cases h
    next => exact .retry hpc
    next he =>
      obtain rfl := not_not.mp he
      exact .install hpc rfl
  next => cases h

section

variable (h : WindowInv S cuts)
include h

theorem WindowInv.run (hm : WindowMoves S S') : WindowInv S' cuts := by
  obtain ⟨hv, hpc, hpast, hcut⟩ := h
  cases hm with
  | fail => exact ⟨hv, trivial, hpast, hcut⟩
  | keep => exact ⟨hv, trivial, hpast, hcut⟩
  | retry he =>
    rw [he] at hpc
    exact ⟨hv, hpc.1, hpast, hcut⟩
  | view he hg =>
    rw [he] at hpc
    exact ⟨hv, ⟨hpc, hg ▸ .begin hv⟩, hpast, hcut⟩
  | read he hb =>
    rw [he] at hpc
    exact ⟨hv, ⟨hpc.1, hb ▸ hpc.2.read⟩, hpast, hcut⟩
  | @install left pending built s' result he hinst =>
    rw [he] at hpc
    cases hinst
    obtain ⟨rest, hi⟩ := hpc.2.installs
    refine ⟨hi.valid hv, trivial, fun x hx => (hpast x hx).trans (Nat.le_add_right _ _), ?_⟩
    intro x hx a ha hlt
    have hltn : a < S.state.next := hlt.trans_le (hpast x hx)
    -- 新しい候補の番地は、どの切り詰めよりも後のものである
    rcases mem_rebuild ha with ⟨hold, -⟩ | ⟨q, hq, rfl⟩
    · have hheap : (WindowSystem.install S.state pending built).1.heap a = S.state.heap a :=
        WindowState.alloc_heap_of_lt hltn
      have hle := hcut x hx a hold hlt
      rw [← hheap] at hle
      exact hle
    · exact absurd (le_of_mem_insertedAt hq).1 (Nat.not_le.mpr hltn)

theorem WindowInv.freeze (hne : ∀ r ∈ active, r.2 ≠ []) :
    WindowInv { S with state := S.state.freezeActive active } cuts := by
  obtain ⟨hv, hpc, hpast, hcut⟩ := h
  refine ⟨hv.freezeActive hne, ?_, fun x hx => (hpast x hx).trans (Nat.le_add_right _ _), ?_⟩
  · show WindowLocal _ S.pc
    cases hS : S.pc <;> rw [hS] at hpc
    · exact hpc.freezeActive active
    · exact ⟨hpc.1.freezeActive active, hpc.2.freezeActive hv active⟩
    · trivial
  · intro x hx a ha hlt
    have hltn : a < S.state.next := hlt.trans_le (hpast x hx)
    rcases mem_append.mp ha with ha | ha
    · have hheap : (S.state.freezeActive active).heap a = S.state.heap a :=
        WindowState.alloc_heap_of_lt hltn
      rw [hheap]
      exact hcut x hx a ha hlt
    · exact absurd (mem_range'_1.mp ha).1 (Nat.not_le.mpr hltn)

theorem WindowInv.capture (size : Nat) :
    WindowInv { S with state := S.state.capture size } cuts := by
  obtain ⟨hv, hpc, hpast, hcut⟩ := h
  refine ⟨{ hv with }, ?_, hpast, hcut⟩
  show WindowLocal _ S.pc
  cases hS : S.pc <;> rw [hS] at hpc
  · exact { hpc with }
  · exact ⟨{ hpc.1 with }, hpc.2.capture size⟩
  · trivial

theorem WindowInv.clip (size : Nat) :
    WindowInv { S with state := S.state.clip size } ((size, S.state.next) :: cuts) := by
  obtain ⟨hv, hpc, hpast, hcut⟩ := h
  refine ⟨hv.clip size, ?_, forall_mem_cons.mpr ⟨le_rfl, hpast⟩, ?_⟩
  · show WindowLocal _ S.pc
    cases hS : S.pc <;> rw [hS] at hpc
    · exact hpc.clip size
    · exact ⟨hpc.1.clip size, hpc.2.clip size⟩
    · trivial
  · refine forall_mem_cons.mpr ⟨fun a ha _ => WindowState.visibleEnd_clip ha, ?_⟩
    intro x hx a ha hlt
    exact (WindowState.visibleEnd_clip_le size).trans (hcut x hx a (mem_filter.mp ha).1 hlt)

theorem WindowInv.step (hs : S.step ev = some (label, S')) : WindowInv S' (cuts.watch S label) := by
  cases ev with
  | run fault =>
    obtain ⟨S₁, he, heq⟩ := Option.map_eq_some_iff.mp hs
    cases heq
    exact h.run (WindowSystem.exec_moves he)
  | freeze active =>
    simp only [WindowSystem.step] at hs
    split at hs <;> cases hs
    next hne => exact h.freeze fun r hr => of_decide_eq_true (all_eq_true.mp hne r hr)
  | capture size => cases hs; exact h.capture size
  | clip size =>
    simp only [WindowSystem.step] at hs
    split at hs <;> cases hs
    exact h.clip size

end

theorem WindowInv.start (h : s.Valid) :
    WindowInv (WindowSystem.start s) [] where
  valid := h
  pc := by
    have hall : s.frozen.filter (fun a => (s.heap a).visibleLen ≠ 0) = s.frozen :=
      filter_eq_self.mpr fun a ha =>
        decide_eq_true (Nat.pos_iff_ne_zero.mp (h.wellFormed a ha).visible)
    exact ⟨h.fresh, hall ▸ prefix_rfl⟩
  past := nofun
  cut := nofun

/--
`PrepareWindowCandidates` が成功を返すとき、`frozen_` の差し替えは内容と順序を保つ。

初めの `frozen_` も公開済みの内容も任意であり、その間に凍結と切り詰めがどのように割り込んでもよい。
-/
theorem window_coalescing_exact (s₀ : WindowState) (h₀ : s₀.Valid) (evs : List WindowEvent) :
    let r := Infra.runWith WindowSystem.step Cuts.watch (WindowSystem.start s₀, []) evs
    ∀ ev label S' result, r.1.step ev = some (label, S') → (∀ x, r.1.pc ≠ .done x) →
      S'.pc = .done (.ok result) → Coalesces r.1.state S'.state result r.2 := by
  intro r ev label S' result hs hrunning hdone
  have hinv : WindowInv r.1 r.2 :=
    Infra.runWith_always _ _ (fun _ _ _ _ _ h hs => h.step hs) _ (.start h₀)
  clear_value r
  obtain ⟨hv, hpc, hpast, hcut⟩ := hinv
  cases ev with
  | run fault =>
    obtain ⟨S₁, hexec, heq⟩ := Option.map_eq_some_iff.mp hs
    cases heq
    cases WindowSystem.exec_moves hexec with
    | fail => cases hdone
    | keep hkeep =>
      cases hdone
      rw [hkeep] at hpc
      exact hpc.coalesces
    | view => cases hdone
    | read => cases hdone
    | retry => cases hdone
    | install hread hinst =>
      cases hdone
      rw [hread] at hpc
      cases hinst
      obtain ⟨rest, hi⟩ := hpc.2.installs
      exact hi.coalesces hv hcut
  | freeze active =>
    simp only [WindowSystem.step] at hs
    split at hs <;> cases hs
    exact absurd hdone (hrunning _)
  | capture size => cases hs; exact absurd hdone (hrunning _)
  | clip size =>
    simp only [WindowSystem.step] at hs
    split at hs <;> cases hs
    exact absurd hdone (hrunning _)

/-- 位置 0 の一 byte と、位置 2 からの三 byte -/
def twoRanges : WindowState where
  heap := fun a => WindowState.freshSlice (if a = 0 then (0, [1]) else (2, [2, 3, 4]))
  next := 2
  frozen := [0, 1]
  committed := fun p => if p < 4 then 9 else 0

theorem twoRanges_valid : twoRanges.Valid where
  nodup := by decide
  fresh := by decide
  wellFormed := by
    intro a ha
    have hcases : a = 0 ∨ a = 1 := by simpa [twoRanges] using ha
    rcases hcases with rfl | rfl
    · exact ⟨by decide, by decide, fun _ => rfl⟩
    · exact ⟨by decide, by decide, fun _ => rfl⟩

/-- 読み込みの途中で長さ 4 に切り詰められ、その内側に凍結も入り、控え直して読み終えたところ -/
def racedHistory : List WindowEvent :=
  [.run none, .capture 4, .clip 4, .freeze [(0, [7])], .run none, .run none, .run none, .run none]

theorem window_coalescing_exact_raced :
    let r := Infra.runWith WindowSystem.step Cuts.watch (WindowSystem.start twoRanges, [])
      racedHistory
    ∃ S' result, r.1.step (.run none) = some (.run none, S') ∧ S'.pc = .done (.ok result) ∧
      r.1.state.frozen = [0, 1, 2] ∧ S'.state.frozen = [3] ∧ r.2 = [(4, 2)] ∧
      (twoRanges.heap 1).visibleEnd = 5 ∧ (S'.state.heap 3).visibleEnd ≤ 4 ∧
      Coalesces r.1.state S'.state result r.2 := by
  intro r
  have h := window_coalescing_exact twoRanges twoRanges_valid racedHistory (.run none) _ _ _ rfl
    (fun x hx => by cases hx) rfl
  refine ⟨_, _, rfl, rfl, rfl, rfl, rfl, rfl, ?_, h⟩
  -- 切り詰めの後で凍結した番地 2 の末尾は 1 であり、末尾 4 を決めたのはそれではない
  rcases h.cut (4, 2) mem_cons_self 3 mem_cons_self (by decide) with hle | ⟨a₀, ha₀, h₀⟩
  · exact hle
  · have hmem : a₀ ∈ [0, 1, 2] := ha₀
    simp only [mem_cons, not_mem_nil, or_false] at hmem
    rcases hmem with rfl | rfl | rfl
    · exact absurd h₀.2.1 (by decide)
    · exact absurd h₀.2.1 (by decide)
    · exact absurd h₀.2.2 (by decide)

end

end SwordFS.Chunk.Slice
