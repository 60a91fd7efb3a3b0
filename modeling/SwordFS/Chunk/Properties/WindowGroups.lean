import SwordFS.Chunk.Slice.Flush

/-!
# window の併合と内容

`PrepareWindowCandidates` の計算の部分について示す。
作られる window は 1 MiB の区間に収まり、端は併合される候補の端である。

併合された候補は、重なり得る候補のすべての後に移る。その byte には重なる候補がすべて重ねてあるので、
移っても内容は変わらない。
-/

namespace SwordFS.Chunk.Slice

open List Infra Metadata

/-! ## 候補の列の内容 -/

def FrozenSlice.byteAt (c : FrozenSlice) (p : Nat) : Option UInt8 :=
  if c.pos ≤ p ∧ p < c.pos + c.visibleLen then some (c.payload.getD (p - c.pos) 0) else none

/-- `v` の上に候補を古い順に重ねたときの、位置 `p` の byte -/
def overlayAt (cs : List FrozenSlice) (p : Nat) (v : UInt8) : UInt8 :=
  cs.foldl (fun v c => (c.byteAt p).getD v) v

def FrozenSlice.acceptedEnd (c : FrozenSlice) : Nat := c.pos + min c.eofLen c.visibleLen

def acceptedEnd (cs : List FrozenSlice) : Nat := (cs.map (·.acceptedEnd)).foldr max 0

/-- 候補が保つ条件。手を付けていない候補は、書かれた byte をすべて受け入れている -/
structure FrozenSlice.WellFormed (c : FrozenSlice) : Prop where
  visible : 0 < c.visibleLen
  stored : c.visibleLen ≤ c.payload.length
  accepted : c.windowGroup = false → c.eofLen = c.visibleLen

variable {c : FrozenSlice}

theorem FrozenSlice.byteAt_eq_none :
    c.byteAt p = none ↔ ¬ (c.pos ≤ p ∧ p < c.pos + c.visibleLen) := by
  unfold byteAt
  split <;> simp_all

theorem FrozenSlice.byteAt_of_mem (hlo : c.pos ≤ p) (hhi : p < c.pos + c.visibleLen) :
    c.byteAt p = some (c.payload.getD (p - c.pos) 0) :=
  if_pos ⟨hlo, hhi⟩

@[simp]
theorem overlayAt_nil (p : Nat) (v : UInt8) : overlayAt [] p v = v := rfl

@[simp]
theorem overlayAt_cons (c : FrozenSlice) (cs : List FrozenSlice) (p : Nat) (v : UInt8) :
    overlayAt (c :: cs) p v = overlayAt cs p ((c.byteAt p).getD v) := rfl

@[simp]
theorem overlayAt_append (cs ds : List FrozenSlice) (p : Nat) (v : UInt8) :
    overlayAt (cs ++ ds) p v = overlayAt ds p (overlayAt cs p v) :=
  foldl_append

variable {cs : List FrozenSlice}

theorem overlayAt_of_none (h : ∀ c ∈ cs, c.byteAt p = none) (v : UInt8) : overlayAt cs p v = v := by
  induction cs with
  | nil => rfl
  | cons c cs ih =>
    rw [overlayAt_cons, h c mem_cons_self]
    exact ih fun d hd => h d (mem_cons_of_mem _ hd)

theorem acceptedEnd_le_iff : acceptedEnd cs ≤ n ↔ ∀ c ∈ cs, c.acceptedEnd ≤ n := by
  induction cs with
  | nil => simp [acceptedEnd]
  | cons c cs ih =>
    have hcons : acceptedEnd (c :: cs) = max c.acceptedEnd (acceptedEnd cs) := rfl
    rw [hcons, Nat.max_le, ih, forall_mem_cons]

theorem le_acceptedEnd (h : c ∈ cs) : c.acceptedEnd ≤ acceptedEnd cs :=
  acceptedEnd_le_iff.mp le_rfl c h

/-! ## window への振り分け -/

/-- 併合してよい候補は、手を付けられておらず、一つの window に収まる -/
theorem FrozenSlice.groupable_iff : c.groupable = true ↔
    c.visibleLen ≠ 0 ∧ c.windowGroup = false ∧ c.preparedId = none ∧ c.createdChunkId = none ∧
      c.recordedChunkId = none ∧ c.uncertainRecordChunkId = none ∧
      c.visibleLen < kRmwWindowBytes ∧ c.pos + c.visibleLen ≤ c.windowBase + kRmwWindowBytes := by
  have hpos : c.pos < c.windowBase + kRmwWindowBytes := by
    have := Nat.lt_div_mul_add (a := c.pos) (b := kRmwWindowBytes) (by decide)
    exact this
  simp only [groupable, decide_eq_true_eq, Bool.not_eq_true', Option.isNone_iff_eq_none]
  refine ⟨fun ⟨h₁, h₂, h₃, h₄, h₅, h₆, h₇, h₈⟩ => ⟨h₁, h₂, h₃, h₄, h₅, h₆, h₇, by omega⟩,
    fun ⟨h₁, h₂, h₃, h₄, h₅, h₆, h₇, h₈⟩ => ⟨h₁, h₂, h₃, h₄, h₅, h₆, h₇, by omega⟩⟩

theorem FrozenSlice.windowBase_le (c : FrozenSlice) : c.windowBase ≤ c.pos :=
  Nat.div_mul_le_self _ _

def FrozenSlice.asGroup (c : FrozenSlice) (i : Nat) : GroupBuild :=
  ⟨c.windowBase, c.pos, c.pos + c.visibleLen, c.pos + c.visibleLen, i, 1⟩

def GroupBuild.extend (g : GroupBuild) (i : Nat) (c : FrozenSlice) : GroupBuild :=
  { g with
    pos := min g.pos c.pos
    recordEnd := max g.recordEnd (c.pos + c.visibleLen)
    dirtyEnd := max g.dirtyEnd (c.pos + c.visibleLen)
    insertAfter := max g.insertAfter i
    intervalCount := g.intervalCount + 1 }

section

variable {i : Nat} {c : FrozenSlice} {gs : List GroupBuild}

theorem mem_addInterval (h : g' ∈ addInterval i c gs) :
    g' ∈ gs ∨ g' = c.asGroup i ∨ ∃ g ∈ gs, g.base = c.windowBase ∧ g' = g.extend i c := by
  induction gs with
  | nil => exact .inr (.inl (mem_singleton.mp h))
  | cons g gs ih =>
    unfold addInterval at h
    split at h
    next =>
      rcases mem_cons.mp h with rfl | h
      · exact .inr (.inl rfl)
      · exact .inl h
    next =>
      split at h
      next heq =>
        rcases mem_cons.mp h with rfl | h
        · exact .inr (.inr ⟨g, mem_cons_self, heq.symm, rfl⟩)
        · exact .inl (mem_cons_of_mem _ h)
      next =>
        rcases mem_cons.mp h with rfl | h
        · exact .inl mem_cons_self
        · rcases ih h with h | h | ⟨g₀, hg₀, h⟩
          · exact .inl (mem_cons_of_mem _ h)
          · exact .inr (.inl h)
          · exact .inr (.inr ⟨g₀, mem_cons_of_mem _ hg₀, h⟩)

theorem mem_addInterval_of_ne (h : g ∈ gs) (hne : g.base ≠ c.windowBase) :
    g ∈ addInterval i c gs := by
  induction gs with
  | nil => cases h
  | cons g₀ gs ih =>
    unfold addInterval
    split
    next => exact mem_cons_of_mem _ h
    next =>
      split
      next heq =>
        rcases mem_cons.mp h with rfl | h
        · exact absurd heq.symm hne
        · exact mem_cons_of_mem _ h
      next =>
        rcases mem_cons.mp h with rfl | h
        · exact mem_cons_self
        · exact mem_cons_of_mem _ (ih h)

theorem extend_mem_addInterval (hsorted : gs.Pairwise (·.base < ·.base))
    (h : g ∈ gs) (heq : g.base = c.windowBase) : g.extend i c ∈ addInterval i c gs := by
  induction gs with
  | nil => cases h
  | cons g₀ gs ih =>
    obtain ⟨hhead, htail⟩ := pairwise_cons.mp hsorted
    unfold addInterval
    rcases mem_cons.mp h with rfl | h
    · rw [if_neg (by omega), if_pos heq.symm]
      exact mem_cons_self
    · have hlt := hhead g h
      rw [if_neg (by omega), if_neg (by omega)]
      exact mem_cons_of_mem _ (ih htail h)

theorem asGroup_mem_addInterval (h : ∀ g ∈ gs, g.base ≠ c.windowBase) :
    c.asGroup i ∈ addInterval i c gs := by
  induction gs with
  | nil => exact mem_singleton_self _
  | cons g gs ih =>
    unfold addInterval
    split
    next => exact mem_cons_self
    next =>
      rw [if_neg fun heq => h g mem_cons_self heq.symm]
      exact mem_cons_of_mem _ (ih fun g' hg' => h g' (mem_cons_of_mem _ hg'))

theorem addInterval_sorted (hsorted : gs.Pairwise (·.base < ·.base)) :
    (addInterval i c gs).Pairwise (·.base < ·.base) := by
  induction gs with
  | nil => exact pairwise_singleton _ _
  | cons g gs ih =>
    obtain ⟨hhead, htail⟩ := pairwise_cons.mp hsorted
    unfold addInterval
    split
    next hlt =>
      refine pairwise_cons.mpr ⟨fun g' hg' => ?_, hsorted⟩
      rcases mem_cons.mp hg' with rfl | hg'
      · exact hlt
      · exact hlt.trans (hhead g' hg')
    next hge =>
      split
      next => exact pairwise_cons.mpr ⟨hhead, htail⟩
      next hne =>
        refine pairwise_cons.mpr ⟨fun g' hg' => ?_, ih htail⟩
        rcases mem_addInterval hg' with hg' | rfl | ⟨g₀, hg₀, -, rfl⟩
        · exact hhead g' hg'
        · show g.base < c.windowBase
          omega
        · exact hhead g₀ hg₀

end

/-- window `g` は、`l` の候補から作られた -/
structure GroupOf (l : List (FrozenSlice × Nat)) (g : GroupBuild) : Prop where
  first : ∃ c i, (c, i) ∈ l ∧ c.groupable = true ∧ c.windowBase = g.base ∧ c.pos = g.pos
  last : ∃ c i, (c, i) ∈ l ∧ c.groupable = true ∧ c.windowBase = g.base ∧
    c.pos + c.visibleLen = g.recordEnd
  position : ∃ c, (c, g.insertAfter) ∈ l
  nonempty : g.pos < g.recordEnd
  dirty : g.dirtyEnd = g.recordEnd

/-- `gs` は、`l` の候補を振り分けた window の列 -/
structure GroupsOf (l : List (FrozenSlice × Nat)) (gs : List GroupBuild) : Prop where
  sorted : gs.Pairwise (·.base < ·.base)
  groupOf : ∀ g ∈ gs, GroupOf l g
  covers : ∀ c i, (c, i) ∈ l → c.groupable = true → ∃ g ∈ gs, g.base = c.windowBase ∧
    g.pos ≤ c.pos ∧ c.pos + c.visibleLen ≤ g.recordEnd ∧ i ≤ g.insertAfter

section

variable {l l' : List (FrozenSlice × Nat)} {gs : List GroupBuild} {c : FrozenSlice} {i : Nat}

theorem GroupOf.mono (h : GroupOf l g) (hl : ∀ x ∈ l, x ∈ l') : GroupOf l' g := by
  obtain ⟨⟨c, i, hc, h₁⟩, ⟨c', i', hc', h₂⟩, ⟨c'', hc''⟩, hlt, hd⟩ := h
  exact ⟨⟨c, i, hl _ hc, h₁⟩, ⟨c', i', hl _ hc', h₂⟩, ⟨c'', hl _ hc''⟩, hlt, hd⟩

theorem GroupOf.asGroup (hmem : (c, i) ∈ l) (hg : c.groupable = true) :
    GroupOf l (c.asGroup i) where
  first := ⟨c, i, hmem, hg, rfl, rfl⟩
  last := ⟨c, i, hmem, hg, rfl, rfl⟩
  position := ⟨c, hmem⟩
  nonempty := by
    have hne := (FrozenSlice.groupable_iff.mp hg).1
    show c.pos < c.pos + c.visibleLen
    omega
  dirty := rfl

theorem GroupOf.extend (h : GroupOf l g) (hmem : (c, i) ∈ l)
    (hg : c.groupable = true) (heq : g.base = c.windowBase) : GroupOf l (g.extend i c) where
  first := by
    rcases Nat.le_total g.pos c.pos with hle | hle
    · obtain ⟨c₀, i₀, h₁, h₂, h₃, h₄⟩ := h.first
      exact ⟨c₀, i₀, h₁, h₂, h₃, h₄.trans (Nat.min_eq_left hle).symm⟩
    · exact ⟨c, i, hmem, hg, heq.symm, (Nat.min_eq_right hle).symm⟩
  last := by
    rcases Nat.le_total (c.pos + c.visibleLen) g.recordEnd with hle | hle
    · obtain ⟨c₀, i₀, h₁, h₂, h₃, h₄⟩ := h.last
      exact ⟨c₀, i₀, h₁, h₂, h₃, h₄.trans (Nat.max_eq_left hle).symm⟩
    · exact ⟨c, i, hmem, hg, heq.symm, (Nat.max_eq_right hle).symm⟩
  position := by
    rcases Nat.le_total i g.insertAfter with hle | hle
    · obtain ⟨c₀, h₀⟩ := h.position
      exact ⟨c₀, by rwa [GroupBuild.extend, Nat.max_eq_left hle]⟩
    · exact ⟨c, by rwa [GroupBuild.extend, Nat.max_eq_right hle]⟩
  nonempty := by
    have hlt := h.nonempty
    show min g.pos c.pos < max g.recordEnd (c.pos + c.visibleLen)
    omega
  dirty := congrArg (max · (c.pos + c.visibleLen)) h.dirty

theorem GroupsOf.add (h : GroupsOf l gs) (hg : c.groupable = true) :
    GroupsOf (l ++ [(c, i)]) (addInterval i c gs) where
  sorted := addInterval_sorted h.sorted
  groupOf := by
    have hself : (c, i) ∈ l ++ [(c, i)] := mem_append_right _ (mem_singleton_self _)
    have hold : ∀ g ∈ gs, GroupOf (l ++ [(c, i)]) g := fun g hgs =>
      (h.groupOf g hgs).mono fun _ hx => mem_append_left _ hx
    intro g' hg'
    rcases mem_addInterval hg' with hgs | rfl | ⟨g, hgs, heq, rfl⟩
    · exact hold g' hgs
    · exact .asGroup hself hg
    · exact (hold g hgs).extend hself hg heq
  covers := by
    intro c₀ i₀ hmem hg₀
    rcases mem_append.mp hmem with hmem | hmem
    · obtain ⟨g, hgs, hbase, hlo, hhi, hi⟩ := h.covers c₀ i₀ hmem hg₀
      by_cases heq : g.base = c.windowBase
      · refine ⟨g.extend i c, extend_mem_addInterval h.sorted hgs heq, hbase, ?_, ?_, ?_⟩
        · exact (Nat.min_le_left _ _).trans hlo
        · exact hhi.trans (Nat.le_max_left _ _)
        · exact hi.trans (Nat.le_max_left _ _)
      · exact ⟨g, mem_addInterval_of_ne hgs heq, hbase, hlo, hhi, hi⟩
    · cases mem_singleton.mp hmem
      by_cases hex : ∃ g ∈ gs, g.base = c.windowBase
      · obtain ⟨g, hgs, heq⟩ := hex
        exact ⟨g.extend i c, extend_mem_addInterval h.sorted hgs heq, heq, Nat.min_le_right _ _,
          Nat.le_max_right _ _, Nat.le_max_right _ _⟩
      · have hnone : ∀ g ∈ gs, g.base ≠ c.windowBase := fun g hgs heq => hex ⟨g, hgs, heq⟩
        exact ⟨c.asGroup i, asGroup_mem_addInterval hnone, rfl, le_rfl, le_rfl, le_rfl⟩

theorem GroupsOf.skip (h : GroupsOf l gs) (hg : c.groupable = false) :
    GroupsOf (l ++ [(c, i)]) gs where
  sorted := h.sorted
  groupOf g hgs := (h.groupOf g hgs).mono fun _ hx => mem_append_left _ hx
  covers c₀ i₀ hmem hg₀ := by
    rcases mem_append.mp hmem with hmem | hmem
    · exact h.covers c₀ i₀ hmem hg₀
    · cases mem_singleton.mp hmem
      rw [hg] at hg₀
      cases hg₀

theorem GroupsOf.foldl (h : GroupsOf l gs) (rest : List (FrozenSlice × Nat)) :
    GroupsOf (l ++ rest)
      (rest.foldl (fun gs p => if p.1.groupable then addInterval p.2 p.1 gs else gs) gs) := by
  induction rest generalizing l gs with
  | nil => rwa [append_nil]
  | cons p rest ih =>
    rw [append_cons, foldl_cons]
    refine ih ?_
    split
    next hg => exact h.add hg
    next hg => exact h.skip (Bool.eq_false_of_not_eq_true hg)

end

section

variable {pending : List FrozenSlice} {g : GroupBuild}

theorem eq_of_base {gs : List GroupBuild} (hsorted : gs.Pairwise (·.base < ·.base))
    (h : g ∈ gs) (h' : g' ∈ gs) (heq : g.base = g'.base) : g = g' := by
  have hnodup : (gs.map (·.base)).Nodup := pairwise_map.mpr (hsorted.imp fun hlt => hlt.ne)
  exact inj_on_of_nodup_map hnodup h h' heq

theorem groupsOf_pending (pending : List FrozenSlice) :
    GroupsOf pending.zipIdx (pending.zipIdx.foldl
      (fun gs p => if p.1.groupable then addInterval p.2 p.1 gs else gs) []) := by
  have hnil : GroupsOf [] [] := ⟨List.Pairwise.nil, nofun, nofun⟩
  exact hnil.foldl pending.zipIdx

theorem windowGroups_groupOf (h : g ∈ windowGroups pending) : GroupOf pending.zipIdx g :=
  (groupsOf_pending pending).groupOf g (mem_filter.mp h).1

theorem GroupOf.in_window (h : GroupOf l g) :
    kRmwWindowBytes ∣ g.base ∧ g.base ≤ g.pos ∧ g.recordEnd ≤ g.base + kRmwWindowBytes := by
  obtain ⟨c, -, -, -, hbase, hpos⟩ := h.first
  obtain ⟨c', -, -, hg', hbase', hend⟩ := h.last
  have hfit := (FrozenSlice.groupable_iff.mp hg').2.2.2.2.2.2.2
  refine ⟨hbase ▸ Nat.dvd_mul_left _ _, hbase ▸ hpos ▸ c.windowBase_le, ?_⟩
  rw [← hend, ← hbase']
  exact hfit

theorem mem_windowSources : i ∈ windowSources pending ↔
    ∃ c, pending[i]? = some c ∧ c.groupable = true ∧
      ∃ g ∈ windowGroups pending, g.base = c.windowBase := by
  simp only [windowSources, mem_map, mem_filter, mk_mem_zipIdx_iff_getElem?,
    Bool.and_eq_true, any_eq_true, beq_iff_eq, Prod.exists, exists_eq_right]

theorem source_in_group {i : Nat} (hc : pending[i]? = some c)
    (hg : c.groupable = true) (hgs : g ∈ windowGroups pending) (hbase : g.base = c.windowBase) :
    g.pos ≤ c.pos ∧ c.pos + c.visibleLen ≤ g.recordEnd ∧ i ≤ g.insertAfter := by
  have hall := groupsOf_pending pending
  obtain ⟨g', hgs', hbase', h⟩ := hall.covers c i (mk_mem_zipIdx_iff_getElem?.mpr hc) hg
  obtain rfl : g' = g :=
    eq_of_base hall.sorted hgs' (mem_filter.mp hgs).1 (hbase'.trans hbase.symm)
  exact h

end

/-! ## 待っている候補を重ねる -/

def overlayStep (x : GroupBuild × Bytes) (q : FrozenSlice × Nat) : GroupBuild × Bytes :=
  let (g, payload) := x
  let c := q.1
  let start := max g.pos c.pos
  let stop := min g.recordEnd (c.pos + c.visibleLen)
  if c.visibleLen = 0 ∨ stop ≤ start then (g, payload)
  else
    let dirtyEnd := c.pos + min c.eofLen c.visibleLen
    ({ g with
        dirtyEnd := if g.pos < dirtyEnd then max g.dirtyEnd (min dirtyEnd g.recordEnd)
          else g.dirtyEnd
        insertAfter := max g.insertAfter q.2 },
      overwrite payload (start - g.pos) (slice c.payload (start - c.pos) (stop - start)))

theorem overlayPending_eq (pending : List (FrozenSlice × Nat)) (g : GroupBuild) (payload : Bytes) :
    overlayPending pending g payload = pending.foldl overlayStep (g, payload) := rfl

def FrozenSlice.Touches (c : FrozenSlice) (g : GroupBuild) : Prop :=
  ∃ p, g.pos ≤ p ∧ p < g.recordEnd ∧ c.byteAt p ≠ none

/-- 候補を重ねた結果 -/
structure Overlaid (pending : List (FrozenSlice × Nat)) (x y : GroupBuild × Bytes) : Prop where
  base : y.1.base = x.1.base
  pos : y.1.pos = x.1.pos
  recordEnd : y.1.recordEnd = x.1.recordEnd
  dirtyEnd : y.1.dirtyEnd = x.1.dirtyEnd
  length : y.2.length = x.2.length
  bytes : ∀ p, x.1.pos ≤ p → p < x.1.recordEnd →
    y.2.getD (p - x.1.pos) 0 = overlayAt (pending.map (·.1)) p (x.2.getD (p - x.1.pos) 0)
  after : x.1.insertAfter ≤ y.1.insertAfter
  touched : ∀ c i, (c, i) ∈ pending → c.Touches x.1 → i ≤ y.1.insertAfter
  position : y.1.insertAfter = x.1.insertAfter ∨ ∃ c, (c, y.1.insertAfter) ∈ pending

theorem overlayStep_spec
    (hlen : x.2.length = x.1.recordEnd - x.1.pos) (hdirty : x.1.dirtyEnd = x.1.recordEnd)
    (hc : c.visibleLen ≤ c.payload.length) : Overlaid [(c, i)] x (overlayStep x (c, i)) := by
  obtain ⟨g, payload⟩ := x
  simp only at hlen hdirty
  unfold overlayStep
  dsimp only
  split
  next hskip =>
    have hno : ∀ p, g.pos ≤ p → p < g.recordEnd → c.byteAt p = none := by
      intro p hlo hhi
      rw [FrozenSlice.byteAt_eq_none]
      omega
    refine ⟨rfl, rfl, rfl, rfl, rfl, fun p hlo hhi => ?_, le_rfl, ?_, .inl rfl⟩
    · rw [map_singleton, overlayAt_cons, hno p hlo hhi]
      rfl
    · rintro c' i' hmem ⟨p, hlo, hhi, hne⟩
      cases mem_singleton.mp hmem
      exact absurd (hno p hlo hhi) hne
  next hgo =>
    have hslice : (slice c.payload (max g.pos c.pos - c.pos)
        (min g.recordEnd (c.pos + c.visibleLen) - max g.pos c.pos)).length =
        min g.recordEnd (c.pos + c.visibleLen) - max g.pos c.pos := by
      rw [slice_length]
      omega
    refine ⟨rfl, rfl, rfl, ?_, ?_, fun p hlo hhi => ?_, Nat.le_max_left _ _, ?_, ?_⟩
    · dsimp only
      split <;> omega
    · exact overwrite_length_of_le (by rw [hslice]; omega)
    · dsimp only at hlo hhi ⊢
      rw [overwrite_getD (by omega), hslice, map_singleton, overlayAt_cons, overlayAt_nil,
        FrozenSlice.byteAt]
      by_cases hin : c.pos ≤ p ∧ p < c.pos + c.visibleLen
      · rw [if_pos hin, if_pos (by omega), slice_getD, if_pos (by omega), Option.getD_some]
        congr 1
        dsimp only
        omega
      · rw [if_neg hin, if_neg (by omega), Option.getD_none]
    · intro c' i' hmem _
      cases mem_singleton.mp hmem
      exact Nat.le_max_right _ _
    · rcases Nat.le_total i g.insertAfter with hle | hle
      · exact .inl (Nat.max_eq_left hle)
      · refine .inr ⟨c, ?_⟩
        dsimp only
        rw [Nat.max_eq_right hle]
        exact mem_singleton_self _

theorem Overlaid.trans (h : Overlaid l x y) (h' : Overlaid l' y z) : Overlaid (l ++ l') x z where
  base := h'.base.trans h.base
  pos := h'.pos.trans h.pos
  recordEnd := h'.recordEnd.trans h.recordEnd
  dirtyEnd := h'.dirtyEnd.trans h.dirtyEnd
  length := h'.length.trans h.length
  bytes p hlo hhi := by
    have hnext := h'.bytes p (h.pos.le.trans hlo) (hhi.trans_eq h.recordEnd.symm)
    rw [h.pos] at hnext
    rw [hnext, h.bytes p hlo hhi, map_append, overlayAt_append]
  after := h.after.trans h'.after
  touched c i hmem ht := by
    rcases mem_append.mp hmem with hmem | hmem
    · exact (h.touched c i hmem ht).trans h'.after
    · refine h'.touched c i hmem ?_
      obtain ⟨p, hlo, hhi, hne⟩ := ht
      exact ⟨p, h.pos.le.trans hlo, hhi.trans_eq h.recordEnd.symm, hne⟩
  position := by
    rcases h'.position with he | ⟨c, hc⟩
    · rw [he]
      exact h.position.imp_right fun ⟨c, hc⟩ => ⟨c, mem_append_left _ hc⟩
    · exact .inr ⟨c, mem_append_right _ hc⟩

theorem overlayPending_spec (hlen : payload.length = g.recordEnd - g.pos)
    (hdirty : g.dirtyEnd = g.recordEnd) (hc : ∀ q ∈ pending, q.1.visibleLen ≤ q.1.payload.length) :
    Overlaid pending (g, payload) (overlayPending pending g payload) := by
  rw [overlayPending_eq]
  generalize hx : (g, payload) = x
  replace hlen : x.2.length = x.1.recordEnd - x.1.pos := hx ▸ hlen
  replace hdirty : x.1.dirtyEnd = x.1.recordEnd := hx ▸ hdirty
  clear hx
  induction pending generalizing x with
  | nil => exact ⟨rfl, rfl, rfl, rfl, rfl, fun _ _ _ => rfl, le_rfl, nofun, .inl rfl⟩
  | cons q rest ih =>
    obtain ⟨c, i⟩ := q
    have hstep : Overlaid [(c, i)] x (overlayStep x (c, i)) :=
      overlayStep_spec hlen hdirty (hc _ mem_cons_self)
    refine hstep.trans (ih (fun q hq => hc q (mem_cons_of_mem _ hq)) _ ?_ ?_)
    · rw [hstep.length, hstep.pos, hstep.recordEnd, hlen]
    · rw [hstep.dirtyEnd, hstep.recordEnd, hdirty]

/-! ## 並べ直し -/

/-- window `g` から作られた候補 `b.2` が、`b.1` 番目の後に挿し込まれる。`Safe` は内容を保証する位置 -/
structure Merged (pending : List FrozenSlice) (view : Nat → UInt8) (Safe : Nat → Prop)
    (g : GroupBuild) (b : Nat × FrozenSlice) : Prop where
  pos : b.2.pos = g.pos
  recordEnd : b.2.pos + b.2.visibleLen = g.recordEnd
  accepted : b.2.eofLen = b.2.visibleLen
  stored : b.2.visibleLen = b.2.payload.length
  bytes : ∀ p v, Safe p → b.2.byteAt p = some v → v = overlayAt pending p (view p)
  touched : ∀ c i, pending[i]? = some c → c.Touches g → i ≤ b.1
  sources : g.insertAfter ≤ b.1
  position : b.1 < pending.length

/-- 公開済みの内容 `committed` から組み立てた候補は、控えた候補を `view` に重ねたもの -/
theorem merged_overlayPending (hg : g ∈ windowGroups pending)
    (hstored : ∀ c ∈ pending, c.visibleLen ≤ c.payload.length)
    (hlen : committed.length = g.recordEnd - g.pos)
    (hview : ∀ p, g.pos ≤ p → p < g.recordEnd →
      overlayAt pending p (committed.getD (p - g.pos) 0) = overlayAt pending p (view p)) :
    Merged pending view Safe g ((overlayPending pending.zipIdx g committed).1.insertAfter,
      groupCandidate (overlayPending pending.zipIdx g committed).1
        (overlayPending pending.zipIdx g committed).2) := by
  have hgroup := windowGroups_groupOf hg
  have hlt := hgroup.nonempty
  have h := overlayPending_spec hlen hgroup.dirty fun (q : FrozenSlice × Nat) (hq : q ∈ pending.zipIdx) =>
    hstored _ (mem_of_getElem? (mk_mem_zipIdx_iff_getElem?.mp hq))
  generalize overlayPending pending.zipIdx g committed = y at h
  obtain ⟨g', payload⟩ := y
  have hpos : g'.pos = g.pos := h.pos
  have hend : g'.recordEnd = g.recordEnd := h.recordEnd
  have hdirty : g'.dirtyEnd = g.recordEnd := h.dirtyEnd.trans hgroup.dirty
  have hsize : payload.length = g.recordEnd - g.pos := h.length.trans hlen
  refine ⟨hpos, ?_, ?_, rfl, fun p v _ hv => ?_, fun c j hc ht => ?_, h.after, ?_⟩
  · show g'.pos + payload.length = g.recordEnd
    omega
  · show max g'.pos (min g'.dirtyEnd g'.recordEnd) - g'.pos = payload.length
    omega
  · have hin : g.pos ≤ p ∧ p < g.recordEnd := by
      by_contra hout
      have hnone : (groupCandidate g' payload).byteAt p = none := by
        rw [FrozenSlice.byteAt_eq_none]
        show ¬ (g'.pos ≤ p ∧ p < g'.pos + payload.length)
        omega
      rw [hnone] at hv
      cases hv
    have hbytes := h.bytes p hin.1 hin.2
    rw [zipIdx_map_fst] at hbytes
    rw [← hview p hin.1 hin.2, ← hbytes]
    rw [FrozenSlice.byteAt_of_mem (by exact hpos.le.trans hin.1)
      (by show p < g'.pos + payload.length; omega)] at hv
    cases hv
    show payload.getD (p - g'.pos) 0 = _
    rw [hpos]
  · exact h.touched c j (mk_mem_zipIdx_iff_getElem?.mpr hc) ht
  · have hpast : ∀ {c : FrozenSlice} {j : Nat}, (c, j) ∈ pending.zipIdx → j < pending.length :=
      fun hc => (List.getElem?_eq_some_iff.mp (mk_mem_zipIdx_iff_getElem?.mp hc)).1
    rcases h.position with heq | ⟨c, hc⟩
    · obtain ⟨c, hc⟩ := hgroup.position
      show g'.insertAfter < _
      rw [show g'.insertAfter = g.insertAfter from heq]
      exact hpast hc
    · exact hpast hc

theorem exists_of_forall₂ {α β : Type} {R : α → β → Prop} {l : List α} {l' : List β} {y : β}
    (h : List.Forall₂ R l l') (hy : y ∈ l') : ∃ x ∈ l, R x y := by
  obtain ⟨i, hi, rfl⟩ := mem_iff_getElem.mp hy
  have hlen := h.length_eq
  exact ⟨_, getElem_mem (hlen ▸ hi), h.get (hlen ▸ hi) hi⟩

section

variable {pending rest : List FrozenSlice} {view : Nat → UInt8} {Safe : Nat → Prop}
  {built : List (Nat × FrozenSlice)} {sources : List Nat} {p : Nat}

/-- 並べ直した列のうち、番号 `n` から始まる `cs` に当たる部分 -/
def rebuildFrom (sources : List Nat) (built : List (Nat × FrozenSlice)) (n : Nat)
    (cs : List FrozenSlice) : List FrozenSlice :=
  (cs.zipIdx n).flatMap fun q =>
    (if q.2 ∈ sources then [] else [q.1]) ++ (built.filter (·.1 = q.2)).map (·.2)

theorem rebuildFrom_cons (n : Nat) (c : FrozenSlice) (cs : List FrozenSlice) :
    rebuildFrom sources built n (c :: cs) = ((if n ∈ sources then [] else [c]) ++
      (built.filter (·.1 = n)).map (·.2)) ++ rebuildFrom sources built (n + 1) cs := rfl

theorem rebuildFrom_append (n : Nat) (cs ds : List FrozenSlice) :
    rebuildFrom sources built n (cs ++ ds) =
      rebuildFrom sources built n cs ++ rebuildFrom sources built (n + cs.length) ds := by
  rw [rebuildFrom, zipIdx_append, flatMap_append]
  rfl

theorem rebuildFrozen_eq (sources : List Nat) (built : List (Nat × FrozenSlice))
    (cs : List FrozenSlice) : rebuildFrozen sources built cs = rebuildFrom sources built 0 cs := rfl

variable {n : Nat} {d : FrozenSlice}

theorem mem_inserted (h : d ∈ (built.filter (·.1 = n)).map (·.2)) :
    ∃ b ∈ built, b.1 = n ∧ b.2 = d := by
  obtain ⟨b, hb, rfl⟩ := mem_map.mp h
  obtain ⟨hmem, heq⟩ := mem_filter.mp hb
  exact ⟨b, hmem, of_decide_eq_true heq, rfl⟩

variable {cs : List FrozenSlice}

theorem mem_rebuildFrom (h : d ∈ rebuildFrom sources built n cs) :
    (∃ i, (d, i) ∈ cs.zipIdx n) ∨ ∃ b ∈ built, b.2 = d := by
  obtain ⟨⟨c, i⟩, hc, hd⟩ := mem_flatMap.mp h
  rcases mem_append.mp hd with hd | hd
  · split at hd
    next => cases hd
    next =>
      cases mem_singleton.mp hd
      exact .inl ⟨i, hc⟩
  · obtain ⟨b, hb, -, rfl⟩ := mem_inserted hd
    exact .inr ⟨b, hb, rfl⟩

theorem mem_rebuildFrom_of_kept (hc : (c, i) ∈ cs.zipIdx n)
    (hi : i ∉ sources) : c ∈ rebuildFrom sources built n cs := by
  refine mem_flatMap.mpr ⟨(c, i), hc, mem_append_left _ ?_⟩
  rw [if_neg hi]
  exact mem_singleton_self _

theorem mem_rebuildFrom_of_built (hb : b ∈ built) (hlo : n ≤ b.1)
    (hhi : b.1 < n + cs.length) : b.2 ∈ rebuildFrom sources built n cs := by
  have hlt : b.1 - n < cs.length := by omega
  refine mem_flatMap.mpr ⟨(cs[b.1 - n], b.1), ?_, mem_append_right _ ?_⟩
  · exact mk_mem_zipIdx_iff_le_and_getElem?_sub.mpr ⟨hlo, getElem?_eq_getElem hlt⟩
  · exact mem_map.mpr ⟨b, by simp [hb], rfl⟩

theorem rebuildFrom_of_past (hs : ∀ i ∈ sources, i < n) (hb : ∀ b ∈ built, b.1 < n) :
    rebuildFrom sources built n cs = cs := by
  induction cs generalizing n with
  | nil => rfl
  | cons c cs ih =>
    have hnone : built.filter (·.1 = n) = [] := by
      refine filter_eq_nil_iff.mpr fun b hmem heq => ?_
      have := hb b hmem
      have := of_decide_eq_true heq
      omega
    rw [rebuildFrom_cons, ih (fun i hi => (hs i hi).trans (Nat.lt_succ_self n))
      fun b hmem => (hb b hmem).trans (Nat.lt_succ_self n), hnone,
      if_neg fun hin => Nat.lt_irrefl n (hs n hin)]
    rfl

/-- 挿し込む候補と除く候補がどれも `p` に書かないなら、`p` の内容は変わらない -/
theorem overlayAt_rebuildFrom_of_none
    (hs : ∀ c i, (c, i) ∈ cs.zipIdx n → i ∈ sources → c.byteAt p = none)
    (hb : ∀ b ∈ built, b.2.byteAt p = none) :
    overlayAt (rebuildFrom sources built n cs) p v = overlayAt cs p v := by
  induction cs generalizing n v with
  | nil => rfl
  | cons c cs ih =>
    have hinserted : ∀ d ∈ (built.filter (·.1 = n)).map (·.2), d.byteAt p = none := by
      intro d hd
      obtain ⟨b, hmem, -, rfl⟩ := mem_inserted hd
      exact hb b hmem
    rw [rebuildFrom_cons, overlayAt_append, overlayAt_append, overlayAt_of_none hinserted,
      ih fun d i hd => hs d i (by simp [hd]), overlayAt_cons]
    split
    next hin => rw [hs c n (by simp) hin]; rfl
    next => rfl

theorem overlayAt_of_same (h : ∀ c ∈ cs, ∀ v, c.byteAt p = some v → v = x) :
    overlayAt cs p x = x := by
  induction cs with
  | nil => rfl
  | cons c cs ih =>
    have hc : (c.byteAt p).getD x = x := by
      cases hv : c.byteAt p with
      | none => rfl
      | some v => exact h c mem_cons_self v hv
    rw [overlayAt_cons, hc]
    exact ih fun d hd => h d (mem_cons_of_mem _ hd)

theorem overlayAt_of_mem (h : ∀ c ∈ cs, ∀ v, c.byteAt p = some v → v = x)
    (hd : d ∈ cs) (hx : d.byteAt p = some x) : overlayAt cs p v = x := by
  obtain ⟨before, after, rfl⟩ := append_of_mem hd
  rw [overlayAt_append, overlayAt_cons, hx, Option.getD_some]
  exact overlayAt_of_same fun c hc => h c (by simp [hc])

section

variable (h : List.Forall₂ (Merged pending view Safe) (windowGroups pending) built)
include h

theorem merged_of_mem (hb : b ∈ built) :
    ∃ g ∈ windowGroups pending, Merged pending view Safe g b := exists_of_forall₂ h hb

theorem exists_merged (hg : g ∈ windowGroups pending) :
    ∃ b ∈ built, Merged pending view Safe g b := exists_of_forall₂ h.flip hg

theorem built_lt_length (hb : b ∈ built) : b.1 < pending.length := by
  obtain ⟨g, -, hm⟩ := merged_of_mem h hb
  exact hm.position

theorem source_byteAt (hb : ∀ b ∈ built, b.2.byteAt p = none)
    (hc : pending[i]? = some c) (hi : i ∈ windowSources pending) : c.byteAt p = none := by
  obtain ⟨c', hc', hgr, g, hg, hbase⟩ := mem_windowSources.mp hi
  obtain rfl : c = c' := Option.some.inj (hc.symm.trans hc')
  obtain ⟨hlo, hhi, -⟩ := source_in_group hc hgr hg hbase
  obtain ⟨b, hmem, hm⟩ := exists_merged h hg
  have hnone := FrozenSlice.byteAt_eq_none.mp (hb b hmem)
  rw [hm.recordEnd, hm.pos] at hnone
  rw [FrozenSlice.byteAt_eq_none]
  omega

/--
並べ直した列を重ねた内容は、元の列を重ねた内容に等しい。`rest` は、併合を計算した後で凍結された候補。
-/
theorem overlayAt_rebuildFrozen (hsafe : Safe p) :
    overlayAt (rebuildFrozen (windowSources pending) built (pending ++ rest)) p (view p) =
      overlayAt (pending ++ rest) p (view p) := by
  have hsources : ∀ i ∈ windowSources pending, i < pending.length := by
    intro i hi
    obtain ⟨c, hc, -⟩ := mem_windowSources.mp hi
    exact (List.getElem?_eq_some_iff.mp hc).1
  have hpast : rebuildFrom (windowSources pending) built (0 + pending.length) rest = rest := by
    rw [Nat.zero_add]
    exact rebuildFrom_of_past hsources fun b hb => built_lt_length h hb
  rw [rebuildFrozen_eq, rebuildFrom_append, hpast, overlayAt_append, overlayAt_append]
  congr 1
  by_cases hex : ∃ b ∈ built, b.2.byteAt p ≠ none
  · obtain ⟨b, hb, hne⟩ := hex
    obtain ⟨g, hg, hm⟩ := merged_of_mem h hb
    obtain ⟨x, hx⟩ := Option.ne_none_iff_exists'.mp hne
    have hsame : ∀ b' ∈ built, ∀ v, b'.2.byteAt p = some v → v = overlayAt pending p (view p) := by
      intro b' hb' v hv
      obtain ⟨g', -, hm'⟩ := merged_of_mem h hb'
      exact hm'.bytes p v hsafe hv
    -- `p` に書く候補は、どれも `b` の挿し込まれる位置までにある
    have hrange : g.pos ≤ p ∧ p < g.recordEnd := by
      rw [← hm.recordEnd, ← hm.pos]
      by_contra hout
      exact hne (FrozenSlice.byteAt_eq_none.mpr hout)
    have hlast : ∀ c i, pending[i]? = some c → b.1 < i → c.byteAt p = none := by
      intro c i hc hlt
      by_contra hbyte
      exact absurd (hm.touched c i hc ⟨p, hrange.1, hrange.2, hbyte⟩) (by omega)
    have hlt : b.1 < pending.length := hm.position
    have hsplit : pending = pending.take b.1 ++ pending[b.1] :: pending.drop (b.1 + 1) := by
      rw [← drop_eq_getElem_cons hlt, take_append_drop]
    have hlen : 0 + (pending.take b.1).length = b.1 := by
      rw [Nat.zero_add, length_take_of_le hlt.le]
    have hx : b.2.byteAt p = some (overlayAt pending p (view p)) := hsame b hb x hx ▸ hx
    generalize overlayAt pending p (view p) = x at hsame hx ⊢
    generalize windowSources pending = sources
    conv_lhs => rw [hsplit]
    rw [rebuildFrom_append, rebuildFrom_cons, hlen]
    simp only [overlayAt_append]
    rw [overlayAt_of_mem (x := x) ?_ (mem_map.mpr ⟨b, by simp [hb], rfl⟩) hx]
    · refine overlayAt_of_same fun d hd v hv => ?_
      rcases mem_rebuildFrom hd with ⟨i, hi⟩ | ⟨b', hb', rfl⟩
      · obtain ⟨hle, hget⟩ := mk_mem_zipIdx_iff_le_and_getElem?_sub.mp hi
        rw [getElem?_drop, Nat.add_sub_cancel' hle] at hget
        rw [hlast d i hget hle] at hv
        cases hv
      · exact hsame b' hb' v hv
    · intro d hd v hv
      obtain ⟨b', hb', -, rfl⟩ := mem_inserted hd
      exact hsame b' hb' v hv
  · push Not at hex
    refine overlayAt_rebuildFrom_of_none (fun c i hc hi => ?_) hex
    exact source_byteAt h hex (mk_mem_zipIdx_iff_getElem?.mp hc) hi

/-- 候補の受け入れた末尾は、並べ直した列の見える候補が覆う -/
theorem exists_rebuildFrozen (hc : c ∈ pending ++ rest) :
    ∃ d ∈ rebuildFrozen (windowSources pending) built (pending ++ rest),
      c.acceptedEnd ≤ d.acceptedEnd ∧ (c.visibleLen ≠ 0 → d.visibleLen ≠ 0) := by
  rw [rebuildFrozen_eq]
  obtain ⟨i, hi⟩ := mem_iff_getElem?.mp hc
  by_cases hs : i ∈ windowSources pending
  · obtain ⟨c', hc', hgr, g, hg, hbase⟩ := mem_windowSources.mp hs
    have hlt := (List.getElem?_eq_some_iff.mp hc').1
    obtain rfl : c = c' := by
      rw [getElem?_append_left hlt] at hi
      exact Option.some.inj (hi.symm.trans hc')
    obtain ⟨hlo, hhi, -⟩ := source_in_group hc' hgr hg hbase
    obtain ⟨b, hb, hm⟩ := exists_merged h hg
    have hlast : b.1 < 0 + (pending ++ rest).length := by
      rw [length_append]
      have := hm.position
      omega
    have hend := hm.recordEnd
    have hpos := hm.pos
    refine ⟨b.2, mem_rebuildFrom_of_built hb (Nat.zero_le _) hlast, ?_, fun hv => by omega⟩
    rw [FrozenSlice.acceptedEnd, FrozenSlice.acceptedEnd, hm.accepted]
    omega
  · exact ⟨c, mem_rebuildFrom_of_kept (mk_mem_zipIdx_iff_getElem?.mpr hi) hs, le_rfl, id⟩

theorem acceptedEnd_rebuildFrozen (hwf : ∀ c ∈ pending, c.WellFormed) :
    acceptedEnd (rebuildFrozen (windowSources pending) built (pending ++ rest)) =
      acceptedEnd (pending ++ rest) := by
  refine le_antisymm (acceptedEnd_le_iff.mpr fun d hd => ?_) (acceptedEnd_le_iff.mpr fun c hc => ?_)
  · rw [rebuildFrozen_eq] at hd
    rcases mem_rebuildFrom hd with ⟨i, hi⟩ | ⟨b, hb, rfl⟩
    · exact le_acceptedEnd (mem_of_getElem? (mk_mem_zipIdx_iff_getElem?.mp hi))
    · -- window の末尾は、併合された候補のどれかの末尾である
      obtain ⟨g, hg, hm⟩ := merged_of_mem h hb
      obtain ⟨c, i, hc, hgr, -, hend⟩ := (windowGroups_groupOf hg).last
      have hmem : c ∈ pending := mem_of_getElem? (mk_mem_zipIdx_iff_getElem?.mp hc)
      have hacc := (hwf c hmem).accepted (FrozenSlice.groupable_iff.mp hgr).2.1
      have hce : c.acceptedEnd = g.recordEnd := by
        rw [FrozenSlice.acceptedEnd, hacc, Nat.min_self, hend]
      rw [FrozenSlice.acceptedEnd, hm.accepted, Nat.min_self, hm.recordEnd, ← hce]
      exact le_acceptedEnd (mem_append_left _ hmem)
  · obtain ⟨d, hd, hle, -⟩ := exists_rebuildFrozen h hc
    exact hle.trans (le_acceptedEnd hd)

end

end

end SwordFS.Chunk.Slice
