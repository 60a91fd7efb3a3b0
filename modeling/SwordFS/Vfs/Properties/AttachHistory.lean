import SwordFS.Chunk.Properties.AttachOnce
import SwordFS.Vfs.Volume

/-!
# attachment の履歴

通った状態の列について、ChunkID の取り付けが一方向であること（`OneWay`）を述べ、
それを一動作ごとに保つ不変条件 `AttachInv` を与える。

取り付けてよいのは、その位置のために自分が割り当てた ChunkID で、まだ一度も取り付けられていないもの
（`Mine`）か、Flush の途中の session が覚えているもの（`Flushes`）である。
後者を二度取り付けるのは、外された ChunkID を覚えたまま Flush したときだけである。
-/

namespace SwordFS.Vfs

open Infra Metadata Chunk Function

variable {χ : Type}

/-- 通った状態の列（新しい順）の中で、どの ChunkID の取り付けも一方向 -/
structure OneWay (trace : List (Volume χ)) : Prop where
  /-- 一つの ChunkID は一つの位置にしか取り付けられない -/
  unique : ∀ v ∈ trace, ∀ v' ∈ trace, ∀ {ino ino' : InodeID} {i i' : Nat} {id : ChunkID},
    v.Attached ino i id → v'.Attached ino' i' id → ino = ino' ∧ i = i'
  /-- 外された ChunkID は、二度と取り付けられない -/
  stays : ∀ v₁ v₂ v₃, [v₃, v₂, v₁].Sublist trace → ∀ {ino : InodeID} {i : Nat} {id : ChunkID},
    v₁.Attached ino i id → v₃.Attached ino i id → v₂.Attached ino i id

/-- mount `t` が位置 `i` のために `id` を割り当てた -/
def Owns (o : Observed χ) (t i : Nat) (id : ChunkID) : Prop :=
  o.allocatedBy id = some t ∧ o.volume.backend.chunkOwner id = some i

/-- 自分が割り当て、まだ一度も取り付けられていない -/
def Mine (o : Observed χ) (t i : Nat) (id : ChunkID) : Prop :=
  Owns o t i id ∧ ∀ v ∈ o.trace, ∀ ino j, ¬v.Attached ino j id

/-- mount `t` の位置 `i` の session が `id` を覚えている -/
def Holds (H : Holding χ) (v : Volume χ) (t i : Nat) (id : ChunkID) : Prop :=
  ∃ c, (v.mounts t).chunks.lookup i = some c ∧ H.held c id

/-- その session は Flush の途中である -/
def Flushes (H : Holding χ) (v : Volume χ) (t i : Nat) (id : ChunkID) : Prop :=
  ∃ c, (v.mounts t).chunks.lookup i = some c ∧ H.flushing c = true ∧ H.held c id

theorem Flushes.holds {id : ChunkID} (h : Flushes H v t i id) : Holds H v t i id :=
  let ⟨c, hc, _, hid⟩ := h
  ⟨c, hc, hid⟩

/--
状態の列（新しい順）の中で、外された ChunkID を覚えたまま Flush した session は無い。

session の覚えている ChunkID がその位置に取り付けられたことがあれば、Flush の途中でも取り付けられている。
-/
def NoOrphanFlush (H : Holding χ) (inoOf : Nat → Option InodeID) (trace : List (Volume χ)) : Prop :=
  ∀ v older, (v :: older) <:+ trace → ∀ t i id ino, Flushes H v t i id → inoOf t = some ino →
    ∀ v' ∈ older, v'.Attached ino i id → v.Attached ino i id

/-- `inoOf t` は mount `t` の開いている file -/
structure AttachInv (H : Holding χ) (inoOf : Nat → Option InodeID) (o : Observed χ) : Prop where
  current : ∃ rest, o.trace = o.volume :: rest
  bounded : ∀ v ∈ o.trace, ∀ {ino i id}, v.Attached ino i id →
    id ≤ o.volume.backend.nextChunkID
  allocated : ∀ {id t}, o.allocatedBy id = some t → id ≤ o.volume.backend.nextChunkID
  owned : ∀ v ∈ o.trace, ∀ {ino i id t}, v.Attached ino i id → o.allocatedBy id = some t →
    inoOf t = some ino ∧ o.volume.backend.chunkOwner id = some i
  unique : ∀ v ∈ o.trace, ∀ v' ∈ o.trace, ∀ {ino ino' : InodeID} {i i' : Nat} {id : ChunkID},
    v.Attached ino i id → v'.Attached ino' i' id → ino = ino' ∧ i = i'
  index : ∀ {t i c}, (o.volume.mounts t).chunks.lookup i = some c → H.index c = i
  held : ∀ {t i id}, Holds H o.volume t i id → Owns o t i id
  stays : NoOrphanFlush H inoOf o.trace → ∀ v₁ v₂ v₃, [v₃, v₂, v₁].Sublist o.trace →
    ∀ {ino : InodeID} {i : Nat} {id : ChunkID},
      v₁.Attached ino i id → v₃.Attached ino i id → v₂.Attached ino i id

/-- mount `t` が位置 `i` について行ってよい一動作。`m` は動作の後の mount の状態 -/
structure Advance (H : Holding χ) (inoOf : Nat → Option InodeID) (t i : Nat) (o : Observed χ)
    (m : Mount χ) : Prop where
  attached : ∀ {ino j id}, attachedAt m.2.redis ino j = some id → o.volume.Attached ino j id ∨
    (inoOf t = some ino ∧ j = i ∧ (Mine o t i id ∨ Flushes H o.volume t i id))
  allocated : (m.2.nextChunkID = o.volume.backend.nextChunkID ∧
      m.2.chunkOwner = o.volume.backend.chunkOwner) ∨
    (m.2.nextChunkID = o.volume.backend.nextChunkID + 1 ∧ m.2.chunkOwner =
      update o.volume.backend.chunkOwner (o.volume.backend.nextChunkID + 1) (some i))
  index : ∀ {j c}, m.1.chunks.lookup j = some c → H.index c = j
  held : ∀ {j c id}, m.1.chunks.lookup j = some c → H.held c id →
    Holds H o.volume t j id ∨ (j = i ∧ Mine o t i id)

section

variable {H : Holding χ} {inoOf : Nat → Option InodeID} {t i : Nat} {o : Observed χ} {m : Mount χ}

theorem AttachInv.mem_current (hi : AttachInv H inoOf o) : o.volume ∈ o.trace := by
  obtain ⟨rest, hrest⟩ := hi.current
  exact hrest ▸ .head _

variable {id : ChunkID} {t' i' : Nat} {ino : InodeID} {j : Nat}

theorem Observed.allocatedBy_eq (hid : id ≤ o.volume.backend.nextChunkID) :
    (o.advance t m).allocatedBy id = o.allocatedBy id := by
  unfold Observed.advance
  dsimp only
  split
  · next hlt => exact update_of_ne (Nat.lt_of_le_of_lt hid hlt).ne _ _
  · rfl

theorem Owns.unique (h : Owns o t i id) (h' : Owns o t' i' id) : (t, i) = (t', i') := by
  rw [Option.some.inj (h.1.symm.trans h'.1), Option.some.inj (h.2.symm.trans h'.2)]

/-! ## 一動作 -/

variable (hi : AttachInv H inoOf o) (h : Advance H inoOf t i o m)
include h

theorem Advance.chunkOwner_eq (hid : id ≤ o.volume.backend.nextChunkID) :
    (o.advance t m).volume.backend.chunkOwner id = o.volume.backend.chunkOwner id := by
  change m.2.chunkOwner id = _
  rcases h.allocated with ⟨-, hown⟩ | ⟨-, hown⟩
  · rw [hown]
  · rw [hown, update_of_ne (Nat.lt_succ_of_le hid).ne]

theorem Advance.nextChunkID_le :
    o.volume.backend.nextChunkID ≤ (o.advance t m).volume.backend.nextChunkID := by
  change _ ≤ m.2.nextChunkID
  rcases h.allocated with ⟨hn, -⟩ | ⟨hn, -⟩ <;> omega

/-- 一度取り付けられた ChunkID が増えた attachment なら、Flush の途中の session が覚えている -/
theorem Advance.new_flushed (hatt : attachedAt m.2.redis ino j = some id)
    (hnew : ¬o.volume.Attached ino j id) (hv : v ∈ o.trace)
    (hv' : v.Attached ino j id) : inoOf t = some ino ∧ Flushes H o.volume t j id := by
  rcases h.attached hatt with hold | ⟨hino, rfl, hm | hh⟩
  · exact absurd hold hnew
  · exact absurd hv' (hm.2 v hv ino j)
  · exact ⟨hino, hh⟩

/-- 動作の後に覚えている ChunkID は、前から覚えていたか、まだ取り付けられたことが無い -/
theorem Advance.holds (hh : Holds H (o.advance t m).volume t' i' id) :
    Holds H o.volume t' i' id ∨ Mine o t' i' id := by
  obtain ⟨c, hc, hid⟩ := hh
  by_cases ht : t' = t
  · subst ht
    have hc' : m.1.chunks.lookup i' = some c := by
      simpa [Observed.advance] using hc
    rcases h.held hc' hid with hh | ⟨rfl, hm⟩
    · exact .inl hh
    · exact .inr hm
  · rw [Observed.mounts_advance_of_ne ht] at hc
    exact .inl ⟨c, hc, hid⟩

include hi

theorem Owns.advance (hown : Owns o t' i' id) : Owns (o.advance t m) t' i' id := by
  have hid := hi.allocated hown.1
  exact ⟨(Observed.allocatedBy_eq hid).trans hown.1, (h.chunkOwner_eq hid).trans hown.2⟩

theorem Mine.advance (hm : Mine o t' i' id) (hne : (t', i') ≠ (t, i)) :
    Mine (o.advance t m) t' i' id := by
  refine ⟨hm.1.advance hi h, ?_⟩
  rintro v (_ | ⟨_, hv⟩) ino j hatt
  · rcases h.attached hatt with hold | ⟨-, rfl, hm' | hh⟩
    · exact hm.2 o.volume hi.mem_current ino j hold
    · exact hne (Owns.unique hm.1 hm'.1)
    · exact hne (Owns.unique hm.1 (hi.held hh.holds))
  · exact hm.2 v hv ino j hatt

/-- 取り付けも割り当てもしない動作では、自分の `Mine` も変わらない -/
theorem Mine.advance_of_attached (hm : Mine o t' i' id)
    (hatt : ∀ {ino j x}, attachedAt m.2.redis ino j = some x → o.volume.Attached ino j x) :
    Mine (o.advance t m) t' i' id := by
  refine ⟨hm.1.advance hi h, ?_⟩
  rintro v (_ | ⟨_, hv⟩) ino j ha
  · exact hm.2 o.volume hi.mem_current ino j (hatt ha)
  · exact hm.2 v hv ino j ha

theorem Advance.new_owned (hatt : attachedAt m.2.redis ino j = some id)
    (hnew : ¬o.volume.Attached ino j id) : inoOf t = some ino ∧ Owns o t j id := by
  rcases h.attached hatt with hold | ⟨hino, rfl, hm | hh⟩
  · exact absurd hold hnew
  · exact ⟨hino, hm.1⟩
  · exact ⟨hino, hi.held hh.holds⟩

theorem Advance.bounded (hatt : attachedAt m.2.redis ino j = some id) :
    id ≤ o.volume.backend.nextChunkID := by
  by_cases hold : o.volume.Attached ino j id
  · exact hi.bounded _ hi.mem_current hold
  · exact hi.allocated (h.new_owned hi hatt hold).2.1

/-- 新しい attachment の位置は、その ChunkID の以前の位置と同じ -/
theorem Advance.unique (hv : v ∈ (o.advance t m).trace)
    (hatt : attachedAt m.2.redis ino j = some id) (hatt' : v.Attached ino' j' id) :
    ino = ino' ∧ j = j' := by
  -- 古い状態の attachment との比較
  have hold : ∀ v ∈ o.trace, ∀ {ino ino' : InodeID} {j j' : Nat},
      attachedAt m.2.redis ino j = some id → v.Attached ino' j' id → ino = ino' ∧ j = j' := by
    intro v hv ino ino' j j' hatt hatt'
    by_cases hcur : o.volume.Attached ino j id
    · exact hi.unique o.volume hi.mem_current v hv hcur hatt'
    · obtain ⟨hino, hown⟩ := h.new_owned hi hatt hcur
      obtain ⟨hino', hj'⟩ := hi.owned v hv hatt' hown.1
      exact ⟨Option.some.inj (hino.symm.trans hino'), Option.some.inj (hown.2.symm.trans hj')⟩
  rcases List.mem_cons.mp hv with rfl | hv
  · by_cases hcur : o.volume.Attached ino j id
    · obtain ⟨rfl, rfl⟩ := hold o.volume hi.mem_current hatt' hcur
      exact ⟨rfl, rfl⟩
    · by_cases hcur' : o.volume.Attached ino' j' id
      · exact hold o.volume hi.mem_current hatt hcur'
      · obtain ⟨hino, hown⟩ := h.new_owned hi hatt hcur
        obtain ⟨hino', hown'⟩ := h.new_owned hi hatt' hcur'
        exact ⟨Option.some.inj (hino.symm.trans hino'),
          Option.some.inj (hown.2.symm.trans hown'.2)⟩
  · exact hold v hv hatt hatt'

theorem AttachInv.advance :
    AttachInv H inoOf (o.advance t m) where
  current := ⟨o.trace, rfl⟩
  bounded := by
    intro v hv ino j id hatt
    refine Nat.le_trans ?_ h.nextChunkID_le
    rcases List.mem_cons.mp hv with rfl | hv
    · exact h.bounded hi hatt
    · exact hi.bounded v hv hatt
  allocated := by
    intro id t' hid
    unfold Observed.advance at hid
    dsimp only at hid
    split at hid
    · by_cases he : id = m.2.nextChunkID
      · exact he.le
      · rw [update_of_ne he] at hid
        exact (hi.allocated hid).trans h.nextChunkID_le
    · exact (hi.allocated hid).trans h.nextChunkID_le
  owned := by
    intro v hv ino j id t' hatt hid
    have hle : id ≤ o.volume.backend.nextChunkID := by
      rcases List.mem_cons.mp hv with rfl | hv
      · exact h.bounded hi hatt
      · exact hi.bounded v hv hatt
    rw [Observed.allocatedBy_eq hle] at hid
    rw [h.chunkOwner_eq hle]
    rcases List.mem_cons.mp hv with rfl | hv
    · by_cases hold : o.volume.Attached ino j id
      · exact hi.owned o.volume hi.mem_current hold hid
      · obtain ⟨hino, hown⟩ := h.new_owned hi hatt hold
        obtain rfl := Option.some.inj (hown.1.symm.trans hid)
        exact ⟨hino, hown.2⟩
    · exact hi.owned v hv hatt hid
  unique := by
    intro v hv v' hv' ino ino' j j' id hatt hatt'
    rcases List.mem_cons.mp hv with rfl | hv
    · exact h.unique hi hv' hatt hatt'
    · rcases List.mem_cons.mp hv' with rfl | hv'
      · obtain ⟨rfl, rfl⟩ := h.unique hi (.tail _ hv) hatt' hatt
        exact ⟨rfl, rfl⟩
      · exact hi.unique v hv v' hv' hatt hatt'
  index := by
    intro t' j c hc
    by_cases ht : t' = t
    · subst ht
      exact h.index (by simpa [Observed.advance] using hc)
    · rw [Observed.mounts_advance_of_ne ht] at hc
      exact hi.index hc
  held := by
    intro t' j id hh
    rcases h.holds hh with hh | hm
    · exact (hi.held hh).advance hi h
    · exact hm.1.advance hi h
  stays := by
    intro hno v₁ v₂ v₃ hsub ino j id h₁ h₃
    have hno' : NoOrphanFlush H inoOf o.trace := fun v older hs =>
      hno v older (hs.trans (List.suffix_cons _ _))
    cases hsub with
    | cons _ hsub => exact hi.stays hno' v₁ v₂ v₃ hsub h₁ h₃
    | cons_cons _ hsub =>
      have hv₁ : v₁ ∈ o.trace := hsub.subset (.tail _ (.head _))
      obtain ⟨rest, hrest⟩ := hi.current
      -- 今の動作で取り付けられたのなら、Flush が覚えていた ChunkID なので、前から取り付けられている
      have hcur : o.volume.Attached ino j id := by
        by_contra hnew
        obtain ⟨hino, hflush⟩ := h.new_flushed h₃ hnew hv₁ h₁
        rcases List.mem_cons.mp (hrest ▸ hv₁) with rfl | hv₁
        · exact hnew h₁
        · exact hnew (hno' _ rest (hrest ▸ List.suffix_refl _) t j id ino hflush hino v₁ hv₁ h₁)
      rw [hrest] at hsub
      cases hsub with
      | cons _ hsub =>
        exact hi.stays hno' v₁ v₂ o.volume (hrest ▸ hsub.cons_cons _) h₁ hcur
      | cons_cons _ _ => exact hcur

omit h in
theorem AttachInv.oneWay (hno : NoOrphanFlush H inoOf o.trace) :
    OneWay o.trace := ⟨hi.unique, hi.stays hno⟩

end

/-! ## 実行の始め -/

/-- 実行を始めてよい状態：attachment は割り当て済みの番号で、重なりが無い -/
structure WellAttached (b : Backend) : Prop where
  bounded : ∀ {ino i id}, attachedAt b.redis ino i = some id → id ≤ b.nextChunkID
  unique : ∀ {ino ino' i i' id}, attachedAt b.redis ino i = some id →
    attachedAt b.redis ino' i' = some id → ino = ino' ∧ i = i'

theorem attachInv_start {v : Volume χ} (hb : WellAttached v.backend)
    (hm : ∀ t, (v.mounts t).chunks = ∅) : AttachInv H inoOf (.start v) := by
  have hnone : ∀ {t i c}, (v.mounts t).chunks.lookup i = some c → False := by
    intro t i c hc
    rw [hm t] at hc
    cases hc
  have hmem : ∀ w ∈ (Observed.start v).trace, w = v := fun w hw => List.mem_singleton.mp hw
  refine
    { current := ⟨[], rfl⟩
      bounded := ?_
      allocated := fun h => nomatch h
      owned := fun _ _ _ _ _ _ _ h => nomatch h
      unique := ?_
      index := fun hc => (hnone hc).elim
      held := fun ⟨_, hc, _⟩ => (hnone hc).elim
      stays := ?_ }
  · intro w hw ino i id hatt
    obtain rfl := hmem w hw
    exact hb.bounded hatt
  · intro w hw w' hw' ino ino' i i' id hatt hatt'
    obtain rfl := hmem w hw
    obtain rfl := hmem w' hw'
    exact hb.unique hatt hatt'
  · intro _ v₁ v₂ v₃ hsub
    exact absurd hsub.length_le (by simp [Observed.start])

end SwordFS.Vfs
