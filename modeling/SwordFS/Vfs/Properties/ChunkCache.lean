import SwordFS.Chunk.Alone
import SwordFS.Vfs.FileReadWriter

/-!
# chunk の cache の切り詰め

大きさの変更が手元の cache に行う操作の仕様。方式ごとの session の切り詰めは
`LocalTruncation` の約束として与え、cache の側はそれだけを使う。
-/

namespace SwordFS.Vfs

open Infra Metadata Chunk

variable {χ : Type}

/-- 方式が行う手元の切り詰めの約束。どれも FileMetadata には触れない -/
structure LocalTruncation (M : Mechanism χ) where
  /-- session が保つ形 -/
  Wf : χ → Prop
  /-- session は、位置 `p` 以降の byte を何も持たない -/
  Clipped : Nat → χ → Prop
  /-- 公開済みの prefix だけが `p` に切られ、手元の書き込みは残っている -/
  Clamped : Nat → χ → χ → Prop
  sanitize : ∀ boundary b, Alone (fun _ => True) (M.sanitizeBoundary boundary)
    (fun _ b' => b'.redis = b.redis) b
  clamp : ∀ p c b, Alone (fun _ => True) (M.clampPublishedPrefix p)
    (fun r s => r = .ok () ∧ s.2.redis = b.redis ∧ Clamped p c s.1) (c, b)
  truncate : ∀ p c b, Wf c → Alone (fun _ => True) (M.truncateLocal p)
    (fun r s => r = .ok () ∧ s.2.redis = b.redis ∧ Clipped p s.1 ∧ Wf s.1) (c, b)
  wf_of_clamped : ∀ {p c c'}, Clamped p c c' → Wf c → Wf c'
  clipped_of_clamped : ∀ {p q c c'}, q ≤ p → Clamped q c c' → Clipped p c → Clipped p c'

/-- 位置 `idx` の session の他は変わっていない -/
structure OnlyChunk (idx : Nat) (rw rw' : FileReadWriter χ) : Prop where
  rest : rw' = { rw with chunks := rw'.chunks }
  other : ∀ j, j ≠ idx → rw'.chunks.lookup j = rw.chunks.lookup j

variable {rw : FileReadWriter χ} {b : Backend} {α : Type} {E : Answer → Prop} {idx : Nat}

theorem OnlyChunk.refl (idx : Nat) (rw : FileReadWriter χ) : OnlyChunk idx rw rw :=
  ⟨rfl, fun _ _ => rfl⟩

theorem OnlyChunk.liveSize (h : OnlyChunk idx rw rw') : rw'.liveSize = rw.liveSize := by rw [h.rest]

/-- cache にある session の上の計算は、その session だけを変える -/
theorem alone_onChunk (hc : rw.chunks.lookup idx = some c)
    (h : Alone E p (fun r s => ∀ rw', OnlyChunk idx rw rw' → rw'.chunks.lookup idx = some s.1 →
      Q r (rw', s.2)) (c, b)) : Alone E (onChunk idx c p) Q (rw, b) := by
  have hget : ((rw.chunks.lookup idx).getD c, b) = (c, b) := by rw [hc]; rfl
  refine Prog.wp_eq_zoom
    (I := fun s t => OnlyChunk idx rw t.1 ∧ t.1.chunks.lookup idx = some s.1) ?_ ?_ ?_
  · rintro ⟨c', b'⟩ ⟨rw', b''⟩ ⟨hrest, -⟩
    refine ⟨⟨⟨?_, fun j hj => ?_⟩, AList.lookup_insert _⟩, ?_⟩
    · rw [hrest.rest]
    · exact (AList.lookup_insert_ne hj).trans (hrest.other j hj)
    · simp
  · exact ⟨.refl idx rw, by rw [hget]; exact hc⟩
  · rw [hget]
    refine Alone.mono h ?_
    rintro r s hq ⟨rw', b'⟩ hs ⟨hrest, hl⟩
    obtain rfl : b' = s.2 := congrArg Prod.snd hs
    exact hq rw' hrest hl

/-! ## cache の切り詰め -/

theorem lookup_dropBeyond (size chunkSize : Nat) (chunks : Hash Nat χ) (j : Nat) :
    (dropBeyond size chunkSize chunks).lookup j =
      if size ≤ j * chunkSize then none else chunks.lookup j := by
  have hfold : ∀ (keys : List Nat) (h : Hash Nat χ),
      (keys.foldl (fun h i => if size ≤ i * chunkSize then AList.erase i h else h) h).lookup j =
        if j ∈ keys ∧ size ≤ j * chunkSize then none else h.lookup j := by
    intro keys
    induction keys with
    | nil => simp
    | cons i keys ih =>
      intro h
      rw [List.foldl_cons, ih]
      by_cases hji : j = i
      · subst hji
        by_cases hs : size ≤ j * chunkSize <;> simp [hs]
      · by_cases hs : size ≤ i * chunkSize <;> simp [hs, hji, AList.lookup_erase_ne hji]
  rw [dropBeyond, hfold]
  by_cases hs : size ≤ j * chunkSize
  · by_cases hj : j ∈ chunks.entries.map (·.1)
    · rw [if_pos ⟨hj, hs⟩, if_pos hs]
    · rw [if_neg (fun h => hj h.1), if_pos hs]
      exact AList.lookup_eq_none.mpr hj
  · rw [if_neg (fun h => hs h.2), if_neg hs]

variable {M : Mechanism χ}

def CacheWf (T : LocalTruncation M) (rw : FileReadWriter χ) : Prop :=
  ∀ j c, rw.chunks.lookup j = some c → T.Wf c

/-- どの session も EOF の内に始まり、境界の session は EOF で切られている -/
def CacheAgrees (T : LocalTruncation M) (size chunkSize : Nat) (rw : FileReadWriter χ) : Prop :=
  ∀ j c, rw.chunks.lookup j = some c →
    j * chunkSize < size ∧ (j = size / chunkSize → T.Clipped (size % chunkSize) c)

theorem truncateToSize_spec (T : LocalTruncation M) (size chunkSize : Nat) (hwf : CacheWf T rw) :
    Alone (fun _ => True) (truncateToSize M size chunkSize)
      (fun r s => r = .ok () ∧ s.2.redis = b.redis ∧ CacheWf T s.1 ∧
        CacheAgrees T size chunkSize s.1) (rw, b) := by
  simp only [truncateToSize, alone_bind_iff, alone_modifySession_iff exists_answer, next_ok,
    alone_getSession_iff exists_answer]
  have hin : ∀ {j c}, (dropBeyond size chunkSize rw.chunks).lookup j = some c →
      j * chunkSize < size ∧ T.Wf c := by
    intro j c hj
    rw [lookup_dropBeyond] at hj
    split at hj
    · cases hj
    · next h => exact ⟨Nat.lt_of_not_le h, hwf j c hj⟩
  split
  · next hnone =>
    refine .pure ⟨rfl, rfl, fun j c hj => (hin hj).2, fun j c hj => ⟨(hin hj).1, ?_⟩⟩
    rintro rfl
    rw [hnone] at hj
    cases hj
  · next c hc =>
    refine alone_onChunk hc ((T.truncate (size % chunkSize) c b (hin hc).2).mono ?_)
    rintro r s ⟨hr, hs, hclip, hwf'⟩ rw' honly hl
    have hcases : ∀ {j c'}, rw'.chunks.lookup j = some c' → j * chunkSize < size ∧ T.Wf c' ∧
        (j = size / chunkSize → T.Clipped (size % chunkSize) c') := by
      intro j c' hj
      by_cases hji : j = size / chunkSize
      · subst hji
        rw [hl] at hj
        cases hj
        exact ⟨(hin hc).1, hwf', fun _ => hclip⟩
      · rw [honly.other j hji] at hj
        exact ⟨(hin hj).1, (hin hj).2, fun h => absurd h hji⟩
    exact ⟨hr, hs, fun j c' hj => (hcases hj).2.1,
      fun j c' hj => ⟨(hcases hj).1, (hcases hj).2.2⟩⟩

/-- 位置 `idx` の session が、有れば公開済みの prefix だけを `p` に切られた -/
structure ClampedAt (T : LocalTruncation M) (idx p : Nat) (rw rw' : FileReadWriter χ) : Prop where
  only : OnlyChunk idx rw rw'
  clamped : ∀ c', rw'.chunks.lookup idx = some c' →
    ∃ c, rw.chunks.lookup idx = some c ∧ (c' = c ∨ T.Clamped p c c')
  kept : ∀ c, rw.chunks.lookup idx = some c → ∃ c', rw'.chunks.lookup idx = some c'

theorem ClampedAt.refl (T : LocalTruncation M) (idx p : Nat) (rw : FileReadWriter χ) :
    ClampedAt T idx p rw rw :=
  ⟨.refl idx rw, fun c' h => ⟨c', h, .inl rfl⟩, fun c h => ⟨c, h⟩⟩

/-- prefix を切っても、切り詰められた cache は切り詰められたまま -/
theorem ClampedAt.cacheAgrees (h : ClampedAt T idx p rw rw') (hp : p ≤ size % chunkSize)
    (ha : CacheAgrees T size chunkSize rw) : CacheAgrees T size chunkSize rw' := by
  intro j c' hj
  by_cases hji : j = idx
  · subst hji
    obtain ⟨c, hc, heq | hcl⟩ := h.clamped c' hj
    · rw [heq]; exact ha j c hc
    · exact ⟨(ha j c hc).1, fun he => T.clipped_of_clamped hp hcl ((ha j c hc).2 he)⟩
  · rw [h.only.other j hji] at hj
    exact ha j c' hj

theorem ClampedAt.cacheWf (h : ClampedAt T idx p rw rw') (hwf : CacheWf T rw) : CacheWf T rw' := by
  intro j c' hj
  by_cases hji : j = idx
  · subst hji
    obtain ⟨c, hc, heq | hcl⟩ := h.clamped c' hj
    · rw [heq]; exact hwf j c hc
    · exact T.wf_of_clamped hcl (hwf j c hc)
  · rw [h.only.other j hji] at hj
    exact hwf j c' hj

theorem clampCached_spec (T : LocalTruncation M) (idx visiblePrefix : Nat) :
    Alone (fun _ => True) (clampCachedPublishedPrefix M idx visiblePrefix)
      (fun r s => r = .ok () ∧ s.2.redis = b.redis ∧ ClampedAt T idx visiblePrefix rw s.1)
      (rw, b) := by
  simp only [clampCachedPublishedPrefix, alone_bind_iff, alone_getSession_iff exists_answer, next_ok]
  split
  · exact .pure ⟨rfl, rfl, .refl T idx _ rw⟩
  · next c hc =>
    refine alone_onChunk hc ((T.clamp visiblePrefix c b).mono ?_)
    rintro r s ⟨hr, hs, hcl⟩ rw' honly hl
    refine ⟨hr, hs, honly, fun c' hc' => ⟨c, hc, .inr ?_⟩, fun _ _ => ⟨s.1, hl⟩⟩
    rw [hl] at hc'
    cases hc'
    exact hcl

theorem sanitizeRetained_spec (T : LocalTruncation M) (boundary : Option RetainedChunkBoundary) :
    Alone (fun _ => True) (sanitizeRetained M boundary)
      (fun _ s => s.2.redis = b.redis ∧
        (s.1 = rw ∨ ∃ bd, boundary = some bd ∧ ClampedAt T bd.index bd.visiblePrefix rw s.1))
      (rw, b) := by
  cases boundary with
  | none => exact .pure ⟨rfl, .inl rfl⟩
  | some bd =>
    refine .bind (.onBackend ((T.sanitize bd b).mono ?_))
    rintro r b' hb
    cases r with
    | error e => exact ⟨hb, .inl rfl⟩
    | ok u =>
      refine (clampCached_spec T bd.index bd.visiblePrefix).mono ?_
      rintro r s ⟨-, hs, hcl⟩
      exact ⟨hs.trans hb, .inr ⟨bd, rfl, hcl⟩⟩

end SwordFS.Vfs
