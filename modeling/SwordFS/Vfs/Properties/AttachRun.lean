import Mathlib.Data.List.Infix
import Mathlib.Data.List.Permutation
import SwordFS.Chunk.Properties.CowAttach
import SwordFS.Chunk.Properties.SliceAttach
import SwordFS.Vfs.Properties.AttachMount

/-!
# ChunkID の取り付けは一方向か

任意の数の mount の任意の実行について、COW の volume では ChunkID の取り付けは一方向である。
Slice の volume では、公開を待つ候補の覚えている ChunkID が外され、その候補がもう一度 Flush されない限り、
一方向である。
-/

namespace SwordFS.Vfs

open List Infra Metadata Chunk Function

variable {χ : Type}

/-! ## 他の者の動きと自分の動き -/

def Observed.chunk (t i : Nat) (c : χ) (o : Observed χ) : χ × Backend :=
  (((o.volume.mounts t).chunks.lookup i).getD c, o.volume.backend)

/-- 位置 `i` の session と外部状態を `a` にした mount `t` の状態 -/
def Observed.withChunk (t i : Nat) (a : χ × Backend) (o : Observed χ) : Mount χ :=
  ({ o.volume.mounts t with chunks := AList.insert i a.1 (o.volume.mounts t).chunks }, a.2)

/-- mount `t` の位置 `i` の session の一動作の後の状態 -/
def Observed.advanceChunk (t i : Nat) (a : χ × Backend) (o : Observed χ) : Observed χ :=
  o.advance t (o.withChunk t i a)

section

variable (H : Holding χ) (inoOf : Nat → Option InodeID) (t i : Nat)

/-- mount `t` の位置 `i` の session から見た他の者の動き -/
def ChunkRely (o o' : Observed χ) : Prop :=
  (o'.volume.mounts t).chunks.lookup i = (o.volume.mounts t).chunks.lookup i ∧
    (AttachInv H inoOf o → AttachInv H inoOf o' ∧ ∀ id, Mine o t i id → Mine o' t i id)

def ChunkGuar (o o' : Observed χ) : Prop :=
  ∃ a, o' = o.advanceChunk t i a ∧ (AttachInv H inoOf o → Advance H inoOf t i o (o.withChunk t i a))

def MountRely (o o' : Observed χ) : Prop :=
  o'.volume.mounts t = o.volume.mounts t ∧
    (AttachInv H inoOf o → AttachInv H inoOf o' ∧ ∀ i id, Mine o t i id → Mine o' t i id)

def MountGuar (o o' : Observed χ) : Prop :=
  ∃ m, o' = o.advance t m ∧ (AttachInv H inoOf o → ∃ i, Advance H inoOf t i o m)

end

section

variable {H : Holding χ} {inoOf : Nat → Option InodeID} {t t' i j : Nat} {o o' : Observed χ}

theorem isRely_chunkRely : Prog.IsRely (ChunkRely H inoOf t i) where
  refl _ := ⟨rfl, fun hi => ⟨hi, fun _ => id⟩⟩
  trans h h' := ⟨h'.1.trans h.1, fun hi =>
    ⟨(h'.2 (h.2 hi).1).1, fun id hm => (h'.2 (h.2 hi).1).2 id ((h.2 hi).2 id hm)⟩⟩

theorem isRely_mountRely : Prog.IsRely (MountRely H inoOf t) where
  refl _ := ⟨rfl, fun hi => ⟨hi, fun _ _ => id⟩⟩
  trans h h' := ⟨h'.1.trans h.1, fun hi =>
    ⟨(h'.2 (h.2 hi).1).1, fun i id hm => (h'.2 (h.2 hi).1).2 i id ((h.2 hi).2 i id hm)⟩⟩

theorem MountRely.chunk (h : MountRely H inoOf t o o') : ChunkRely H inoOf t i o o' :=
  ⟨by rw [h.1], fun hi => ⟨(h.2 hi).1, fun id => (h.2 hi).2 i id⟩⟩

theorem ChunkGuar.mount (h : ChunkGuar H inoOf t i o o') : MountGuar H inoOf t o o' := by
  obtain ⟨a, rfl, ha⟩ := h
  exact ⟨_, rfl, fun hi => ⟨i, ha hi⟩⟩

theorem MountGuar.rely (h : MountGuar H inoOf t o o') (hne : t' ≠ t) :
    MountRely H inoOf t' o o' := by
  obtain ⟨m, rfl, hm⟩ := h
  refine ⟨Observed.mounts_advance_of_ne hne m o, fun hi => ?_⟩
  obtain ⟨i, ha⟩ := hm hi
  exact ⟨hi.advance ha, fun j id hmine =>
    hmine.advance hi ha fun he => hne (congrArg Prod.fst he)⟩

theorem lookup_advanceChunk (a : χ × Backend) :
    ((o.advanceChunk t i a).volume.mounts t).chunks.lookup j =
      if j = i then some a.1 else (o.volume.mounts t).chunks.lookup j := by
  simp only [Observed.advanceChunk, Observed.advance, update_self, Observed.withChunk]
  split
  · next h => rw [h, AList.lookup_insert]
  · next h => rw [AList.lookup_insert_ne h]

theorem ChunkGuar.rely (h : ChunkGuar H inoOf t i o o') (hne : j ≠ i) :
    ChunkRely H inoOf t j o o' := by
  obtain ⟨a, rfl, ha⟩ := h
  refine ⟨by rw [lookup_advanceChunk, if_neg hne], fun hi => ⟨hi.advance (ha hi), fun id hm => ?_⟩⟩
  exact hm.advance hi (ha hi) fun he => hne (congrArg Prod.snd he)

variable {a : χ × Backend}

theorem advance_withChunk (hi : AttachInv H inoOf o)
    (hatt : ∀ {ino k id}, attachedAt a.2.redis ino k = some id → o.volume.Attached ino k id ∨
      (inoOf t = some ino ∧ k = i ∧ (Mine o t i id ∨ Flushes H o.volume t i id)))
    (halloc : (a.2.nextChunkID = o.volume.backend.nextChunkID ∧
        a.2.chunkOwner = o.volume.backend.chunkOwner) ∨
      (a.2.nextChunkID = o.volume.backend.nextChunkID + 1 ∧ a.2.chunkOwner =
        update o.volume.backend.chunkOwner (o.volume.backend.nextChunkID + 1) (some i)))
    (hidx : H.index a.1 = i)
    (hheld : ∀ {id}, H.held a.1 id → Holds H o.volume t i id ∨ Mine o t i id) :
    Advance H inoOf t i o (o.withChunk t i a) := by
  refine ⟨hatt, halloc, ?_, ?_⟩
  · intro k c hc
    by_cases hk : k = i
    · subst hk
      rw [Observed.withChunk, AList.lookup_insert] at hc
      cases hc
      exact hidx
    · rw [Observed.withChunk, AList.lookup_insert_ne hk] at hc
      exact hi.index hc
  · intro k c id hc hid
    by_cases hk : k = i
    · subst hk
      rw [Observed.withChunk, AList.lookup_insert] at hc
      cases hc
      exact (hheld hid).imp_right fun h => ⟨rfl, h⟩
    · rw [Observed.withChunk, AList.lookup_insert_ne hk] at hc
      exact .inl ⟨c, hc, hid⟩

/-- 位置 `i` の session は cache にあり、全体の不変条件が成り立つ -/
def AtChunk (H : Holding χ) (inoOf : Nat → Option InodeID) (t i : Nat) (o : Observed χ) : Prop :=
  AttachInv H inoOf o ∧ ((o.volume.mounts t).chunks.lookup i).isSome = true

section

variable (h : AtChunk H inoOf t i o)
include h

theorem AtChunk.guar (ha : Advance H inoOf t i o (o.withChunk t i a)) :
    ChunkGuar H inoOf t i o (o.advanceChunk t i a) ∧ AtChunk H inoOf t i (o.advanceChunk t i a) :=
  ⟨⟨a, rfl, fun _ => ha⟩, h.1.advance ha, by rw [lookup_advanceChunk, if_pos rfl]; rfl⟩

theorem AtChunk.holds {id : ChunkID}
    (hid : H.held (o.chunk t i c).1 id) : Holds H o.volume t i id := by
  obtain ⟨c₀, hc₀⟩ := Option.isSome_iff_exists.mp h.2
  refine ⟨c₀, hc₀, ?_⟩
  rwa [Observed.chunk, hc₀] at hid

theorem AtChunk.flushes {id : ChunkID}
    (hid : H.flushing (o.chunk t i c).1 = true ∧ H.held (o.chunk t i c).1 id) :
    Flushes H o.volume t i id := by
  obtain ⟨c₀, hc₀⟩ := Option.isSome_iff_exists.mp h.2
  refine ⟨c₀, hc₀, ?_⟩
  rwa [Observed.chunk, hc₀] at hid

theorem AtChunk.index (c : χ) : H.index (o.chunk t i c).1 = i := by
  obtain ⟨c₀, hc₀⟩ := Option.isSome_iff_exists.mp h.2
  rw [Observed.chunk, hc₀]
  exact h.1.index hc₀

theorem advance_calm (ha : SessionCalm H (o.chunk t i c) a) :
    Advance H inoOf t i o (o.withChunk t i a) :=
  advance_withChunk h.1 (fun hatt => .inl (ha.backend.attached _ _ _ hatt))
    (.inl ⟨ha.backend.nextChunkID, ha.backend.chunkOwner⟩) (ha.index.trans (h.index c))
    fun hid => .inl (h.holds (ha.held _ hid))

end

theorem mine_allocated (hi : AttachInv H inoOf o) :
    Mine (o.advanceChunk t i (c, o.volume.backend.allocated i)) t i
      (o.volume.backend.nextChunkID + 1) := by
  refine ⟨⟨?_, update_self _ _ _⟩, ?_⟩
  · have hlt : o.volume.backend.nextChunkID < o.volume.backend.nextChunkID + 1 := Nat.lt_succ_self _
    exact (congrFun (if_pos hlt) _).trans (update_self _ _ _)
  · intro v hv ino k hatt
    have hle : o.volume.backend.nextChunkID + 1 ≤ o.volume.backend.nextChunkID := by
      rcases mem_cons.mp hv with rfl | hv
      · exact hi.bounded _ hi.mem_current (show o.volume.Attached ino k _ from hatt)
      · exact hi.bounded v hv hatt
    exact absurd hle (Nat.not_succ_le_self _)

/-- volume の全体の中の一つの session は、`FlushWorld` の仮定を満たす -/
theorem attachWorld (hino : inoOf t = some ino) (c : χ) :
    FlushWorld H ino i (Observed.chunk t i c) (Observed.advanceChunk t i)
      (ChunkRely H inoOf t i) (ChunkGuar H inoOf t i) (AtChunk H inoOf t i)
      (fun id o => Mine o t i id) where
  rely := isRely_chunkRely
  get_set a o := by
    rw [Observed.chunk, lookup_advanceChunk, if_pos rfl]
    rfl
  index o h := h.index c
  session o o' _ hr := by rw [Observed.chunk, Observed.chunk, hr.1]
  at_rely o o' h hr := ⟨(hr.2 h.1).1, by rw [hr.1]; exact h.2⟩
  mine_rely id o o' h hr := (hr.2 h.1).2 id
  calm o a h ha := h.guar (advance_calm h ha)
  mine_calm id o a h ha hm :=
    hm.advance_of_attached h.1 (advance_calm h ha) fun hatt => ha.backend.attached _ _ _ hatt
  alloc o o' h he := by
    subst he
    have hadv : Advance H inoOf t i o (o.withChunk t i
        ((o.chunk t i c).1, (o.chunk t i c).2.allocated i)) :=
      advance_withChunk h.1 (fun hatt => .inl hatt) (.inr ⟨rfl, rfl⟩) (h.index c)
        fun hid => .inl (h.holds hid)
    obtain ⟨hg, hat⟩ := h.guar hadv
    exact ⟨hg, hat, mine_allocated h.1⟩
  hold id o o' c' h hm hmark hheld he := by
    subst he
    have hadv : Advance H inoOf t i o (o.withChunk t i (c', (o.chunk t i c).2)) :=
      advance_withChunk h.1 (fun hatt => .inl hatt) (.inl ⟨rfl, rfl⟩)
        ((congrArg Prod.fst hmark).trans (h.index c)) fun {x} hx => by
        rcases hheld x hx with hx | rfl
        · exact .inl (h.holds hx)
        · exact .inr hm
    obtain ⟨hg, hat⟩ := h.guar hadv
    exact ⟨hg, hat, hm.advance_of_attached h.1 hadv fun hatt => hatt⟩
  attach id o b h hm hb := by
    refine h.guar (advance_withChunk h.1 (fun {ino' k x} hatt => ?_)
      (.inl ⟨hb.nextChunkID, hb.chunkOwner⟩) (h.index c) fun hid => .inl (h.holds hid))
    rcases hb.attached ino' k x hatt with hold | ⟨rfl, rfl, rfl, -⟩
    · exact .inl hold
    · exact .inr ⟨hino, rfl, hm.imp_right h.flushes⟩
  toggle o c' h hidx hheld := h.guar (advance_withChunk h.1 (fun hatt => .inl hatt)
    (.inl ⟨rfl, rfl⟩) (hidx.trans (h.index c)) fun hid => .inl (h.holds (hheld _ hid)))

end

/-! ## mount の呼び出し -/

section

variable {H : Holding χ} {inoOf : Nat → Option InodeID} {t : Nat} {α : Type} {o : Observed χ}

def onMount (t : Nat) (p : FileIo χ α) : Prog Answer (Observed χ) (Result α) :=
  Prog.zoom (Observed.mount t) (Observed.advance t) p

/-- 他の mount が動く間、`p` は許された動作だけを行い、不変条件を保つ -/
def Safely (H : Holding χ) (inoOf : Nat → Option InodeID) (t : Nat) (p : FileIo χ α) : Prop :=
  ∀ o, AttachInv H inoOf o → Prog.Wp AnyAnswer (MountRely H inoOf t) (MountGuar H inoOf t)
    (onMount t p) (fun _ o => AttachInv H inoOf o) o

theorem MountGuar.inv (hi : AttachInv H inoOf o) (h : MountGuar H inoOf t o o') :
    AttachInv H inoOf o' := by
  obtain ⟨m, rfl, hm⟩ := h
  exact hi.advance (hm hi).choose_spec

theorem advance_mountCalm (hi : AttachInv H inoOf o)
    (h : MountCalm H (o.mount t) m) : Advance H inoOf t 0 o m := by
  refine ⟨fun hatt => .inl (h.backend.attached _ _ _ hatt),
    .inl ⟨h.backend.nextChunkID, h.backend.chunkOwner⟩, fun hc => ?_, fun hc hid => ?_⟩
  · rcases h.index hc with hidx | ⟨c₀, hc₀, hidx⟩
    · exact hidx
    · exact hidx.trans (hi.index hc₀)
  · obtain ⟨c₀, hc₀, hid₀⟩ := h.held hc hid
    exact .inl ⟨c₀, hc₀, hid₀⟩

theorem wp_inv {α : Type} {p : Prog Answer (Observed χ) α} {Q : α → Observed χ → Prop}
    (h : Prog.Wp AnyAnswer (MountRely H inoOf t) (MountGuar H inoOf t) p Q o)
    (hi : AttachInv H inoOf o) :
    Prog.Wp AnyAnswer (MountRely H inoOf t) (MountGuar H inoOf t) p
      (fun a o => AttachInv H inoOf o ∧ Q a o) o :=
  h.frame hi (fun _ _ hi hr => (hr.2 hi).1) fun _ _ hi hg => hg.inv hi

variable {p : FileIo χ α}

theorem Calmly.safely (h : Calmly H p) : Safely H inoOf t p := by
  intro o hi
  have hw : Prog.Wp AnyAnswer (MountRely H inoOf t) (MountGuar H inoOf t) (onMount t p)
      (fun _ _ => True) o :=
    (h (o.mount t)).zoom (fun a o => Observed.mount_advance t a o)
      (fun _ _ hr => hr.1) fun o a ha => ⟨a, rfl, fun hi => ⟨0, advance_mountCalm hi ha⟩⟩
  exact (wp_inv hw hi).mono fun _ _ hq => hq.1

theorem Safely.bind {β : Type} {k : α → FileIo χ β} (hp : Safely H inoOf t p)
    (hk : ∀ a, Safely H inoOf t (k a)) : Safely H inoOf t (p >>= k) := by
  refine fun o hi => wp_zoom_bind isRely_mountRely ((hp o hi).mono fun r o hi => ?_)
  cases r with
  | ok a => exact hk a o hi
  | error e => exact fun o' hr => (hr.2 hi).1

theorem Safely.attempt (hp : Safely H inoOf t p) : Safely H inoOf t (attempt p) :=
  fun o hi => wp_zoom_attempt ((hp o hi).mono fun _ _ hi => hi)

/-! ## Flush -/

/-- `l` の位置の session はどれも cache にある -/
def Cached (t : Nat) (l : List (Nat × χ)) (o : Observed χ) : Prop :=
  ∀ e ∈ l, ((o.volume.mounts t).chunks.lookup e.1).isSome = true

variable {ino : InodeID} {M : Mechanism χ}

variable {l : List (Nat × χ)}

theorem Cached.rely (h : Cached t l o) (hr : MountRely H inoOf t o o') :
    Cached t l o' := fun e he => by
  rw [hr.1]
  exact h e he

theorem Cached.guar (h : Cached t l o) (hg : ChunkGuar H inoOf t i o o') : Cached t l o' := by
  obtain ⟨a, rfl, -⟩ := hg
  intro e he
  rw [lookup_advanceChunk]
  split
  · rfl
  · exact h e he

theorem wp_flushChunk (hM : AttachOnce H ino M) (hino : inoOf t = some ino) {e : Nat × χ}
    (h : AtChunk H inoOf t e.1 o) :
    Prog.Wp AnyAnswer (ChunkRely H inoOf t e.1) (ChunkGuar H inoOf t e.1)
      (onMount t (onChunk e.1 e.2 M.flush)) (fun _ _ => True) o := by
  have hzoom : onMount t (onChunk e.1 e.2 M.flush) =
      Prog.zoom (Observed.chunk t e.1 e.2) (Observed.advanceChunk t e.1) M.flush :=
    Prog.zoom_zoom _
  rw [hzoom]
  exact (hM.flush (attachWorld hino e.2) o h).mono fun _ _ _ => trivial

/-- 一組の Flush。位置が異なるので、互いの動きは相手の rely に入る -/
theorem wp_flushBatch (hM : AttachOnce H ino M) (hino : inoOf t = some ino) {batch : List (Nat × χ)}
    (hnd : (batch.map (·.1)).Nodup) (hsub : batch ⊆ l) (hi : AttachInv H inoOf o)
    (hl : Cached t l o) :
    Prog.Wp AnyAnswer (MountRely H inoOf t) (MountGuar H inoOf t)
      (onMount t (flushBatch M batch)) (fun _ o => AttachInv H inoOf o ∧ Cached t l o) o := by
  have hpar := Prog.wp_parAll_pairwise (E := AnyAnswer)
    (R := fun e : Nat × χ => ChunkRely H inoOf t e.1) (G := fun e => ChunkGuar H inoOf t e.1)
    (p := fun e => onMount t (onChunk e.1 e.2 M.flush)) (Q := fun _ _ _ => True) (l := batch)
    (fun _ => isRely_chunkRely)
    ((pairwise_map.mp hnd).imp fun hne =>
      ⟨fun _ _ hg => hg.rely (Ne.symm hne), fun _ _ hg => hg.rely hne⟩)
    fun e he => wp_flushChunk hM hino ⟨hi, hl e (hsub he)⟩
  have hframe := (hpar.weaken (fun _ => id) (fun _ _ hr e _ => MountRely.chunk hr)
    fun _ _ => id).frame (P := fun o => AttachInv H inoOf o ∧ Cached t l o) ⟨hi, hl⟩
    (fun _ _ h hr => ⟨(hr.2 h.1).1, h.2.rely hr⟩)
    fun _ _ h ⟨_, _, hg⟩ => ⟨hg.mount.inv h.1, h.2.guar hg⟩
  have hguar := hframe.weaken (fun _ => id) (fun _ _ => id) fun _ _ ⟨_, _, hg⟩ => hg.mount
  refine wp_zoom_bind isRely_mountRely ?_
  rw [Prog.zoom_bind, Prog.zoom_parAll, map_map]
  exact Prog.wp_map (hguar.mono fun rs o h o' hr => ⟨(hr.2 h.1.1).1, h.1.2.rely hr⟩)

theorem batches_sublist {β : Type} (n fuel : Nat) (l : List β) :
    ∀ batch ∈ batches n fuel l, batch.Sublist l := by
  induction fuel generalizing l with
  | zero => exact fun _ h => nomatch h
  | succ fuel ih =>
    intro batch hb
    unfold batches at hb
    split at hb
    · cases hb
    · rcases mem_cons.mp hb with rfl | hb
      · exact take_sublist n l
      · exact (ih _ batch hb).trans (drop_sublist n l)

theorem wp_flushBatches (hM : AttachOnce H ino M) (hino : inoOf t = some ino)
    (hnd : (l.map (·.1)).Nodup) (bs : List (List (Nat × χ))) (hbs : ∀ batch ∈ bs, batch.Sublist l)
    (hi : AttachInv H inoOf o) (hl : Cached t l o) :
    Prog.Wp AnyAnswer (MountRely H inoOf t) (MountGuar H inoOf t)
      (onMount t (flushBatches M bs)) (fun _ o => AttachInv H inoOf o ∧ Cached t l o) o := by
  induction bs generalizing o with
  | nil => exact fun o' hr => ⟨(hr.2 hi).1, hl.rely hr⟩
  | cons batch bs ih =>
    obtain ⟨hb, hbs⟩ := forall_mem_cons.mp hbs
    have hstop : ∀ {o}, AttachInv H inoOf o ∧ Cached t l o → ∀ o', MountRely H inoOf t o o' →
        AttachInv H inoOf o' ∧ Cached t l o' := fun h o' hr => ⟨(hr.2 h.1).1, h.2.rely hr⟩
    refine wp_zoom_bind isRely_mountRely
      ((wp_flushBatch hM hino (hnd.sublist (hb.map _)) hb.subset hi hl).mono fun r o h => ?_)
    cases r with
    | error e => exact hstop h
    | ok first =>
      refine wp_zoom_bind isRely_mountRely ((ih hbs h.1 h.2).mono fun r o h => ?_)
      cases r with
      | error e => exact hstop h
      | ok later => exact hstop h

/-- Flush の対象をどの順に並べても、cache にある異なる位置の session -/
theorem pendingWrites_cached (pick : Nat) (chunks : Hash Nat χ) :
    let pending := (chunks.entries.map fun e => (e.1, e.2)).filter fun e => M.hasPendingWrites e.2
    let l := pending.permutations.getD pick pending
    (l.map (·.1)).Nodup ∧ ∀ e ∈ l, (chunks.lookup e.1).isSome = true := by
  intro pending l
  have hperm : l.Perm pending := by
    dsimp only [l]
    rw [getD_eq_getElem?_getD]
    cases h : pending.permutations[pick]? with
    | none => exact .refl _
    | some l' => exact mem_permutations.mp (mem_of_getElem? h)
  have hnd : (pending.map (·.1)).Nodup := by
    refine List.Nodup.sublist (filter_sublist.map _) ?_
    rw [map_map]
    exact chunks.nodupKeys
  refine ⟨(hperm.map _).nodup_iff.mpr hnd, fun e he => ?_⟩
  obtain ⟨x, hx, rfl⟩ := mem_map.mp (mem_of_mem_filter (hperm.subset he))
  rw [AList.lookup_isSome, AList.mem_keys]
  exact mem_map_of_mem hx

theorem wp_getPendingWrites (hi : AttachInv H inoOf o) :
    Prog.Wp AnyAnswer (MountRely H inoOf t) (MountGuar H inoOf t)
      (onMount t (getPendingWrites M)) (fun r o => AttachInv H inoOf o ∧
        ∀ l, r = .ok l → (l.map (·.1)).Nodup ∧ Cached t l o) o := by
  intro o₁ hr c _
  have hi₁ := (hr.2 hi).1
  have hadv := advance_mountCalm (t := t) hi₁ (MountCalm.refl _)
  refine ⟨⟨_, rfl, fun _ => ⟨0, hadv⟩⟩, fun o₂ hr₂ => ⟨(hr₂.2 (hi₁.advance hadv)).1, ?_⟩⟩
  rintro l ⟨⟩
  obtain ⟨hnd, hl⟩ := pendingWrites_cached (M := M) c.pick (o₁.volume.mounts t).chunks
  refine ⟨hnd, fun e he => ?_⟩
  have hmount : o₂.volume.mounts t = o₁.volume.mounts t :=
    hr₂.1.trans (congrArg Prod.fst (Observed.mount_advance t _ o₁))
  rw [hmount]
  exact hl e he

theorem safely_flush (hM : AttachOnce H ino M) (hino : inoOf t = some ino) (n : Nat) :
    Safely H inoOf t (flush M n) := by
  refine calmly_checkSizeCommitSafety.safely.bind fun _ => calmly_getSession.safely.bind
    fun barrier => fun o hi => ?_
  refine wp_zoom_bind isRely_mountRely ((wp_getPendingWrites hi).mono fun r o ⟨hi, hr⟩ => ?_)
  cases r with
  | error e => exact fun o' hr => (hr.2 hi).1
  | ok l =>
    obtain ⟨hnd, hl⟩ := hr l rfl
    refine wp_zoom_bind isRely_mountRely
      ((wp_flushBatches hM hino hnd _ (batches_sublist _ _ _) hi hl).mono fun r o h => ?_)
    cases r with
    | error e => exact fun o' hr => (hr.2 h.1).1
    | ok first =>
      cases first with
      | some e => exact fun o' hr => (hr.2 h.1).1
      | none => exact (calmly_modify fun _ => rfl).safely o h.1

/-! ## 全体の実行 -/

theorem safely_job (M : InodeID → Mechanism χ) (cx : MetaContext)
    (hM : ∀ ino, AttachOnce H ino (M ino)) (hino : inoOf t = some ino) (job : Job) :
    Safely H inoOf t (job.prog M cx ino) := by
  have hcall : ∀ c : FileCall, Safely H inoOf t (c.prog (M ino) cx ino) := by
    intro c
    cases c with
    | write bytes off flags =>
      exact ((calmly_write (hM ino) bytes off flags).bind fun _ => .pure _).safely
    | flush n => exact (safely_flush (hM ino) hino n).bind fun _ => (Calmly.pure _).safely
    | truncate size => exact ((calmly_truncate (hM ino) size).bind fun _ => .pure _).safely
    | setAttr requested f =>
      exact ((calmly_setAttr (hM ino) requested f).bind fun _ => .pure _).safely
    | read size off => exact (calmly_read (hM ino) size off).safely
  cases job with
  | call c => exact (hcall c).attempt.bind fun _ => (Calmly.pure _).safely
  | reclaim target =>
    exact ((calmly_transact fun _ => detaching_prepareReclaim).attempt.bind
      fun _ => .pure _).safely

theorem safely_worker (M : InodeID → Mechanism χ) (cx : MetaContext)
    (hM : ∀ ino, AttachOnce H ino (M ino)) (w : Worker) (hino : inoOf t = some w.ino) :
    Safely H inoOf t (w.prog M cx) := by
  unfold Worker.prog
  induction w.jobs with
  | nil => exact (Calmly.pure _).safely
  | cons job jobs ih => exact (safely_job M cx hM hino job).bind fun _ => ih

end

def inodeOf (workers : List Worker) (t : Nat) : Option InodeID := (workers[t]?).map (·.ino)

variable {H : Holding χ}

section

variable (M : InodeID → Mechanism χ) (cx : MetaContext) (hM : ∀ ino, AttachOnce H ino (M ino))
  (workers : List Worker)
include M cx hM workers

theorem wp_system (hi : AttachInv H (inodeOf workers) o) :
    Prog.Wp AnyAnswer Eq (fun o o' => ∃ t < workers.length, MountGuar H (inodeOf workers) t o o')
      (system M cx workers) (fun _ _ => True) o := by
  have hpar := Prog.wp_parAll_pairwise (E := AnyAnswer)
    (R := fun w : Worker × Nat => MountRely H (inodeOf workers) w.2)
    (G := fun w => MountGuar H (inodeOf workers) w.2)
    (p := fun w => onMount w.2 (w.1.prog M cx)) (Q := fun _ _ _ => True) (l := workers.zipIdx)
    (fun _ => isRely_mountRely)
    ((pairwise_map.mp (nodup_zipIdx_map_snd workers)).imp fun hne =>
      ⟨fun _ _ hg => hg.rely (Ne.symm hne), fun _ _ hg => hg.rely hne⟩)
    fun w hw => (safely_worker M cx hM w.1
      (congrArg (Option.map _) (mem_zipIdx_iff_getElem?.mp hw)) _ hi).mono
        fun _ _ _ => trivial
  refine (hpar.weaken (fun _ => id) ?_ ?_).mono fun _ _ _ => trivial
  · rintro o _ rfl w _
    exact isRely_mountRely.refl o
  · rintro o o' ⟨w, hw, hg⟩
    exact ⟨w.2, (List.getElem?_eq_some_iff.mp (mem_zipIdx_iff_getElem?.mp hw)).1, hg⟩

theorem attachInv_runSystem (cs : Nat → Choice Answer)
    (hb : WellAttached v.backend) (hm : ∀ t, (v.mounts t).chunks = ∅) :
    AttachInv H (inodeOf workers) (runSystem M cx workers cs v) := by
  have hstart : AttachInv H (inodeOf workers) (.start v) := attachInv_start hb hm
  have hframe := (wp_system M cx hM workers hstart).frame hstart (fun _ _ hi he => he ▸ hi)
    fun _ _ hi ⟨_, _, hg⟩ => hg.inv hi
  exact (hframe.exec fun _ _ => trivial).1

end

/--
任意の数の mount の任意の実行について、COW の volume では ChunkID の取り付けは一方向である。
Slice の volume では、作った ChunkID を外された候補がもう一度 Flush されない限り、一方向である。
-/
theorem attachment_one_way (cx : MetaContext) (workers : List Worker) (cs : Nat → Choice Answer) :
    (∀ (fuel : Nat) (v : Volume Cow.COWChunk), WellAttached v.backend →
      (∀ t, (v.mounts t).chunks = ∅) →
      OneWay (runSystem (fun ino => Cow.mechanism cx ino fuel) cx workers cs v).trace) ∧
    (∀ v : Volume Slice.SliceChunk, WellAttached v.backend → (∀ t, (v.mounts t).chunks = ∅) →
      let o := runSystem (fun ino => Slice.mechanism cx ino .interleaved) cx workers cs v
      NoOrphanFlush Slice.holding (inodeOf workers) o.trace → OneWay o.trace) := by
  refine ⟨fun fuel v hb hm => ?_, fun v hb hm hno => ?_⟩
  · exact (attachInv_runSystem _ cx (fun _ => Cow.attachOnce) workers cs hb hm).oneWay
      fun _ _ _ _ _ _ _ ⟨_, _, hf, _⟩ => nomatch hf
  · exact (attachInv_runSystem _ cx (fun _ => Slice.attachOnce) workers cs hb hm).oneWay hno

/-! ## 返事の失われた取り付けの後の切り詰め -/

/-- 返事の失われた取り付けの後、もう一つの mount が切り詰めてから、Flush をやり直す -/
def shrinkBetweenFlushes : List Worker :=
  [⟨2, [.call (.write [7] 0 {}), .call (.flush 1), .call (.flush 1)]⟩, ⟨2, [.call (.truncate 0)]⟩]

/-- 取り付けは効いたが返事が失われ、その読み返しも失敗する。30 番目からの動作は切り詰め -/
def attachReplyLost : Nat → Choice Answer := fun k =>
  ⟨if 30 ≤ k ∧ k < 36 then 1 else 0,
    fun _ => ⟨if k = 25 then .lost true
      else if k = 26 then .fail (.unavailable "Redis unavailable") else .none, 0⟩⟩

def openedVolume : Volume χ := ⟨fun _ => .opened (emptyFile 2), createdVolume 2⟩

theorem wellAttached_createdVolume (ino : InodeID) : WellAttached (createdVolume ino) := by
  have hnone : ∀ {j i id}, attachedAt (createdVolume ino).redis j i = some id → False :=
    fun h => nomatch h
  exact ⟨fun h => (hnone h).elim, fun h => (hnone h).elim⟩

/-- 切り詰めで外された ChunkID が、やり直した Flush でもう一度取り付けられる -/
theorem slice_reattaches :
    ∃ v₁ v₂ v₃, [v₃, v₂, v₁].Sublist (runSystem (fun ino =>
        Slice.mechanism smallSlices ino .interleaved) smallSlices shrinkBetweenFlushes
        attachReplyLost openedVolume).trace ∧
      v₁.Attached 2 0 1 ∧ ¬v₂.Attached 2 0 1 ∧ v₃.Attached 2 0 1 := by
  generalize hl : (runSystem (fun ino => Slice.mechanism smallSlices ino .interleaved) smallSlices
    shrinkBetweenFlushes attachReplyLost openedVolume).trace = l
  have hrun : (l.map fun v => attachedAt v.backend.redis 2 0)[20]? = some (some 1) ∧
      (l.map fun v => attachedAt v.backend.redis 2 0)[10]? = some none ∧
      (l.map fun v => attachedAt v.backend.redis 2 0)[0]? = some (some 1) := by
    rw [← hl]
    decide +kernel
  simp only [getElem?_map, Option.map_eq_some_iff] at hrun
  obtain ⟨⟨v₁, h₁, hv₁⟩, ⟨v₂, h₂, hv₂⟩, v₃, h₃, hv₃⟩ := hrun
  refine ⟨v₁, v₂, v₃, ?_, hv₁, fun h => ?_, hv₃⟩
  · obtain ⟨hlt₁, rfl⟩ := List.getElem?_eq_some_iff.mp h₁
    obtain ⟨hlt₂, rfl⟩ := List.getElem?_eq_some_iff.mp h₂
    obtain ⟨hlt₃, rfl⟩ := List.getElem?_eq_some_iff.mp h₃
    have hsub : ([⟨0, hlt₃⟩, ⟨10, hlt₂⟩, ⟨20, hlt₁⟩] : List (Fin l.length)).Pairwise (· < ·) := by
      simp
    exact map_getElem_sublist hsub
  · rw [Volume.Attached, hv₂] at h
    cases h

/-- 返事の失われた取り付けの後、自分で切り詰めてから、Flush をやり直す -/
def shrinkOwnFlush : List Worker :=
  [⟨2, [.call (.write [7] 0 {}), .call (.flush 1), .call (.truncate 0), .call (.flush 1)]⟩]

def ownShrink : Observed Slice.SliceChunk :=
  runSystem (fun ino => Slice.mechanism smallSlices ino .interleaved) smallSlices shrinkOwnFlush
    attachReplyLost openedVolume

/-- Flush の途中の session が覚えている ChunkID と、位置 0 の attachment -/
def flushedIDs (v : Volume Slice.SliceChunk) : List (Nat × ChunkID) × Option ChunkID :=
  ((v.mounts 0).chunks.entries.flatMap fun e =>
    if e.2.flushing then e.2.frozen.filterMap fun c => c.createdChunkId.map (e.1, ·) else [],
    attachedAt v.backend.redis 2 0)

/-- 自分の切り詰めは、外した ChunkID を覚えている候補も捨てるので、やり直した Flush は取り付けない -/
theorem attachment_one_way_truncated :
    OneWay (runSystem (fun ino => Cow.mechanism smallChunks ino 1) smallChunks shrinkBetweenFlushes
      attachReplyLost openedVolume).trace ∧
    OneWay ownShrink.trace ∧ (∃ v ∈ ownShrink.trace, v.Attached 2 0 1) ∧
      ¬ownShrink.volume.Attached 2 0 1 := by
  refine ⟨(attachment_one_way smallChunks shrinkBetweenFlushes attachReplyLost).1 1 openedVolume
    (wellAttached_createdVolume 2) fun _ => rfl, ?_⟩
  have hrun : ownShrink.trace.map flushedIDs =
      .replicate 8 ([], none) ++ .replicate 3 ([], some 1) ++ .replicate 3 ([(0, 1)], some 1) ++
        .replicate 3 ([(0, 1)], none) ++ .replicate 23 ([], none) := by decide +kernel
  refine ⟨(attachment_one_way smallSlices shrinkOwnFlush attachReplyLost).2 openedVolume
    (wellAttached_createdVolume 2) (fun _ => rfl) ?_, ?_, by decide +kernel⟩
  · rintro v older hsuf (_ | t) i id ino ⟨c, hc, hflush, d, hd, hid⟩ ⟨⟩ v' hv' hatt
    have hcheck : ∀ s ∈ (ownShrink.trace.map flushedIDs).tails, ∀ x ∈ s.head?, ∀ p ∈ x.1,
        p.1 = 0 ∧ ((∃ y ∈ s.tail, y.2 = some p.2) → x.2 = some p.2) := by
      rw [hrun]
      decide
    have hmem : (i, id) ∈ (flushedIDs v).1 := by
      refine mem_flatMap.mpr ⟨⟨i, c⟩, AList.mem_lookup_iff.mp hc, ?_⟩
      rw [if_pos (show c.flushing = true from hflush)]
      exact mem_filterMap.mpr ⟨d, hd, by rw [hid]; rfl⟩
    obtain ⟨rfl, hback⟩ := hcheck _ ((mem_tails _ _).mpr (hsuf.map flushedIDs)) _ rfl _ hmem
    exact hback ⟨_, mem_map_of_mem hv', hatt⟩
  · have hsome : ([], some 1) ∈ ownShrink.trace.map flushedIDs := by
      rw [hrun]
      decide
    obtain ⟨v, hv, he⟩ := mem_map.mp hsome
    exact ⟨v, hv, congrArg Prod.snd he⟩

end SwordFS.Vfs
