import SwordFS.Metadata.Properties.FileTxn

/-!
# attachment に対する書き込み

file の transaction のうち attachment を増やすのは `AttachPrepared` だけである。
他の transaction が溜める書き込みは、どれだけが効いても attachment を増やさない。
-/

namespace SwordFS.Metadata

open Infra Txn

def OnlyDetached (s₀ s : Redis) : Prop :=
  ∀ ino i id, attachedAt s ino i = some id → attachedAt s₀ ino i = some id

theorem OnlyDetached.refl (s : Redis) : OnlyDetached s s := fun _ _ _ h => h

theorem OnlyDetached.trans (h : OnlyDetached s₁ s₂) (h' : OnlyDetached s₂ s₃) :
    OnlyDetached s₁ s₃ := fun ino i id hs => h ino i id (h' ino i id hs)

def Detaching (w : KvCmd) : Prop := ∀ s, OnlyDetached s (w.apply s)

theorem onlyDetached_applyAll (h : ∀ w ∈ ws, Detaching w) (s : Redis) :
    OnlyDetached s (Cmd.applyAll ws s) := by
  induction ws generalizing s with
  | nil => exact .refl s
  | cons w ws ih =>
    obtain ⟨hw, hws⟩ := List.forall_mem_cons.mp h
    exact (hw s).trans (ih hws _)

theorem detaching_of_key (h : ∀ ino, w.key ≠ .chunkRefs ino) : Detaching w := by
  intro s ino i id hs
  unfold attachedAt at hs ⊢
  rwa [Cmd.apply_of_ne w s (h ino).symm] at hs

theorem detaching_hdelChunkRef (ino : InodeID) (i : Nat) : Detaching (KvCmd.hdelChunkRef ino i) := by
  intro s ino' i' id hs
  unfold attachedAt at hs ⊢
  by_cases hino : ino' = ino
  · subst hino
    rw [KvCmd.hdelChunkRef_apply, if_pos rfl] at hs
    by_cases hi : i' = i
    · subst hi
      rw [AList.lookup_erase] at hs
      cases hs
    · rwa [AList.lookup_erase_ne hi] at hs
  · rwa [KvCmd.hdelChunkRef_apply, if_neg hino] at hs

theorem detaching_delChunkRefs (ino : InodeID) : Detaching (KvCmd.delChunkRefs ino) := by
  intro s ino' i' id hs
  unfold attachedAt at hs ⊢
  by_cases hino : ino' = ino
  · subst hino
    rw [KvCmd.delChunkRefs_apply, if_pos rfl] at hs
    cases hs
  · rwa [KvCmd.delChunkRefs_apply, if_neg hino] at hs

/-! ## 溜める書き込み -/

section

variable {W : KvCmd → Prop} {cx : MetaContext} {ino : InodeID}

theorem writes_findInode (ino : InodeID) : Writes W (findInode ino) := by
  refine (writes_read _ _).bind fun r => ?_
  split
  · exact .pure _
  · split
    · exact .throw _
    · exact .pure _

theorem writes_lookupInode (ino : InodeID) : Writes W (lookupInode ino) := by
  refine (writes_findInode ino).bind fun r => ?_
  split
  · exact .throw _
  · exact .pure _

theorem writes_lookupAttachment (ino : InodeID) (i : Nat) : Writes W (lookupAttachment ino i) := by
  refine (writes_read _ _).bind fun refs => ?_
  split
  · exact .pure _
  · exact writes_ofExcept _

theorem writes_readFileMappingSnapshot (ino : InodeID) : Writes W (readFileMappingSnapshot ino) :=
  (writes_lookupInode ino).bind fun _ => .failIf fun _ =>
    (writes_read _ _).bind fun _ => .ofExcept fun _ => .pure _

theorem writes_checkBoundary (boundary : Option ChunkBoundarySnapshot) (msg : String) :
    Writes W (checkBoundary ino boundary msg) := by
  unfold checkBoundary
  split
  · exact .pure _
  · exact (writes_lookupAttachment _ _).bind fun _ => writes_failIf _ _

theorem writes_setInode (h : W (KvCmd.setInode n)) : Writes W (setInode n) := by
  unfold setInode
  split
  · exact .throw _
  · exact writes_write h

theorem writes_finalizeAttachedWrite {id : ChunkID} (h : ∀ n, W (KvCmd.setInode n)) :
    Writes W (finalizeAttachedWrite cx ino i id endOff expected) :=
  .ofExcept fun _ => .ofExcept fun _ =>
    (writes_lookupInode _).bind fun _ => .failIf fun _ =>
      (writes_lookupAttachment _ _).bind fun _ => .failIf fun _ =>
        (writes_checkBoundary _ _).bind fun _ => .failIf fun _ =>
          .ofExcept fun _ => writes_setInode (h _)

theorem writes_setAttr (h : ∀ n, W (KvCmd.setInode n)) : Writes W (setAttr cx ino requested f) := by
  refine .failIf fun _ => (writes_lookupInode _).bind fun inode =>
    .ofExcept fun _ => ?_
  dsimp only
  split
  · exact .ofExcept fun _ => (writes_setInode (h _)).bind fun _ => .pure _
  · exact (Writes.pure _).bind fun _ => (writes_setInode (h _)).bind fun _ => .pure _

theorem writes_queueDetached
    (h : ∀ m ∈ ms, W (KvCmd.hsetPendingDelete (detachedDelete cx.chunkType ino m))) :
    Writes W (queueDetached cx ino ms) := by
  induction ms with
  | nil => exact .pure _
  | cons m ms ih =>
    intro s ws a ws'' he hws
    obtain ⟨work, ws₁, h₁, h₂⟩ := eval_bind_ok.mp he
    obtain ⟨henc, rfl⟩ := eval_ofExcept_ok.mp h₁
    have hwork : work = detachedDelete cx.chunkType ino m := by
      unfold encodeDetachedDelete at henc
      simp only [Result.bind_ok_iff, Result.pure_ok_iff] at henc
      obtain ⟨-, -, rfl⟩ := henc
      rfl
    have hrest : Writes W (queuePendingDelete work >>= fun _ => queueDetached cx ino ms) :=
      (writes_write (hwork ▸ h m (.head _))).bind fun _ => ih fun m' hm' => h m' (.tail _ hm')
    exact hrest s _ a ws'' h₂ hws

theorem writes_detachMappings
    (h : ∀ m ∈ ms, W (KvCmd.hdelChunkRef ino m.index)) : Writes W (detachMappings ino ms) := by
  induction ms with
  | nil => exact .pure _
  | cons m ms ih =>
    exact (writes_write (h m (.head _))).bind fun _ => ih fun m' hm' => h m' (.tail _ hm')

theorem writes_commitSizeChange (hinode : ∀ n, W (KvCmd.setInode n))
    (hqueue : ∀ m, W (KvCmd.hsetPendingDelete (detachedDelete cx.chunkType ino m)))
    (hdel : ∀ i, W (KvCmd.hdelChunkRef ino i)) :
    Writes W (commitSizeChange cx ino plan requested f isShrink) := by
  refine .failIf fun _ => (writes_readFileMappingSnapshot _).bind fun snapshot =>
    .ofExcept fun _ => .ofExcept fun updated =>
      .ofExcept fun _ => .ofExcept fun _ =>
        (writes_queueDetached fun m _ => hqueue m).bind fun _ => ?_
  dsimp only
  split
  · exact (writes_setInode (hinode _)).bind fun _ =>
      (writes_detachMappings fun m _ => hdel _).bind fun _ => .pure _
  · exact (writes_detachMappings fun m _ => hdel _).bind fun _ =>
      (writes_setInode (hinode _)).bind fun _ => .pure _

theorem writes_prepareReclaim (hinode : W (KvCmd.delInode ino)) (hrefs : W (KvCmd.delChunkRefs ino))
    (horphan : W (KvCmd.hdelOrphan ino)) (hdone : W (KvCmd.hdelReclaim ino))
    (hwork : ∀ work, W (KvCmd.hsetReclaim work)) : Writes W (prepareReclaim cx ino) := by
  refine (writes_findInode ino).bind fun r => ?_
  split
  · exact (writes_write horphan).bind fun _ => .pure _
  · split
    · exact (writes_write horphan).bind fun _ => (writes_write hdone).bind fun _ => .pure _
    · refine Writes.bind ?_ fun ms => .ofExcept fun work =>
        (writes_write hinode).bind fun _ => (writes_write hrefs).bind fun _ =>
          (writes_write horphan).bind fun _ => (writes_write (hwork _)).bind fun _ => .pure _
      unfold reclaimMappings
      split
      · exact (writes_readFileMappingSnapshot _).bind fun _ => .pure _
      · exact .pure _

end

/-! ## attachment を増やさない transaction -/

section

variable {cx : MetaContext} {ino : InodeID}

theorem detaching_setInode (n : SwordFsInode) : Detaching (KvCmd.setInode n) :=
  detaching_of_key fun _ => (by simp)

theorem detaching_hsetPendingDelete (work : PendingDelete) :
    Detaching (KvCmd.hsetPendingDelete work) := detaching_of_key fun _ => (by simp)

theorem detaching_commitSizeChange :
    Writes Detaching (commitSizeChange cx ino plan requested f isShrink) :=
  writes_commitSizeChange detaching_setInode (fun _ => detaching_hsetPendingDelete _)
    fun _ => detaching_hdelChunkRef _ _

theorem detaching_prepareReclaim : Writes Detaching (prepareReclaim cx ino) :=
  writes_prepareReclaim (detaching_of_key fun _ => (by simp)) (detaching_delChunkRefs _)
    (detaching_of_key fun _ => (by simp)) (detaching_of_key fun _ => (by simp))
    fun _ => detaching_of_key fun _ => (by simp)

end

/-! ## 取り付け -/

/-- 増える attachment は、空いている位置 `i` への `id` の取り付けだけ -/
def OnlyAttached (ino : InodeID) (i : Nat) (id : ChunkID) (s₀ s : Redis) : Prop :=
  ∀ j k x, attachedAt s j k = some x → attachedAt s₀ j k = some x ∨
    (j = ino ∧ k = i ∧ x = id ∧ attachedAt s₀ ino i = none)

/-- `AttachPrepared` の書き込みのどれだけが効いても、増える attachment は一つだけ -/
theorem onlyAttached_attachPrepared {id : ChunkID}
    (h : (attachPrepared cx ino i id endOff expected).eval s [] = .ok (u, ws))
    (hsub : ws' ⊆ ws) : OnlyAttached ino i id s (Cmd.applyAll ws' s) := by
  obtain ⟨n, -, hnone, rfl⟩ := attachPrepared_ok.mp h
  suffices hgen : ∀ s', OnlyAttached ino i id s s' →
      OnlyAttached ino i id s (Cmd.applyAll ws' s') from hgen s fun _ _ _ h => .inl h
  clear h
  induction ws' with
  | nil => exact fun s' hs' => hs'
  | cons w ws' ih =>
    intro s' hs'
    obtain ⟨hw, hws'⟩ := List.cons_subset.mp hsub
    rw [Cmd.applyAll_cons]
    refine ih hws' _ fun j k x hx => ?_
    rcases List.mem_cons.mp hw with rfl | hw
    · exact hs' j k x (detaching_setInode _ _ _ _ _ hx)
    · obtain rfl := List.mem_singleton.mp hw
      unfold attachedAt at hx
      rw [KvCmd.hsetChunkRef_apply] at hx
      by_cases hj : j = ino
      · rw [if_pos hj] at hx
        by_cases hk : k = i
        · subst hj hk
          rw [AList.lookup_insert] at hx
          cases hx
          exact .inr ⟨rfl, rfl, rfl, hnone⟩
        · rw [AList.lookup_insert_ne hk] at hx
          exact hs' j k x hx
      · rw [if_neg hj] at hx
        exact hs' j k x hx

end SwordFS.Metadata
