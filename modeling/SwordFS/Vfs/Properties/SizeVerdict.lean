import SwordFS.Metadata.Properties.FileInvariant
import SwordFS.Vfs.FileReadWriter

/-!
# 大きさの変更の判定

大きさの変更の EXEC は、command の一部だけが効いて終わることがある。
読み返した EOF と mapping を元の配置と変更後の配置に照らす判定は、
どの一部が効いていても正しい。
-/

namespace SwordFS.Vfs

open Infra Metadata Chunk

/-! ## 途中の store -/

def SameFile (ino : InodeID) (s s' : Redis) : Prop :=
  s' (.inode ino) = s (.inode ino) ∧ SameMappings s s' ino

/-- 大きさの変更が外す位置の配置。縮小は新しい EOF、拡大は古い EOF の外を外す -/
def detachLayout (chunkSize oldSize newSize : Nat) (shrinking : Bool) : ChunkSizeLayout :=
  chunkSizeLayout (if shrinking then newSize else oldSize) chunkSize

/-- EOF が `target` になり、`l` の外の mapping がすべて外れた -/
def SizeCommitted (ino : InodeID) (l : ChunkSizeLayout) (target : Nat) (s s' : Redis) : Prop :=
  eofOf s' ino = some target ∧
    ∀ i, attachedAt s' ino i = if l.shouldDetach i then none else attachedAt s ino i

/-- 変更の command の一部だけが効いた -/
structure Between (ino : InodeID) (l : ChunkSizeLayout) (target : Nat) (s s' : Redis) : Prop where
  inode : s' (.inode ino) = s (.inode ino) ∨ eofOf s' ino = some target
  mapping : ∀ i, attachedAt s' ino i = attachedAt s ino i ∨
    l.shouldDetach i = true ∧ attachedAt s' ino i = none

variable {cx : MetaContext} {ino : InodeID} {l : ChunkSizeLayout} {target : Nat} {s s' : Redis}
  {detached : List ChunkMapping}

theorem SameFile.refl (ino : InodeID) (s : Redis) : SameFile ino s s := ⟨rfl, fun _ => rfl⟩

theorem SameFile.between (h : SameFile ino s s') : Between ino l target s s' :=
  ⟨.inl h.1, fun i => .inl (h.2 i)⟩

theorem SizeCommitted.between (h : SizeCommitted ino l target s s') :
    Between ino l target s s' := by
  refine ⟨.inr h.1, fun i => ?_⟩
  rw [h.2 i]
  split
  · next hd => exact .inr ⟨hd, rfl⟩
  · exact .inl rfl

theorem Between.apply (h : Between ino l target s s') (hino : updated.ino = ino)
    (hsize : updated.attr.size = target) (hdet : ∀ m ∈ detached, l.shouldDetach m.index = true)
    (hc : c ∈ sizeChangeWrites cx ino updated detached isShrink) :
    Between ino l target s (c.apply s') := by
  have hcases : c = KvCmd.setInode updated ∨ (∃ m ∈ detached, c = KvCmd.hdelChunkRef ino m.index) ∨
      ∃ w, c = KvCmd.hsetPendingDelete w := by
    cases isShrink <;>
    · simp only [sizeChangeWrites, if_true, Bool.false_eq_true, if_false, List.mem_append,
        List.mem_cons, List.mem_map, List.not_mem_nil, or_false] at hc
      grind
  rcases hcases with rfl | ⟨m, hm, rfl⟩ | ⟨w, rfl⟩
  · refine ⟨.inr ?_, fun i => ?_⟩
    · simp [eofOf, hino, hsize]
    · simpa [attachedAt] using h.mapping i
  · refine ⟨?_, fun i => ?_⟩
    · simpa [eofOf] using h.inode
    · by_cases hi : i = m.index
      · subst hi
        exact .inr ⟨hdet m hm, by simp [attachedAt]⟩
      · simpa [attachedAt, AList.lookup_erase_ne hi] using h.mapping i
  · exact ⟨by simpa [eofOf] using h.inode, fun i => by simpa [attachedAt] using h.mapping i⟩

theorem between_applyAll (hino : updated.ino = ino) (hsize : updated.attr.size = target)
    (hdet : ∀ m ∈ detached, l.shouldDetach m.index = true)
    (hws : ∀ c ∈ ws, c ∈ sizeChangeWrites cx ino updated detached isShrink)
    (h : Between ino l target s s') : Between ino l target s (Cmd.applyAll ws s') := by
  induction ws generalizing s' with
  | nil => exact h
  | cons c ws ih =>
    obtain ⟨hc, hws⟩ := List.forall_mem_cons.mp hws
    exact ih hws (h.apply hino hsize hdet hc)

/-! ## transaction の後に残る store -/

variable {plan : ChunkSizePlan} {requested : SwordFsAttr} {f : SetAttrField} {shrinking : Bool}
  {r : ChunkSizeCommitResult} {ws : List KvCmd}

theorem sizeCommitTxn_eq :
    sizeCommitTxn cx ino plan shrinking requested f =
      commitSizeChange cx ino plan requested f shrinking := by
  cases shrinking <;> rfl

theorem sizeCommitTxn_ok (hrec : ∀ n, s (.inode ino) = some n → n.ino = ino)
    (h : (sizeCommitTxn cx ino plan shrinking requested f).eval s [] = .ok (r, ws)) :
    ∃ n, s (.inode ino) = some n ∧ r.inode.ino = ino ∧ r.inode.attr.size = plan.targetEof ∧
      r.detached = ((fileMappings s ino).filter fun m =>
        (detachLayout cx.chunkSize n.attr.size plan.targetEof shrinking).shouldDetach m.index) ∧
      ws = sizeChangeWrites cx ino r.inode r.detached shrinking := by
  rw [sizeCommitTxn_eq] at h
  have h0 : ino ≠ 0 := by
    simp only [commitSizeChange, Txn.eval_bind_ok, readFileMappingSnapshot_ok] at h
    obtain ⟨-, _, -, snap, _, ⟨hn, hn0, -⟩, -⟩ := h
    exact hrec _ hn ▸ hn0
  obtain ⟨hf, hreq, n, current, hn, -, -, -, -, hset, hdet, -, hws⟩ :=
    (commitSizeChange_ok h0).mp h
  obtain ⟨-, hino, -, hsize, -⟩ := prepareSetAttrMutation_ok hset
  refine ⟨n, hn, hino.trans (hrec n hn), by rw [hsize, if_pos hf, hreq], ?_, hws⟩
  rw [hdet]
  cases shrinking <;> rfl

variable {n : SwordFsInode}

theorem tornCommit_between (cx : MetaContext) (plan : ChunkSizePlan) (shrinking : Bool)
    (requested : SwordFsAttr) (f : SetAttrField) (took : List Bool)
    (hrec : ∀ n, s (.inode ino) = some n → n.ino = ino) (hn : s (.inode ino) = some n) :
    Between ino (detachLayout cx.chunkSize n.attr.size plan.targetEof shrinking) plan.targetEof s
      (tornCommit (sizeCommitTxn cx ino plan shrinking requested f) took s) := by
  unfold tornCommit
  split
  · exact (SameFile.refl ino s).between
  · next r ws h =>
    obtain ⟨n', hn', hino, hsize, hdet, rfl⟩ := sizeCommitTxn_ok hrec h
    rw [hn] at hn'
    cases hn'
    have hmem : ∀ c ∈ tookEffect took (sizeChangeWrites cx ino r.inode r.detached shrinking),
        c ∈ sizeChangeWrites cx ino r.inode r.detached shrinking := by
      intro c hc
      obtain ⟨p, hp, rfl⟩ := List.mem_map.mp hc
      exact (List.of_mem_zip (List.mem_filter.mp hp).1).1
    refine between_applyAll hino hsize (fun m hm => ?_) hmem (SameFile.refl ino s).between
    rw [hdet] at hm
    exact (List.mem_filter.mp hm).2

theorem sizeCommitTxn_committed (hrec : ∀ n, s (.inode ino) = some n → n.ino = ino)
    (hn : s (.inode ino) = some n)
    (h : (sizeCommitTxn cx ino plan shrinking requested f).eval s [] = .ok (r, ws)) :
    SizeCommitted ino (detachLayout cx.chunkSize n.attr.size plan.targetEof shrinking)
      plan.targetEof s (Cmd.applyAll ws s) ∧ r.inode.attr.size = plan.targetEof := by
  obtain ⟨n', hn', hino, hsize, hdet, rfl⟩ := sizeCommitTxn_ok hrec h
  rw [hn] at hn'
  cases hn'
  refine ⟨⟨?_, fun i => ?_⟩, hsize⟩
  · rw [eofOf, sizeChange_inode, if_pos hino.symm, Option.map_some, hsize]
  · rw [sizeChange_attachedAt, hdet]
    by_cases hd : (detachLayout cx.chunkSize n.attr.size plan.targetEof shrinking).shouldDetach i
    · rw [if_pos hd]
      -- 外す位置に mapping が無ければ、もともと `none` である
      split
      · rfl
      · next hi =>
        cases ha : attachedAt s ino i with
        | none => rfl
        | some c =>
          exact absurd (List.mem_map.mpr ⟨⟨i, c⟩, List.mem_filter.mpr
            ⟨mem_fileMappings.mpr ha, hd⟩, rfl⟩) hi
    · rw [if_neg hd, if_neg]
      rintro hi
      obtain ⟨m, hm, rfl⟩ := List.mem_map.mp hi
      exact hd (List.mem_filter.mp hm).2

/-- 一度実行された transaction は、変更をすべて済ませるか、何もしない -/
theorem sizeCommitTxn_commit (cx : MetaContext) (plan : ChunkSizePlan) (shrinking : Bool)
    (requested : SwordFsAttr) (f : SetAttrField) (hrec : ∀ n, s (.inode ino) = some n → n.ino = ino)
    (hn : s (.inode ino) = some n) :
    ((sizeCommitTxn cx ino plan shrinking requested f).commit s).2 = s ∧
        (∃ e, ((sizeCommitTxn cx ino plan shrinking requested f).commit s).1 = .error e) ∨
      ∃ r, ((sizeCommitTxn cx ino plan shrinking requested f).commit s).1 = .ok r ∧
        r.inode.attr.size = plan.targetEof ∧
        SizeCommitted ino (detachLayout cx.chunkSize n.attr.size plan.targetEof shrinking)
          plan.targetEof s ((sizeCommitTxn cx ino plan shrinking requested f).commit s).2 := by
  cases hc : (sizeCommitTxn cx ino plan shrinking requested f).commit s with
  | mk res s₁ =>
    cases res with
    | error e => exact .inl ⟨by simpa [hc] using Txn.commit_error (congrArg Prod.fst hc), e, rfl⟩
    | ok r =>
      obtain ⟨ws, heval, rfl⟩ := Txn.commit_ok_iff.mp hc
      obtain ⟨hcommitted, hsize⟩ := sizeCommitTxn_committed hrec hn heval
      exact .inr ⟨r, rfl, hsize, hcommitted⟩

/-! ## 判定の健全性 -/

theorem sameMappings_of_fileMappings (h : fileMappings s' ino = fileMappings s ino) :
    SameMappings s s' ino := fun i => by
  rw [← findChunkID_fileMappings, h, findChunkID_fileMappings]

section

variable {before observed : FileMappingSnapshot}

section

variable (hb : before.mappings = fileMappings s ino) (ho : observed.mappings = fileMappings s' ino)
  (hn' : s' (.inode ino) = some observed.inode)
include hb ho hn'

/-- 元のままという判定が下るのは、EOF と mapping がどちらも元のままのとき -/
theorem sizeCommitVerdict_unchanged (hne : plan.targetEof ≠ before.inode.attr.size)
    (h : Between ino l plan.targetEof s s')
    (hv : sizeCommitVerdict cx before plan shrinking observed = .unchanged) :
    SameFile ino s s' := by
  simp only [sizeCommitVerdict] at hv
  split at hv
  · cases hv
  · split at hv
    · cases hv
    · split at hv
      · next hu =>
        refine ⟨?_, sameMappings_of_fileMappings (by rw [← ho, ← hb]; exact hu.2)⟩
        -- EOF が元のままなら、inode の SET は効いていない
        rcases h.inode with hi | hi
        · exact hi
        · rw [eofOf, hn', Option.map_some, hu.1] at hi
          exact absurd (Option.some.inj hi).symm hne
      · cases hv

/-- 済んでいるという判定が下るのは、EOF と mapping がどちらも変更後のものに揃ったとき -/
theorem sizeCommitVerdict_committed
    (hv : sizeCommitVerdict cx before plan shrinking observed = .committed) :
    SizeCommitted ino (detachLayout cx.chunkSize before.inode.attr.size plan.targetEof shrinking)
      plan.targetEof s s' ∧ observed.inode.attr.size = plan.targetEof := by
  simp only [sizeCommitVerdict] at hv
  split at hv
  · cases hv
  · next layout hl =>
    have hlayout : layout = detachLayout cx.chunkSize before.inode.attr.size plan.targetEof
        shrinking := (planChunkSizeLayout_ok_iff.mp hl).2.2
    subst hlayout
    split at hv
    · next hc =>
      refine ⟨⟨by rw [eofOf, hn', Option.map_some, hc.1], fun i => Option.ext fun id => ?_⟩, hc.1⟩
      have hmem : attachedAt s' ino i = some id ↔ (⟨i, id⟩ : ChunkMapping) ∈ fileMappings s' ino :=
        (mem_fileMappings (m := ⟨i, id⟩)).symm
      rw [hmem, ← ho, hc.2, hb, List.mem_filter, mem_fileMappings]
      split
      · next hd => simp [hd]
      · next hd => simp [hd]
    · split at hv <;> cases hv

end

end

end SwordFS.Vfs
