import SwordFS.Metadata.Properties.AttachmentWrites
import SwordFS.Metadata.Properties.NamespaceInvariant

/-!
# namespace の transaction が出す command

回収を除く namespace の transaction は mapping の key に触れず、
消す inode は directory に限られる。回収だけが、名前の無い file の inode と mapping を一緒に消す。
-/

namespace SwordFS.Metadata

open Infra Txn Cmd

/-- namespace の transaction が出す command。`D` は消してよい inode -/
inductive NamespaceCmd (D : InodeID → Prop) : KvCmd → Prop
  | setInode (n : SwordFsInode) : NamespaceCmd D (KvCmd.setInode n)
  | delInode {i : InodeID} (h : D i) : NamespaceCmd D (KvCmd.delInode i)
  | hsetDirectory (i : InodeID) (name : String) (e : SwordFsEntry) :
      NamespaceCmd D (KvCmd.hsetDirectory i name e)
  | hdelDirectory (i : InodeID) (name : String) : NamespaceCmd D (KvCmd.hdelDirectory i name)
  | hsetOrphan (i : InodeID) : NamespaceCmd D (KvCmd.hsetOrphan i)
  | hdelOrphan (i : InodeID) : NamespaceCmd D (KvCmd.hdelOrphan i)
  | incrInodeCount (d : Int) : NamespaceCmd D (KvCmd.incrInodeCount d)

namespace NamespaceCmd

variable {D : InodeID → Prop} {ws : List KvCmd} {s : Redis} {i : InodeID}

theorem applyAll_chunkRefs (h : ∀ w ∈ ws, NamespaceCmd D w) :
    applyAll ws s (.chunkRefs i) = s (.chunkRefs i) := by
  refine applyAll_of_ne (fun w hw => ?_) s
  cases h w hw <;> exact (nomatch ·)

theorem applyAll_inode_none (h : ∀ w ∈ ws, NamespaceCmd D w) (hi : s (.inode i) ≠ none)
    (hgone : applyAll ws s (.inode i) = none) : D i := by
  induction ws generalizing s with
  | nil => exact absurd hgone hi
  | cons w ws ih =>
    obtain ⟨hw, hws⟩ := List.forall_mem_cons.mp h
    rw [applyAll_cons] at hgone
    by_cases hkeep : w.apply s (.inode i) = none
    · cases hw with
      | setInode n =>
        rw [KvCmd.setInode_apply] at hkeep
        split at hkeep
        · cases hkeep
        · exact absurd hkeep hi
      | delInode hd =>
        rw [KvCmd.delInode_apply] at hkeep
        split at hkeep
        · next he => exact he ▸ hd
        · exact absurd hkeep hi
      | hsetDirectory | hdelDirectory | hsetOrphan | hdelOrphan | incrInodeCount =>
        exact absurd (by simpa using hkeep) hi
    · exact ih hws hkeep hgone

end NamespaceCmd

/-! ## 溜める書き込み -/

section

variable {D : InodeID → Prop} {now : Int} {ctx : SwordFsContext} {parentIno ino : InodeID}
  {name : String} {parent child target : SwordFsInode} {r : RenameNames} {p : RenameParents}
  {overwrite : Bool} {steps : Nat}

theorem writes_lookupParent (msg : String) : Writes W (lookupParent ino msg) :=
  (writes_lookupInode _).bind fun _ => .failIf fun _ => .pure _

theorem writes_findEntry : Writes W (findEntry parent name) := by
  refine .failIf fun _ => (writes_read _ _).bind fun dir => ?_
  split
  · exact .pure _
  · refine .ofExcept fun _ => (writes_findInode _).bind fun found => ?_
    split
    · exact .throw _
    · exact .pure _

theorem writes_lookupEntry : Writes W (lookupEntry parent name) := by
  refine writes_findEntry.bind fun found => ?_
  split
  · exact .throw _
  · exact .pure _

theorem writes_ancestorWalk :
    ∀ (steps : Nat) (visited : List InodeID) (c : InodeID),
      Writes W (ancestorWalk a steps visited c)
  | 0, _, _ => .throw _
  | steps + 1, visited, c => by
    unfold ancestorWalk
    split
    · exact .pure _
    split
    · exact .throw _
    split
    · exact .pure _
    refine (writes_lookupInode _).bind fun inode => ?_
    split
    · exact .pure _
    · exact writes_ancestorWalk steps _ _

theorem writes_checkParents (op : String) : Writes W (checkParents op r p) :=
  .failIf fun _ => .failIf fun _ => writes_failIf _ _

theorem writes_checkDestination (steps : Nat) (msg : String) :
    Writes W (checkDestination steps msg child parentIno) := by
  unfold checkDestination
  split
  · exact (writes_ancestorWalk _ _ _).bind fun _ => writes_failIf _ _
  · exact .pure _

theorem writes_putEntry : Writes (NamespaceCmd D) (putEntry parentIno name child) :=
  .failIf fun _ => writes_write (.hsetDirectory ..)

theorem writes_linkEntry : Writes (NamespaceCmd D) (linkEntry now parentIno name child parent) :=
  .failIf fun _ => writes_putEntry.bind fun _ => .pure _

theorem writes_detachEntry :
    Writes (NamespaceCmd D) (detachEntry now parentIno name child parent) :=
  .failIf fun _ => .failIf fun _ =>
    (writes_write (.hdelDirectory ..)).bind fun _ => .pure _

theorem writes_replaceEntry :
    Writes (NamespaceCmd D) (replaceEntry now parentIno name child parent) :=
  .failIf fun _ => writes_putEntry.bind fun _ => .pure _

theorem writes_store : Writes (NamespaceCmd D) p.store := by
  refine (writes_setInode (.setInode _)).bind fun _ => ?_
  split
  · exact .pure _
  · exact writes_setInode (.setInode _)

theorem writes_addEntry : Writes (NamespaceCmd D) (addEntry now parentIno name child parent) := by
  refine .failIf fun _ => .ofExcept fun _ =>
    (writes_read _ _).bind fun dir => ?_
  split
  · refine .ofExcept fun _ => (writes_findInode _).bind fun found => ?_
    split <;> exact .throw _
  · exact (writes_setInode (.setInode _)).bind fun _ => writes_linkEntry.bind fun _ =>
      (writes_setInode (.setInode _)).bind fun _ => writes_write (.incrInodeCount _)

theorem writes_unlinkFile :
    Writes (NamespaceCmd D) (unlinkFile now parentIno name parent child) := by
  refine .failIf fun _ => .failIf fun _ =>
    .ofExcept fun _ => .ofExcept fun _ =>
    .ofExcept fun c => writes_detachEntry.bind fun _ =>
    (writes_setInode (.setInode _)).bind fun _ => (writes_setInode (.setInode _)).bind fun _ => ?_
  refine Writes.bind ?_ fun _ => .pure _
  unfold markOrphan
  split
  · exact writes_write (.hsetOrphan _)
  · exact .pure _

theorem writes_removeDirectory (h : child.isDir = true → D child.ino) :
    Writes (NamespaceCmd D) (removeDirectory now parentIno name parent child) := by
  refine .failIf fun _ => ?_
  by_cases hd : child.isDir = true
  · exact .failIf fun _ => .ofExcept fun _ =>
      .ofExcept fun _ => (writes_read _ _).bind fun _ =>
      .failIf fun _ => writes_detachEntry.bind fun _ =>
      ((writes_write (.delInode (h hd))).bind fun _ => writes_write (.incrInodeCount _)).bind
        fun _ => (writes_setInode (.setInode _)).bind fun _ => .pure _
  · intro s ws x ws' heval
    obtain ⟨_, _, hfail, -⟩ := eval_bind_ok.mp heval
    exact absurd (eval_failIf_ok.mp hfail).1 (by simpa using hd)

theorem writes_linkExistingEntry :
    Writes (NamespaceCmd D) (linkExistingEntry now parentIno name parent child) := by
  refine .failIf fun _ => .failIf fun _ =>
    .failIf fun _ => .ofExcept fun _ =>
    .ofExcept fun _ => writes_findEntry.bind fun found => ?_
  split
  · exact .throw _
  refine writes_linkEntry.bind fun _ => .ofExcept fun _ => Writes.bind ?_ fun _ =>
    (writes_setInode (.setInode _)).bind fun _ => (writes_setInode (.setInode _)).bind fun _ =>
    .pure _
  unfold clearRevived
  split
  · exact writes_write (.hdelOrphan _)
  · exact .pure _

theorem writes_relocate : Writes (NamespaceCmd D) (relocate now r p child) :=
  writes_detachEntry.bind fun _ => writes_linkEntry.bind fun _ =>
    writes_store.bind fun _ => writes_setInode (.setInode _)

theorem writes_moveEntry (h : ∀ t, found = some t → t.isDir = true → D t.ino) :
    Writes (NamespaceCmd D) (moveEntry now steps r p child found overwrite) := by
  refine (writes_checkParents _).bind fun _ => .ofExcept fun _ =>
    .ofExcept fun _ => .ofExcept fun _ =>
    (writes_checkDestination _ _).bind fun _ => ?_
  split
  · exact writes_relocate
  next t =>
    refine .failIf fun _ => ?_
    split
    · exact .pure _
    refine .ofExcept fun _ => .ofExcept fun _ =>
      .failIf fun _ => ?_
    split
    · exact (writes_removeDirectory (h t rfl)).bind fun _ => writes_relocate
    · exact writes_unlinkFile.bind fun _ => writes_relocate

theorem writes_exchangeEntries :
    Writes (NamespaceCmd D) (exchangeEntries now steps r p child target) := by
  refine (writes_checkParents _).bind fun _ => .ofExcept fun _ =>
    .ofExcept fun _ => .ofExcept fun _ =>
    .ofExcept fun _ => ?_
  split
  · exact .pure _
  exact (writes_checkDestination _ _).bind fun _ => (writes_checkDestination _ _).bind fun _ =>
    .ofExcept fun _ => writes_replaceEntry.bind fun _ =>
    writes_replaceEntry.bind fun _ => writes_store.bind fun _ =>
    (writes_setInode (.setInode _)).bind fun _ => writes_setInode (.setInode _)

theorem writes_renameResolved (h : ∀ t, found = some t → t.isDir = true → D t.ino) :
    Writes (NamespaceCmd D) (renameResolved ctx now steps r flags p child found) := by
  refine .failIf fun _ => ?_
  split
  · exact .pure _
  refine .failIf fun _ => ?_
  split
  · split
    · exact .throw _
    · exact writes_exchangeEntries
  · exact writes_moveEntry h

theorem writes_createNode :
    Writes (NamespaceCmd D) (createNode ctx now childIno parentIno name mode rdev) :=
  (writes_lookupParent _).bind fun _ => .ofExcept fun _ =>
    writes_addEntry.bind fun _ => .pure _

end

/-! ## 消える inode と mapping -/

section

variable {s : Redis} {u : Unit} {ws : List KvCmd} {op : NamespaceOp} {y : InodeID}
  {n : SwordFsInode}

def DirInode (s : Redis) (y : InodeID) : Prop := ∃ n, s (.inode y) = some n ∧ n.isDir = true

/-- 回収を除く transaction は、directory の inode しか消さず、mapping に触れない -/
theorem NamespaceOp.writes (hr : Recorded s) (hop : ∀ cx ino, op ≠ .prepareReclaim cx ino)
    (h : op.txn.eval s [] = .ok (u, ws)) : ∀ w ∈ ws, NamespaceCmd (DirInode s) w := by
  have hnil : ∀ w ∈ ([] : List KvCmd), NamespaceCmd (DirInode s) w := List.forall_mem_nil _
  cases op with
  | createNode ctx now childIno parentIno name mode rdev =>
    exact (writes_createNode.bind fun _ => .pure _) s [] u ws h hnil
  | mkDir ctx now childIno parentIno name mode =>
    exact (((writes_ofExcept _).bind fun _ => writes_createNode).bind fun _ => .pure _)
      s [] u ws h hnil
  | symlink ctx now childIno parentIno name target =>
    exact (((writes_ofExcept _).bind fun _ => (writes_lookupParent _).bind fun _ =>
      writes_addEntry.bind fun _ => .pure _).bind fun _ => .pure _) s [] u ws h hnil
  | link now ino newParentIno newName =>
    exact (((writes_ofExcept _).bind fun _ => (writes_lookupInode _).bind fun _ =>
      .failIf fun _ => (writes_lookupParent _).bind fun _ =>
      writes_linkExistingEntry).bind fun _ => .pure _) s [] u ws h hnil
  | unlink ctx now parentIno name expectedIno =>
    exact ((writes_ofExcept _).bind fun _ => .failIf fun _ =>
      (writes_lookupParent _).bind fun _ => writes_lookupEntry.bind fun _ =>
      .failIf fun _ => .failIf fun _ =>
      .failIf fun _ => writes_unlinkFile.bind fun _ => .pure _)
      s [] u ws h hnil
  | rmDir ctx now parentIno name =>
    simp only [txn, Metadata.rmDir, eval_bind_ok, eval_ofExcept_ok, eval_failIf_ok,
      eval_pure_ok] at h
    obtain ⟨-, _, ⟨-, rfl⟩, -, _, ⟨-, rfl⟩, parent, _, hpar, child, _, hchild, -, _, ⟨-, rfl⟩,
      -, _, ⟨-, rfl⟩, p', _, h, -, rfl⟩ := h
    obtain ⟨-, rfl, -, -⟩ := lookupParent_ok hpar
    obtain ⟨-, rfl, -, e, -, hn⟩ := lookupEntry_ok hchild
    refine writes_removeDirectory (fun hd => ?_) s [] p' _ h hnil
    exact ⟨child, by rw [(hr _ _ hn).1]; exact hn, hd⟩
  | rename ctx now steps r flags =>
    simp only [txn, Metadata.rename, eval_bind_ok, eval_ofExcept_ok, eval_failIf_ok] at h
    obtain ⟨-, _, ⟨-, rfl⟩, -, _, ⟨-, rfl⟩, -, _, ⟨-, rfl⟩, -, _, ⟨-, rfl⟩, -, _, ⟨-, rfl⟩, p, _,
      hpar, source, _, hsrc, -, _, ⟨-, rfl⟩, target, _, htgt, h⟩ := h
    obtain ⟨rfl, -⟩ := lookupParents_ok hr hpar
    obtain ⟨-, rfl, -⟩ := lookupEntry_ok hsrc
    obtain ⟨-, rfl, -, hsome, -⟩ := findEntry_ok htgt
    refine writes_renameResolved (fun t ht hd => ?_) s [] u ws h hnil
    obtain ⟨e, -, hn⟩ := hsome t ht
    exact ⟨t, by rw [(hr _ _ hn).1]; exact hn, hd⟩
  | prepareReclaim cx ino => exact absurd rfl (hop cx ino)

/-- 回収が inode を消すときの効果 -/
structure Reclaimed (s s' : Redis) (y : InodeID) (n : SwordFsInode) : Prop where
  inode : s (.inode y) = some n
  isDir : n.isDir = false
  nlink : n.attr.nlink = 0
  gone : s' (.inode y) = none
  mappings : s' (.chunkRefs y) = ∅

/-- 成功した回収は、inode と mapping をそのままにするか、両方を消すかのどちらか -/
theorem prepareReclaim_cases (h : (prepareReclaim cx ino).eval s [] = .ok (w, ws)) :
    (∀ y, applyAll ws s (.inode y) = s (.inode y) ∧
      applyAll ws s (.chunkRefs y) = s (.chunkRefs y)) ∧
      (s (.inode ino) = none ∨ ∃ n, s (.inode ino) = some n ∧
        (n.isDir = true ∨ n.attr.nlink ≠ 0)) ∨
    (∃ n, Reclaimed s (applyAll ws s) ino n) ∧
      ∀ y, y ≠ ino → applyAll ws s (.inode y) = s (.inode y) ∧
        applyAll ws s (.chunkRefs y) = s (.chunkRefs y) := by
  rcases prepareReclaim_ok h with ⟨-, hn, rfl⟩ | ⟨n, -, hn, hl, rfl⟩ |
    ⟨n, ms, -, hn, -, hd, hl, -, -, rfl⟩
  · exact .inl ⟨fun y => ⟨by simp, by simp⟩, .inl hn⟩
  · exact .inl ⟨fun y => ⟨by simp, by simp⟩, .inr ⟨n, hn, hl⟩⟩
  · refine .inr ⟨⟨n, hn, hd, hl, by simp, by simp⟩, fun y hy => ?_⟩
    simp [hy]

/-- 一つの transaction で消える inode は、directory か、回収された file -/
theorem NamespaceOp.inode_gone (hr : Recorded s) (h : op.txn.eval s [] = .ok (u, ws))
    (hn : s (.inode y) = some n) (hgone : applyAll ws s (.inode y) = none) :
    n.isDir = true ∨ n.attr.nlink = 0 := by
  by_cases hop : ∃ cx ino, op = .prepareReclaim cx ino
  · obtain ⟨cx, ino, rfl⟩ := hop
    obtain ⟨_, _, h, h'⟩ := eval_bind_ok.mp h
    obtain ⟨-, rfl⟩ := eval_pure_ok.mp h'
    rcases prepareReclaim_cases h with ⟨hsame, -⟩ | ⟨⟨m, hm⟩, hother⟩
    · rw [(hsame y).1, hn] at hgone
      cases hgone
    · by_cases hy : y = ino
      · subst hy
        obtain rfl : n = m := Option.some.inj (hn.symm.trans hm.inode)
        exact .inr hm.nlink
      · rw [(hother y hy).1, hn] at hgone
        cases hgone
  · have hw := NamespaceOp.writes hr (fun cx ino hc => hop ⟨cx, ino, hc⟩) h
    have hne : s (.inode y) ≠ none := by rw [hn]; exact Option.some_ne_none n
    obtain ⟨m, hm, hd⟩ := NamespaceCmd.applyAll_inode_none hw hne hgone
    obtain rfl : n = m := Option.some.inj (hn.symm.trans hm)
    exact .inl hd

/-- 一つの transaction で変わる mapping は、inode と一緒に消されたもの -/
theorem NamespaceOp.chunkRefs_changed (hr : Recorded s) (h : op.txn.eval s [] = .ok (u, ws))
    (hne : applyAll ws s (.chunkRefs y) ≠ s (.chunkRefs y)) :
    ∃ n, Reclaimed s (applyAll ws s) y n := by
  by_cases hop : ∃ cx ino, op = .prepareReclaim cx ino
  · obtain ⟨cx, ino, rfl⟩ := hop
    obtain ⟨_, _, h, h'⟩ := eval_bind_ok.mp h
    obtain ⟨-, rfl⟩ := eval_pure_ok.mp h'
    rcases prepareReclaim_cases h with ⟨hsame, -⟩ | ⟨hrec, hother⟩
    · exact absurd (hsame y).2 hne
    · by_cases hy : y = ino
      · subst hy
        exact hrec
      · exact absurd (hother y hy).2 hne
  · have hw := NamespaceOp.writes hr (fun cx ino hc => hop ⟨cx, ino, hc⟩) h
    exact absurd (NamespaceCmd.applyAll_chunkRefs hw) hne

end

end SwordFS.Metadata
