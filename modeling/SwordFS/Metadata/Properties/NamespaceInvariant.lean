import SwordFS.Metadata.Properties.RenameTxn

/-!
# namespace の不変条件

format の直後から、namespace の transaction を直列にいくつ commit しても、
entry、link count、orphan の印は互いに整合している。

`namespaceOp_refines` が一つの transaction の仕様であり、run についての帰納法はその上にある。
-/

namespace SwordFS.Metadata

open Infra Txn

/-! ## 操作の列 -/

/-- namespace を変える transaction。引数は任意 -/
inductive NamespaceOp where
  | createNode (ctx : SwordFsContext) (now : Int) (childIno parentIno : InodeID) (name : String)
      (mode : Mode) (rdev : Nat)
  | mkDir (ctx : SwordFsContext) (now : Int) (childIno parentIno : InodeID) (name : String)
      (mode : Mode)
  | symlink (ctx : SwordFsContext) (now : Int) (childIno parentIno : InodeID)
      (name target : String)
  | link (now : Int) (ino newParentIno : InodeID) (newName : String)
  | unlink (ctx : SwordFsContext) (now : Int) (parentIno : InodeID) (name : String)
      (expectedIno : Option InodeID)
  | rmDir (ctx : SwordFsContext) (now : Int) (parentIno : InodeID) (name : String)
  | rename (ctx : SwordFsContext) (now : Int) (steps : Nat) (r : RenameNames) (flags : RenameFlag)
  | prepareReclaim (cx : MetaContext) (ino : InodeID)

namespace NamespaceOp

/-- 操作の transaction。結果のうち成否だけを残す -/
def txn : NamespaceOp → KvTxn Unit
  | .createNode ctx now childIno parentIno name mode rdev => do
    let _ ← Metadata.createNode ctx now childIno parentIno name mode rdev
    pure ()
  | .mkDir ctx now childIno parentIno name mode => do
    let _ ← Metadata.mkDir ctx now childIno parentIno name mode
    pure ()
  | .symlink ctx now childIno parentIno name target => do
    let _ ← Metadata.symlink ctx now childIno parentIno name target
    pure ()
  | .link now ino newParentIno newName => do
    let _ ← Metadata.link now ino newParentIno newName
    pure ()
  | .unlink ctx now parentIno name expectedIno =>
    Metadata.unlink ctx now parentIno name expectedIno
  | .rmDir ctx now parentIno name => Metadata.rmDir ctx now parentIno name
  | .rename ctx now steps r flags => Metadata.rename ctx now steps r flags
  | .prepareReclaim cx ino => do
    let _ ← Metadata.prepareReclaim cx ino
    pure ()

def newIno : NamespaceOp → Option InodeID
  | .createNode _ _ childIno .. => some childIno
  | .mkDir _ _ childIno .. => some childIno
  | .symlink _ _ childIno .. => some childIno
  | _ => none

end NamespaceOp

/-- transaction を順に commit する。失敗した transaction も列に含めてよい -/
def runNamespace (ops : List NamespaceOp) (s : Redis) : Redis :=
  ops.foldl (fun s op => (op.txn.commit s).2) s

/-- 取った番号は二度使われず、root とも重ならない -/
def FreshInodes (ops : List NamespaceOp) : Prop :=
  (ops.filterMap NamespaceOp.newIno).Nodup ∧ kRootInodeId ∉ ops.filterMap NamespaceOp.newIno

/-! ## 一つの transaction -/

variable {s : Redis} {u : Unit} {ws : List KvCmd}

theorem kind_eq_of_fmt {n m : SwordFsInode}
    (h : n.attr.mode &&& sIfmt = m.attr.mode &&& sIfmt) : n.kind = m.kind := by
  simp only [SwordFsInode.kind, modeToDt, h]

theorem nlink_create (now : Int) (mode : Mode) (uid gid : Nat) :
    (SwordFsAttr.create now mode uid gid).nlink = if modeToDt mode = .dir then 2 else 1 := by
  have h := isDir_iff_kind (n := { ino := 0, attr := { mode } })
  simp only [SwordFsInode.isDir, SwordFsInode.kind] at h
  simp only [SwordFsAttr.create, h]

variable {ctx : SwordFsContext} {now : Int} {childIno parentIno ino : InodeID} {name : String}

variable {child : SwordFsInode}

section

variable (hfresh : s (.inode childIno) = none)
include hfresh

theorem createNode_refines {rdev : Nat}
    (h : (createNode ctx now childIno parentIno name mode rdev).eval s [] = .ok (child, ws)) :
    Refines (some childIno) s ws := by
  simp only [createNode, eval_bind_ok, eval_ofExcept_ok, eval_pure_ok] at h
  obtain ⟨parent, _, hpar, c, _, ⟨hacl, rfl⟩, _, _, hadd, -, rfl⟩ := h
  obtain ⟨-, rfl, hp, hd⟩ := lookupParent_ok hpar
  obtain ⟨hci, hcp, hcl, hcm⟩ := applyPosixAclCreateInheritance_ok hacl
  have hk := kind_eq_of_fmt hcm
  obtain rfl : c.ino = childIno := hci
  obtain ⟨heff, hnone, -, hpi⟩ := addEntry_effect hp hfresh hadd
  refine heff.refines (.create rfl (view_node_none hfresh) hnone (view_isDir hp hd) ?_ fun _ => hpi)
  show c.attr.nlink = if c.kind = .dir then 2 else 1
  rw [hcl, hk]
  exact nlink_create now _ ctx.uid (resolveCreateInheritance ctx.gid parent.attr mode).gid

theorem mkDir_refines
    (h : (mkDir ctx now childIno parentIno name mode).eval s [] = .ok (child, ws)) :
    Refines (some childIno) s ws := by
  simp only [mkDir, eval_bind_ok, eval_ofExcept_ok] at h
  obtain ⟨-, _, ⟨-, rfl⟩, h⟩ := h
  exact createNode_refines hfresh h

theorem symlink_refines {link : String}
    (h : (symlink ctx now childIno parentIno name link).eval s [] = .ok (child, ws)) :
    Refines (some childIno) s ws := by
  simp only [symlink, eval_bind_ok, eval_ofExcept_ok, eval_pure_ok] at h
  obtain ⟨-, _, ⟨-, rfl⟩, parent, _, hpar, _, _, hadd, -, rfl⟩ := h
  obtain ⟨-, rfl, hp, hd⟩ := lookupParent_ok hpar
  obtain ⟨heff, hnone, -, hpi⟩ := addEntry_effect hp hfresh hadd
  refine heff.refines (.create rfl (view_node_none hfresh) hnone (view_isDir hp hd) ?_ fun _ => hpi)
  exact nlink_create now _ ctx.uid
    (resolveCreateInheritance ctx.gid parent.attr (sIflnk ||| 0x1FF#32)).gid

end

variable {new : Option InodeID} {steps : Nat}

section

variable (hr : Recorded s)
include hr

theorem link_refines (ht : (view s).Tree)
    (h : (link now ino parentIno name).eval s [] = .ok (linked, ws)) : Refines new s ws := by
  simp only [link, eval_bind_ok, eval_ofExcept_ok, lookupInode_ok, eval_failIf_ok] at h
  obtain ⟨-, _, ⟨-, rfl⟩, n, _, ⟨hn, -, -, rfl⟩, -, _, ⟨-, rfl⟩, parent, _, hpar, h⟩ := h
  obtain ⟨-, rfl, hp, -⟩ := lookupParent_ok hpar
  obtain rfl : n.ino = ino := (hr _ _ hn).1
  obtain ⟨heff, hnd, hd, hnone⟩ := linkExistingEntry_effect ht hp hn h
  refine heff.refines (.link hnone hd (Namespace.shape_of_node (view_node hn)) fun hk => ?_)
  rw [isDir_iff_kind.mpr hk] at hnd
  cases hnd

theorem entry_of_lookup (ht : (view s).Tree) (he : (s (.directory parentIno)).lookup name = some e)
    (hn : s (.inode e.ino) = some n) :
    (view s).entry (parentIno, name) = some (n.kind, n.ino) ∧
      (view s).node n.ino = some (nodeOf n) := by
  have hi := (hr _ _ hn).1
  obtain ⟨m, hm, hmk, -⟩ := ht.inv.target _ _ (view_entry he)
  obtain rfl : nodeOf n = m := Option.some.inj ((view_node hn).symm.trans hm)
  refine ⟨?_, by rw [hi]; exact view_node hn⟩
  have hk : n.kind = e.type := hmk
  rw [view_entry he, hi, hk]

theorem unlink_refines (ht : (view s).Tree)
    (h : (unlink ctx now parentIno name expected).eval s [] = .ok (u, ws)) : Refines new s ws := by
  simp only [unlink, eval_bind_ok, eval_ofExcept_ok, eval_failIf_ok, eval_pure_ok] at h
  obtain ⟨-, _, ⟨-, rfl⟩, -, _, ⟨-, rfl⟩, parent, _, hpar, child, _, hchild, -, _, ⟨-, rfl⟩, -, _,
    ⟨-, rfl⟩, -, _, ⟨-, rfl⟩, _, _, h, -, rfl⟩ := h
  obtain ⟨-, rfl, hp, -⟩ := lookupParent_ok hpar
  obtain ⟨-, rfl, -, e, he, hn⟩ := lookupEntry_ok hchild
  rw [(hr _ _ hp).1] at he
  obtain ⟨hent, hnode⟩ := entry_of_lookup hr ht he hn
  obtain ⟨heff, hnd, -⟩ := unlinkFile_effect ht (view_node hp) hnode hent h
  refine heff.refines (.unlink hent fun hk => ?_)
  rw [isDir_iff_kind.mpr hk] at hnd
  cases hnd

theorem rmDir_refines (ht : (view s).Tree)
    (h : (rmDir ctx now parentIno name).eval s [] = .ok (u, ws)) : Refines new s ws := by
  simp only [rmDir, eval_bind_ok, eval_ofExcept_ok, eval_failIf_ok, eval_pure_ok] at h
  obtain ⟨-, _, ⟨-, rfl⟩, -, _, ⟨-, rfl⟩, parent, _, hpar, child, _, hchild, -, _, ⟨-, rfl⟩, -, _,
    ⟨-, rfl⟩, _, _, h, -, rfl⟩ := h
  obtain ⟨-, rfl, hp, -⟩ := lookupParent_ok hpar
  obtain ⟨-, rfl, -, e, he, hn⟩ := lookupEntry_ok hchild
  rw [(hr _ _ hp).1] at he
  obtain ⟨hent, -⟩ := entry_of_lookup hr ht he hn
  obtain ⟨heff, hd, -, -, hempty⟩ := removeDirectory_effect ht (view_node hp) hent h
  rw [isDir_iff_kind.mp hd] at hent
  exact heff.refines (.rmdir hent hempty)

theorem lookupParents_ok
    (h : (lookupParents r).eval s [] = .ok (p, ws)) : ws = [] ∧ p.Loaded (view s) r := by
  simp only [lookupParents, eval_bind_ok] at h
  obtain ⟨old, _, hold, h⟩ := h
  obtain ⟨-, rfl, hso, -⟩ := lookupParent_ok hold
  split at h
  · next heq =>
    obtain ⟨rfl, rfl⟩ := eval_pure_ok.mp h
    have hi := (hr _ _ hso).1
    exact ⟨rfl, hi, view_node hso, hi.trans heq.symm, heq ▸ view_node hso, iff_of_true rfl heq.symm⟩
  · next hne =>
    simp only [eval_bind_ok, eval_pure_ok] at h
    obtain ⟨new, _, hnew, rfl, rfl⟩ := h
    obtain ⟨-, rfl, hsn, -⟩ := lookupParent_ok hnew
    exact ⟨rfl, (hr _ _ hso).1, view_node hso, (hr _ _ hsn).1, view_node hsn,
      iff_of_false (fun hc => nomatch hc) (Ne.symm hne)⟩

theorem rename_refines (ht : (view s).Tree)
    (h : (rename ctx now steps r flags).eval s [] = .ok (u, ws)) : Refines new s ws := by
  simp only [rename, eval_bind_ok, eval_ofExcept_ok, eval_failIf_ok] at h
  obtain ⟨-, _, ⟨-, rfl⟩, -, _, ⟨-, rfl⟩, -, _, ⟨-, rfl⟩, -, _, ⟨-, rfl⟩, -, _, ⟨-, rfl⟩, p, _, hpar,
    source, _, hsrc, -, _, ⟨-, rfl⟩, target, _, htgt, h⟩ := h
  obtain ⟨rfl, hp⟩ := lookupParents_ok hr hpar
  obtain ⟨-, rfl, -, e, he, hn⟩ := lookupEntry_ok hsrc
  rw [hp.oldIno] at he
  obtain ⟨hent, hnode⟩ := entry_of_lookup hr ht he hn
  obtain ⟨-, rfl, -, hsome, hnone⟩ := findEntry_ok htgt
  rw [hp.newIno] at hsome hnone
  have htg : ∀ t, target = some t → (view s).node t.ino = some (nodeOf t) ∧
      (view s).entry r.newKey = some (t.kind, t.ino) := by
    intro t hti
    obtain ⟨e', he', hn'⟩ := hsome t hti
    exact (entry_of_lookup hr ht he' hn').symm
  simp only [renameResolved, eval_bind_ok, eval_failIf_ok] at h
  obtain ⟨-, _, ⟨-, rfl⟩, h⟩ := h
  split at h
  · obtain ⟨-, rfl⟩ := eval_pure_ok.mp h
    exact refines_nil s
  simp only [eval_bind_ok, eval_failIf_ok] at h
  obtain ⟨-, _, ⟨-, rfl⟩, h⟩ := h
  split at h
  · cases target with
    | none => cases h
    | some t =>
      obtain ⟨hn', he'⟩ := htg t rfl
      exact exchangeEntries_refines hr ht hp hnode hn' hent he' h
  · exact moveEntry_refines hr ht hp hnode hent htg (fun hc => view_entry_none (hnone hc)) h

end

theorem prepareReclaim_refines (ht : (view s).Tree)
    (h : (prepareReclaim cx ino).eval s [] = .ok (w, ws)) : Refines new s ws := by
  -- 印を消しても変わらない場合
  have hclear : (view s).orphan ino = false → (view s).setOrphan ino false = view s := by
    intro ho
    ext1
    · rfl
    · rfl
    · rw [Namespace.setOrphan_orphan, ← ho, Function.update_eq_self]
  rcases prepareReclaim_ok h with ⟨-, hn, rfl⟩ | ⟨n, -, hn, hl, rfl⟩ | ⟨n, ms, -, hn, -, hd, hl, -, -, rfl⟩
  · have ho : (view s).orphan ino = false := by
      rw [← Bool.not_eq_true]
      intro ho
      obtain ⟨m, hm, -⟩ := ht.inv.orphanExists ino ho
      cases (view_node_none hn).symm.trans hm
    refine ⟨?_, by simpa using keepsRecord_of_key (by simp)⟩
    rw [Cmd.applyAll_cons, Cmd.applyAll_nil, view_hdelOrphan, hclear ho]
  · have ho : (view s).orphan ino = false := by
      rw [← Bool.not_eq_true]
      intro ho
      obtain ⟨m, hm, hmk⟩ := ht.inv.orphanExists ino ho
      obtain rfl : nodeOf n = m := Option.some.inj ((view_node hn).symm.trans hm)
      rcases hl with hl | hl
      · exact hmk (isDir_iff_kind.mp hl)
      · exact hl ((ht.inv.orphans _ _ hm hmk).mp ho)
    refine ⟨?_, ?_⟩
    · rw [Cmd.applyAll_cons, Cmd.applyAll_cons, Cmd.applyAll_nil, view_hdelReclaim, view_hdelOrphan,
        hclear ho]
    · simp only [List.forall_mem_cons]
      exact ⟨keepsRecord_of_key (by simp), keepsRecord_of_key (by simp), by simp⟩
  · have hk : (nodeOf n).kind ≠ .dir := fun hc => by
      rw [isDir_iff_kind.mpr hc] at hd
      cases hd
    have heff : Effect s [KvCmd.delInode ino, KvCmd.delChunkRefs ino, KvCmd.hdelOrphan ino,
        KvCmd.hsetReclaim ⟨ino, ms⟩] ((view s).forget ino) := by
      refine ⟨?_, ?_⟩
      · simp only [Cmd.applyAll_cons, Cmd.applyAll_nil, view_hsetReclaim, view_hdelOrphan,
          view_delChunkRefs, view_delInode]
        rfl
      · simp only [List.forall_mem_cons]
        exact ⟨keepsRecord_delInode _, keepsRecord_of_key (by simp), keepsRecord_of_key (by simp),
          keepsRecord_of_key (by simp), by simp⟩
    exact heff.refines (.reclaim (view_node hn) hk hl)

theorem namespaceOp_refines {op : NamespaceOp} (hr : Recorded s) (ht : (view s).Tree)
    (hfresh : ∀ i, op.newIno = some i → s (.inode i) = none)
    (h : op.txn.eval s [] = .ok (u, ws)) : Refines op.newIno s ws := by
  cases op with
  | createNode ctx now childIno parentIno name mode rdev =>
    obtain ⟨_, _, h, h'⟩ := eval_bind_ok.mp h
    obtain ⟨-, rfl⟩ := eval_pure_ok.mp h'
    exact createNode_refines (hfresh _ rfl) h
  | mkDir ctx now childIno parentIno name mode =>
    obtain ⟨_, _, h, h'⟩ := eval_bind_ok.mp h
    obtain ⟨-, rfl⟩ := eval_pure_ok.mp h'
    exact mkDir_refines (hfresh _ rfl) h
  | symlink ctx now childIno parentIno name target =>
    obtain ⟨_, _, h, h'⟩ := eval_bind_ok.mp h
    obtain ⟨-, rfl⟩ := eval_pure_ok.mp h'
    exact symlink_refines (hfresh _ rfl) h
  | link now ino newParentIno newName =>
    obtain ⟨_, _, h, h'⟩ := eval_bind_ok.mp h
    obtain ⟨-, rfl⟩ := eval_pure_ok.mp h'
    exact link_refines hr ht h
  | unlink ctx now parentIno name expectedIno => exact unlink_refines hr ht h
  | rmDir ctx now parentIno name => exact rmDir_refines hr ht h
  | rename ctx now steps r flags => exact rename_refines hr ht h
  | prepareReclaim cx ino =>
    obtain ⟨_, _, h, h'⟩ := eval_bind_ok.mp h
    obtain ⟨-, rfl⟩ := eval_pure_ok.mp h'
    exact prepareReclaim_refines ht h

/-! ## run -/

/-- namespace の run が保つ条件 -/
structure NamespaceOk (s : Redis) : Prop where
  recorded : Recorded s
  tree : (view s).Tree

theorem nodeOf_rootInode (now : Int) (uid gid : Nat) :
    nodeOf (rootInode now uid gid) = ⟨.dir, 2, kRootInodeId⟩ := by
  have hk : modeToDt (sIfdir ||| 0x1ED#32) = .dir := by decide
  have hl := nlink_create now (sIfdir ||| 0x1ED#32) uid gid
  rw [if_pos hk] at hl
  simp only [nodeOf, SwordFsInode.kind, rootInode, hl]
  simp only [SwordFsAttr.create, hk]

theorem view_formattedStore (now : Int) (uid gid : Nat) :
    view (formattedStore now uid gid) =
      { node := fun i => if i = kRootInodeId then some ⟨.dir, 2, kRootInodeId⟩ else none,
        entry := fun _ => none, orphan := fun _ => false } := by
  ext1
  · funext i
    simp only [view, formattedStore]
    split
    · rw [Option.map_some, nodeOf_rootInode]
    · rfl
  · rfl
  · rfl

theorem namespaceOk_formattedStore (now : Int) (uid gid : Nat) :
    NamespaceOk (formattedStore now uid gid) := by
  have hroot : ∀ i n, (view (formattedStore now uid gid)).node i = some n →
      i = kRootInodeId ∧ n = ⟨.dir, 2, kRootInodeId⟩ := by
    intro i n h
    rw [view_formattedStore] at h
    dsimp only at h
    split at h
    · next hi => exact ⟨hi, (Option.some.inj h).symm⟩
    · cases h
  have hentry : (view (formattedStore now uid gid)).entry = fun _ => none := rfl
  refine ⟨fun i n h => ?_, ⟨?_, fun j hj => ?_⟩⟩
  · obtain ⟨rfl, -⟩ := hroot i (nodeOf n) (view_node h)
    cases h
    exact ⟨rfl, by decide⟩
  · refine ⟨fun k e h => (nomatch h), fun k e h => (nomatch h), fun i n h => ?_,
      fun i n h _ => ?_, fun i n h hk => ?_, fun i h => (nomatch h),
      ⟨⟨.dir, 2, kRootInodeId⟩, by rw [view_formattedStore]; rfl, rfl, rfl⟩⟩
    · obtain ⟨rfl, rfl⟩ := hroot i n h
      simp [Namespace.links, fiber, hentry, Namespace.wanted]
    · obtain ⟨rfl, rfl⟩ := hroot i n h
      simp [Namespace.subdirs, fiber, hentry]
    · obtain ⟨rfl, rfl⟩ := hroot i n h
      exact absurd rfl hk
  · obtain ⟨q, hq⟩ := hj
    obtain ⟨n, hn, -⟩ := Namespace.node_of_shape hq
    obtain ⟨rfl, -⟩ := hroot j n hn
    exact .root

/-- 一つの transaction は条件を保ち、取った番号のほかに inode を増やさない -/
theorem NamespaceOk.commit {op : NamespaceOp} (h : NamespaceOk s)
    (hfresh : ∀ i, op.newIno = some i → s (.inode i) = none) :
    NamespaceOk (op.txn.commit s).2 ∧
      ∀ i, (op.txn.commit s).2 (.inode i) ≠ none → s (.inode i) ≠ none ∨ op.newIno = some i := by
  refine commit_inv (I := fun s' => NamespaceOk s' ∧
    ∀ i, s' (.inode i) ≠ none → s (.inode i) ≠ none ∨ op.newIno = some i)
    ⟨h, fun i hi => .inl hi⟩ fun u ws heval => ?_
  have href := namespaceOp_refines h.recorded h.tree hfresh heval
  refine ⟨⟨recorded_applyAll href.keeps h.recorded, href.steps.tree h.tree⟩, fun i hi => ?_⟩
  have hshape : ∀ s : Redis, (view s).shape i ≠ none ↔ s (.inode i) ≠ none := by
    simp [Namespace.shape, view]
  rw [← hshape] at hi ⊢
  exact href.steps.shape_ne_none hi

theorem namespaceOk_run {ops : List NamespaceOp} (h : NamespaceOk s)
    (hnd : (ops.filterMap NamespaceOp.newIno).Nodup)
    (hfresh : ∀ i ∈ ops.filterMap NamespaceOp.newIno, s (.inode i) = none) :
    NamespaceOk (runNamespace ops s) := by
  -- まだ使っていない番号は store にない
  induction ops generalizing s with
  | nil => exact h
  | cons op ops ih =>
    have hop : ∀ i, op.newIno = some i → s (.inode i) = none := fun i hi =>
      hfresh i (List.mem_filterMap.mpr ⟨op, List.mem_cons_self, hi⟩)
    obtain ⟨hok, hnew⟩ := h.commit hop
    refine ih hok (hnd.sublist ((List.sublist_cons_self op ops).filterMap _)) fun i hi => ?_
    by_contra hc
    rcases hnew i hc with hs | hs
    · obtain ⟨a, ha, hai⟩ := List.mem_filterMap.mp hi
      exact hs (hfresh i (List.mem_filterMap.mpr ⟨a, List.mem_cons_of_mem _ ha, hai⟩))
    · rw [List.filterMap_cons_some hs, List.nodup_cons] at hnd
      exact hnd.1 hi

/-! ## store の整合性 -/

def entriesOf (s : Redis) (i : InodeID) : Set (InodeID × String) :=
  {k | ∃ e, (s (.directory k.1)).lookup k.2 = some e ∧ e.ino = i}

def subdirectories (s : Redis) (d : InodeID) : Set String :=
  {name | ∃ e, (s (.directory d)).lookup name = some e ∧ e.type = .dir}

/-- entry、link count、orphan の印の整合性 -/
structure NamespaceWf (s : Redis) : Prop where
  /-- entry は、記録された種別の inode を指す -/
  entry : ∀ d name e, (s (.directory d)).lookup name = some e →
    ∃ n, s (.inode e.ino) = some n ∧ modeToDt n.attr.mode = e.type
  /-- root 以外の directory は、親の中にただ一つの entry を持つ -/
  directory : ∀ i n, s (.inode i) = some n → modeToDt n.attr.mode = .dir → i ≠ kRootInodeId →
    ∃ name, entriesOf s i = {(n.parentIno, name)}
  dirNlink : ∀ i n, s (.inode i) = some n → modeToDt n.attr.mode = .dir →
    (n.attr.nlink : ℕ∞) = 2 + (subdirectories s i).encard
  fileNlink : ∀ i n, s (.inode i) = some n → modeToDt n.attr.mode ≠ .dir →
    (n.attr.nlink : ℕ∞) = (entriesOf s i).encard
  orphan : ∀ i n, s (.inode i) = some n → modeToDt n.attr.mode ≠ .dir →
    (((s .orphans).lookup i).isSome ↔ n.attr.nlink = 0)

theorem entriesOf_eq (s : Redis) (i : InodeID) : entriesOf s i = (view s).links i := by
  ext k
  simp [entriesOf, Namespace.links, fiber, view]

theorem encard_subdirectories (s : Redis) (d : InodeID) :
    (subdirectories s d).encard = ((view s).subdirs d).encard := by
  have himage : (view s).subdirs d = Prod.mk d '' subdirectories s d := by
    ext ⟨p, name⟩
    simp only [Namespace.subdirs, fiber, view, subdirectories]
    constructor
    · rintro ⟨e, he, rfl, hd⟩
      obtain ⟨e', he', rfl⟩ := Option.map_eq_some_iff.mp he
      exact ⟨name, ⟨e', he', hd⟩, rfl⟩
    · rintro ⟨x, ⟨e, he, hd⟩, hx⟩
      cases hx
      exact ⟨_, Option.map_eq_some_iff.mpr ⟨e, he, rfl⟩, rfl, hd⟩
  rw [himage, (Prod.mk_right_injective d).encard_image]

theorem NamespaceOk.wf (h : NamespaceOk s) : NamespaceWf s := by
  have hinv := h.tree.inv
  refine ⟨fun d name e he => ?_, fun i n hn hd hr => ?_, fun i n hn hd => ?_, fun i n hn hd => ?_,
    fun i n hn hd => hinv.orphans i (nodeOf n) (view_node hn) hd⟩
  · obtain ⟨m, hm, hk, -⟩ := hinv.target (d, name) _ (view_entry he)
    obtain ⟨n, hn, rfl⟩ := Option.map_eq_some_iff.mp hm
    exact ⟨n, hn, hk⟩
  · have hshape := Namespace.shape_of_node (view_node hn)
    rw [show (nodeOf n).kind = .dir from hd] at hshape
    obtain ⟨name, hl, -⟩ := hinv.links_dir hshape hr
    exact ⟨name, (entriesOf_eq s i).trans hl⟩
  · rw [encard_subdirectories]
    exact hinv.dirLinks i (nodeOf n) (view_node hn) hd
  · have hc := hinv.counted i (nodeOf n) (view_node hn)
    have hk : (nodeOf n).kind ≠ .dir := hd
    rw [Namespace.wanted, if_neg hk, List.count_nil, Nat.cast_zero, add_zero] at hc
    rw [entriesOf_eq, hc]
    rfl

/-- format の直後から namespace の transaction を直列に commit して得られる store は整合しており、
失敗した transaction は store を変えない -/
theorem namespace_wellformed (now : Int) (uid gid : Nat) (ops : List NamespaceOp)
    (h : FreshInodes ops) :
    NamespaceWf (runNamespace ops (formattedStore now uid gid)) ∧
      ∀ (op : NamespaceOp) (s : Redis) e,
        (op.txn.commit s).1 = .error e → (op.txn.commit s).2 = s := by
  refine ⟨(namespaceOk_run (namespaceOk_formattedStore now uid gid) h.1 fun i hi => ?_).wf,
    fun op s e he => commit_error he⟩
  have hne : i ≠ kRootInodeId := fun hc => h.2 (hc ▸ hi)
  exact if_neg hne

/-- directory と file を作り、file をその directory へ移して消す run -/
def sampleOps : List NamespaceOp :=
  [.createNode ⟨0, 0, 0⟩ 1 2 kRootInodeId "dir" (sIfdir ||| 0x1ED#32) 0,
    .createNode ⟨0, 0, 0⟩ 2 3 kRootInodeId "file" (sIfreg ||| 0x1A4#32) 0,
    .rename ⟨0, 0, 0⟩ 3 8 ⟨kRootInodeId, "file", 2, "moved"⟩ {},
    .unlink ⟨0, 0, 0⟩ 4 2 "moved" none]

theorem namespace_wellformed_sample :
    ((runNamespace sampleOps (formattedStore 0 0 0)) (.orphans)).lookup 3 = some () ∧
      NamespaceWf (runNamespace sampleOps (formattedStore 0 0 0)) :=
  ⟨by decide +kernel, (namespace_wellformed 0 0 0 sampleOps ⟨by decide, by decide⟩).1⟩

end SwordFS.Metadata
