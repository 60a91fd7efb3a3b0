import SwordFS.Metadata.Properties.NamespaceView

/-!
# directory の transaction の仕様

成功した transaction が溜めた書き込みを、`view` の上の操作として読み直す。
-/

namespace SwordFS.Metadata

open Infra Function Txn Namespace Cmd

variable {s : Redis} {now : Int} {parentIno ino : InodeID} {name : String}
  {n parent child target p' : SwordFsInode} {u : Unit} {ws ws' : List KvCmd}

/-! ## 読み -/

theorem findEntry_ok (h : (findEntry parent name).eval s ws = .ok (r, ws')) :
    ws = [] ∧ ws' = [] ∧ parent.isDir = true ∧
      (∀ n, r = some n → ∃ e, (s (.directory parent.ino)).lookup name = some e ∧
        s (.inode e.ino) = some n) ∧
      (r = none → (s (.directory parent.ino)).lookup name = none) := by
  simp only [findEntry, eval_bind_ok, eval_failIf_ok, KvTxn.getDirectory_ok] at h
  obtain ⟨-, _, ⟨hd, rfl⟩, dir, _, ⟨rfl, rfl, rfl⟩, h⟩ := h
  have hd : parent.isDir = true := by simpa using hd
  split at h
  · next hl =>
    obtain ⟨rfl, rfl⟩ := eval_pure_ok.mp h
    exact ⟨rfl, rfl, hd, fun _ h => (by cases h), fun _ => hl⟩
  · next e hl =>
    simp only [eval_bind_ok, eval_ofExcept_ok, findInode_ok] at h
    obtain ⟨-, _, ⟨-, rfl⟩, r', _, ⟨rfl, -, -, rfl⟩, h⟩ := h
    split at h
    · cases h
    · next m hm =>
      obtain ⟨rfl, rfl⟩ := eval_pure_ok.mp h
      exact ⟨rfl, rfl, hd, fun n hn => by cases hn; exact ⟨e, hl, hm⟩, fun h => by cases h⟩

theorem lookupEntry_ok (h : (lookupEntry parent name).eval s ws = .ok (n, ws')) :
    ws = [] ∧ ws' = [] ∧ parent.isDir = true ∧
      ∃ e, (s (.directory parent.ino)).lookup name = some e ∧ s (.inode e.ino) = some n := by
  simp only [lookupEntry, eval_bind_ok] at h
  obtain ⟨r, _, hr, h⟩ := h
  obtain ⟨rfl, rfl, hd, hsome, -⟩ := findEntry_ok hr
  split at h
  · cases h
  · next m =>
    obtain ⟨rfl, rfl⟩ := eval_pure_ok.mp h
    exact ⟨rfl, rfl, hd, hsome n rfl⟩

theorem lookupParent_ok (h : (lookupParent ino msg).eval s ws = .ok (n, ws')) :
    ws = [] ∧ ws' = [] ∧ s (.inode ino) = some n ∧ n.isDir = true := by
  simp only [lookupParent, eval_bind_ok, lookupInode_ok, eval_failIf_ok, eval_pure_ok] at h
  obtain ⟨m, _, ⟨hm, -, rfl, rfl⟩, -, _, ⟨hd, rfl⟩, rfl, rfl⟩ := h
  exact ⟨rfl, rfl, hm, by simpa using hd⟩

/-! ## entry の付け外し -/

@[simp] theorem nodeOf_kind : (nodeOf n).kind = n.kind := rfl
@[simp] theorem nodeOf_touch (f : SetAttrField) : nodeOf (n.touch now f) = nodeOf n := rfl
@[simp] theorem nodeOf_touchEntry : nodeOf (touchEntry now n) = nodeOf n := rfl
@[simp] theorem nodeOf_withNlink (l : Nat) :
    nodeOf (withNlink n l) = { nodeOf n with nlink := l } := rfl
@[simp] theorem touchEntry_ino : (touchEntry now n).ino = n.ino := rfl
@[simp] theorem withNlink_ino (l : Nat) : (withNlink n l).ino = n.ino := rfl

def detached (now : Int) (target parent : SwordFsInode) : SwordFsInode :=
  touchEntry now (if target.isDir then withNlink parent (parent.attr.nlink - 1) else parent)

def linkedTo (now : Int) (child parent : SwordFsInode) : SwordFsInode :=
  touchEntry now (if child.isDir then withNlink parent (parent.attr.nlink + 1) else parent)

@[simp] theorem detached_ino : (detached now target parent).ino = parent.ino := by
  unfold detached; split <;> rfl
@[simp] theorem linkedTo_ino : (linkedTo now child parent).ino = parent.ino := by
  unfold linkedTo; split <;> rfl

theorem nodeOf_detached :
    nodeOf (detached now target parent) = (nodeOf parent).drop target.kind := by
  rw [detached, nodeOf_touchEntry, Node.drop]
  by_cases h : target.kind = .dir
  · rw [if_pos (isDir_iff_kind.mpr h), if_pos h]; rfl
  · rw [if_neg (mt isDir_iff_kind.mp h), if_neg h]

theorem nodeOf_linkedTo : nodeOf (linkedTo now child parent) = (nodeOf parent).gain child.kind := by
  rw [linkedTo, nodeOf_touchEntry, Node.gain]
  by_cases h : child.kind = .dir
  · rw [if_pos (isDir_iff_kind.mpr h), if_pos h]; rfl
  · rw [if_neg (mt isDir_iff_kind.mp h), if_neg h]

theorem putEntry_ok : (putEntry parentIno name child).eval s ws = .ok (u, ws') ↔
    (name ≠ "" ∧ child.ino ≠ 0) ∧
      ws' = ws ++ [KvCmd.hsetDirectory parentIno name ⟨name, child.kind, child.ino⟩] := by
  simp only [putEntry, eval_bind_ok, eval_failIf_ok, eval_write_ok, not_or]
  constructor
  · rintro ⟨-, _, ⟨h, rfl⟩, rfl⟩; exact ⟨h, rfl⟩
  · rintro ⟨h, rfl⟩; exact ⟨(), _, ⟨h, rfl⟩, rfl⟩

theorem linkEntry_ok (h : (linkEntry now parentIno name child parent).eval s ws = .ok (p', ws')) :
    parent.isDir = true ∧ child.ino ≠ 0 ∧ p' = linkedTo now child parent ∧
      ws' = ws ++ [KvCmd.hsetDirectory parentIno name ⟨name, child.kind, child.ino⟩] := by
  simp only [linkEntry, eval_bind_ok, eval_failIf_ok, putEntry_ok, eval_pure_ok] at h
  obtain ⟨-, _, ⟨hd, rfl⟩, -, _, ⟨⟨-, h0⟩, rfl⟩, rfl, rfl⟩ := h
  exact ⟨by simpa using hd, h0, rfl, rfl⟩

theorem detachEntry_ok
    (h : (detachEntry now parentIno name target parent).eval s ws = .ok (p', ws')) :
    parent.isDir = true ∧ p' = detached now target parent ∧
      ws' = ws ++ [KvCmd.hdelDirectory parentIno name] := by
  simp only [detachEntry, eval_bind_ok, eval_failIf_ok, eval_write_ok, eval_pure_ok] at h
  obtain ⟨-, _, ⟨hd, rfl⟩, -, _, ⟨-, rfl⟩, -, _, rfl, rfl, rfl⟩ := h
  exact ⟨by simpa using hd, rfl, rfl⟩

theorem replaceEntry_ok
    (h : (replaceEntry now parentIno name child parent).eval s ws = .ok (p', ws')) :
    p' = touchEntry now parent ∧
      ws' = ws ++ [KvCmd.hsetDirectory parentIno name ⟨name, child.kind, child.ino⟩] := by
  simp only [replaceEntry, eval_bind_ok, eval_failIf_ok, putEntry_ok, eval_pure_ok] at h
  obtain ⟨-, _, ⟨-, rfl⟩, -, _, ⟨-, rfl⟩, rfl, rfl⟩ := h
  exact ⟨rfl, rfl⟩

theorem adjustNlink_ok (h : adjustNlink n d = .ok p') :
    0 ≤ (n.attr.nlink : Int) + d ∧ p' = withNlink n (n.attr.nlink + d).toNat := by
  simp only [adjustNlink, Result.bind_ok_iff, Result.failIf_ok_iff, Result.pure_ok_iff] at h
  obtain ⟨-, h0, rfl⟩ := h
  exact ⟨by omega, rfl⟩

theorem adjustNlink_pred_ok (h : adjustNlink n (-1) = .ok p') :
    p' = withNlink n (n.attr.nlink - 1) := by
  obtain ⟨-, rfl⟩ := adjustNlink_ok h
  rw [show ((n.attr.nlink : Int) + -1).toNat = n.attr.nlink - 1 by omega]

theorem adjustNlink_succ_ok (h : adjustNlink n 1 = .ok p') :
    p' = withNlink n (n.attr.nlink + 1) := by
  obtain ⟨-, rfl⟩ := adjustNlink_ok h
  rw [show ((n.attr.nlink : Int) + 1).toNat = n.attr.nlink + 1 by omega]

/-! ## view の上の効果 -/

theorem view_node (h : s (.inode ino) = some n) : (view s).node ino = some (nodeOf n) := by
  simp only [view, h, Option.map_some]

theorem view_node_none (h : s (.inode ino) = none) : (view s).node ino = none := by
  simp only [view, h, Option.map_none]

theorem view_entry (h : (s (.directory ino)).lookup name = some e) :
    (view s).entry (ino, name) = some (e.type, e.ino) := by
  simp only [view, h, Option.map_some]

theorem view_entry_none (h : (s (.directory ino)).lookup name = none) :
    (view s).entry (ino, name) = none := by
  simp only [view, h, Option.map_none]

theorem view_isDir (h : s (.inode ino) = some n) (hd : n.isDir = true) : (view s).IsDir ino :=
  ⟨n.parentIno, by rw [shape_of_node (view_node h), ← isDir_iff_kind.mp hd]; rfl⟩

/-- 成功した transaction の効果：`view` は `N` になり、record の番号は保たれる -/
structure Effect (s : Redis) (ws : List KvCmd) (N : Namespace) : Prop where
  view_eq : view (applyAll ws s) = N
  keeps : ∀ c ∈ ws, KeepsRecord c

theorem addEntry_effect (hp : s (.inode parentIno) = some parent)
    (hfresh : s (.inode child.ino) = none)
    (h : (addEntry now parentIno name child parent).eval s [] = .ok (u, ws)) :
    Effect s ws ((view s).create (parentIno, name) child.ino (nodeOf child)) ∧
      (view s).entry (parentIno, name) = none ∧ parent.isDir = true ∧
      child.parentIno = parentIno := by
  simp only [addEntry, eval_bind_ok, eval_failIf_ok, eval_ofExcept_ok, KvTxn.getDirectory_ok] at h
  obtain ⟨-, _, ⟨hpar, rfl⟩, -, _, ⟨-, rfl⟩, dir, _, ⟨rfl, -, rfl⟩, h⟩ := h
  rw [not_or, not_not, not_not] at hpar
  obtain ⟨rfl, hcp⟩ := hpar
  split at h
  · simp only [eval_bind_ok, eval_ofExcept_ok, findInode_ok] at h
    obtain ⟨-, _, -, r, _, -, h⟩ := h
    split at h <;> cases h
  · next hl =>
    simp only [eval_bind_ok, setInode_ok, eval_write_ok] at h
    obtain ⟨-, _, ⟨hc0, rfl⟩, p', _, hlink, -, _, ⟨hp0, rfl⟩, rfl⟩ := h
    obtain ⟨hd, -, rfl, rfl⟩ := linkEntry_ok hlink
    rw [linkedTo_ino] at hp0
    have hne : parent.ino ≠ child.ino := by
      intro he
      rw [he, hfresh] at hp
      cases hp
    refine ⟨⟨?_, ?_⟩, view_entry_none hl, hd, hcp⟩
    · have hnode : ((view s).setNode child.ino (nodeOf child)).node parent.ino =
          some (nodeOf parent) := by
        rw [setNode_node, update_of_ne hne, view_node hp]
      rw [Namespace.create, name_eq (update_self ..) hnode]
      simp only [List.nil_append, List.cons_append, applyAll_cons, applyAll_nil,
        view_incrInodeCount, view_setInode, view_hsetDirectory, nodeOf_linkedTo, linkedTo_ino]
      rfl
    · simp only [List.nil_append, List.cons_append, List.forall_mem_cons]
      exact ⟨keepsRecord_setInode hc0, keepsRecord_of_key (by simp),
        keepsRecord_setInode (by rwa [linkedTo_ino]), keepsRecord_of_key (by simp), by simp⟩

theorem unlinkFile_effect (ht : (view s).Tree) (hp : (view s).node parentIno = some (nodeOf parent))
    (hc : (view s).node child.ino = some (nodeOf child))
    (he : (view s).entry (parentIno, name) = some (child.kind, child.ino))
    (h : (unlinkFile now parentIno name parent child).eval s [] = .ok (p', ws)) :
    Effect s ws ((view s).unlink (parentIno, name) child.ino) ∧ child.isDir = false ∧
      parent.ino = parentIno ∧ p' = detached now child parent := by
  simp only [unlinkFile, eval_bind_ok, eval_failIf_ok, eval_ofExcept_ok, setInode_ok,
    eval_pure_ok] at h
  obtain ⟨-, _, ⟨hpar, rfl⟩, -, _, ⟨hcd, rfl⟩, -, _, ⟨-, rfl⟩, -, _, ⟨-, rfl⟩, c', _, ⟨hadj, rfl⟩,
    _, _, hdet, -, _, ⟨hp0, rfl⟩, -, _, ⟨hc0, rfl⟩, _, _, hmark, rfl, rfl⟩ := h
  obtain rfl := adjustNlink_pred_ok hadj
  obtain ⟨-, hp₁, rfl⟩ := detachEntry_ok hdet
  obtain rfl : p' = detached now child parent := hp₁
  have hcd : child.isDir = false := by simpa using hcd
  have hkind : child.kind ≠ .dir := fun hk => by rw [isDir_iff_kind.mpr hk] at hcd; cases hcd
  obtain rfl : parent.ino = parentIno := not_not.mp hpar
  -- directory である parent と file である child は別の inode である
  have hne : child.ino ≠ parent.ino := by
    intro hcp
    obtain ⟨q, hq⟩ := ht.inv.isDir_holder he
    rw [← hcp, shape_of_node hc] at hq
    exact hkind (congrArg Prod.fst (Option.some.inj hq))
  refine ⟨?_, hcd, rfl, rfl⟩
  have hnode : ((view s).detach (parent.ino, name) child.kind (nodeOf parent)).node child.ino =
      some (nodeOf child) := by
    rw [detach_node, update_of_ne hne, hc]
  rw [Namespace.unlink, unname_eq he hp, Namespace.dropLink, hnode]
  have hbase : view (applyAll [KvCmd.hdelDirectory parent.ino name,
      KvCmd.setInode (detached now child parent),
      KvCmd.setInode ((withNlink child (child.attr.nlink - 1)).touch now { ctime := true })] s) =
      ((view s).detach (parent.ino, name) child.kind (nodeOf parent)).setNode child.ino
        { nodeOf child with nlink := child.attr.nlink - 1 } := by
    simp only [applyAll_cons, applyAll_nil, view_setInode, view_hdelDirectory, nodeOf_detached,
      detached_ino]
    rfl
  have hkeeps : ∀ c ∈ [KvCmd.hdelDirectory parent.ino name,
      KvCmd.setInode (detached now child parent),
      KvCmd.setInode ((withNlink child (child.attr.nlink - 1)).touch now { ctime := true })],
      KeepsRecord c := by
    simp only [List.forall_mem_cons]
    exact ⟨keepsRecord_of_key (by simp), keepsRecord_setInode hp0, keepsRecord_setInode hc0,
      by simp⟩
  unfold markOrphan at hmark
  split at hmark
  · next h0 =>
    obtain rfl := eval_write_ok.mp hmark
    have h0 : child.attr.nlink - 1 = 0 := h0
    refine ⟨?_, ?_⟩
    · rw [applyAll_append, applyAll_cons, applyAll_nil, view_hsetOrphan]
      refine (congrArg (Namespace.setOrphan · child.ino true) hbase).trans ?_
      simp [nodeOf, h0]
    · intro c hc
      rcases List.mem_append.mp hc with hc | hc
      · exact hkeeps c hc
      · obtain rfl := List.mem_singleton.mp hc
        exact keepsRecord_of_key (by simp)
  · next h0 =>
    obtain ⟨-, rfl⟩ := eval_pure_ok.mp hmark
    have h0 : child.attr.nlink - 1 ≠ 0 := h0
    refine ⟨hbase.trans ?_, hkeeps⟩
    -- まだ名前が残る file は orphan ではなかった
    have horph : (view s).orphan child.ino = false := by
      rw [← Bool.not_eq_true]
      intro ho
      have := (ht.inv.orphans _ _ hc hkind).mp ho
      have : child.attr.nlink = 0 := this
      omega
    ext1
    · rfl
    · rfl
    · have hb : (child.attr.nlink - 1 == 0) = false := by simpa using h0
      funext i
      by_cases hi : i = child.ino
      · subst hi; simp [nodeOf, hb, horph]
      · simp [hi]

theorem removeDirectory_effect (ht : (view s).Tree)
    (hp : (view s).node parentIno = some (nodeOf parent))
    (he : (view s).entry (parentIno, name) = some (child.kind, child.ino))
    (h : (removeDirectory now parentIno name parent child).eval s [] = .ok (p', ws)) :
    Effect s ws ((view s).rmdir (parentIno, name) child.ino) ∧ child.isDir = true ∧
      parent.ino = parentIno ∧ p' = detached now child parent ∧
      ∀ x, (view s).entry (child.ino, x) = none := by
  simp only [removeDirectory, deleteInode, eval_bind_ok, eval_failIf_ok, eval_ofExcept_ok,
    KvTxn.getDirectory_ok, setInode_ok, eval_write_ok,
    eval_pure_ok] at h
  obtain ⟨-, _, ⟨hpar, rfl⟩, -, _, ⟨hcd, rfl⟩, -, _, ⟨-, rfl⟩, -, _, ⟨-, rfl⟩, dir, _,
    ⟨rfl, -, rfl⟩, -, _, ⟨hlen, rfl⟩, _, _, hdet, -, _, ⟨-, _, rfl, rfl⟩, -, _, ⟨hp0, rfl⟩, rfl,
    rfl⟩ := h
  obtain ⟨-, rfl, rfl⟩ := detachEntry_ok hdet
  have hcd : child.isDir = true := by simpa using hcd
  have hkind : child.kind = .dir := isDir_iff_kind.mp hcd
  rw [not_or, not_not, not_not] at hpar
  obtain ⟨rfl, -⟩ := hpar
  have hempty : ∀ x, (view s).entry (child.ino, x) = none := by
    intro x
    refine view_entry_none ?_
    have hnil : (s (.directory child.ino)).entries = [] :=
      List.length_eq_zero_iff.mp (not_not.mp hlen)
    rw [AList.lookup, hnil]
    rfl
  rw [hkind] at he
  have hne : child.ino ≠ parent.ino := fun hc => ht.avoids_child he 0 hc.symm
  -- directory は orphan にならない
  have horph : (view s).orphan child.ino = false := by
    rw [← Bool.not_eq_true]
    intro ho
    obtain ⟨m, hm, hmk⟩ := ht.inv.orphanExists _ ho
    obtain ⟨q, hq, -⟩ := ht.inv.shape_target he
    rw [shape_of_node hm] at hq
    exact hmk (congrArg Prod.fst (Option.some.inj hq))
  refine ⟨⟨?_, ?_⟩, hcd, rfl, rfl, hempty⟩
  · rw [Namespace.rmdir, unname_eq he hp]
    simp only [List.nil_append, List.cons_append, applyAll_cons, applyAll_nil, view_setInode,
      view_hdelDirectory, view_delInode, view_incrInodeCount, nodeOf_detached,
      detached_ino, hkind]
    ext1
    · simp only [Namespace.forget, setOrphan_node, eraseNode_node, detach_node, setNode_node,
        setEntry_node]
      exact update_comm hne ..
    · rfl
    · funext i
      by_cases hi : i = child.ino
      · subst hi; simp [Namespace.forget, horph]
      · simp [Namespace.forget, hi]
  · simp only [List.nil_append, List.cons_append, List.forall_mem_cons]
    exact ⟨keepsRecord_of_key (by simp), keepsRecord_delInode _, keepsRecord_of_key (by simp),
      keepsRecord_setInode hp0, by simp⟩

theorem linkExistingEntry_effect (ht : (view s).Tree)
    (hp : s (.inode parentIno) = some parent) (hn : s (.inode n.ino) = some n)
    (h : (linkExistingEntry now parentIno name parent n).eval s [] = .ok (linked, ws)) :
    Effect s ws ((view s).link (parentIno, name) n.ino) ∧ n.isDir = false ∧
      (view s).IsDir parentIno ∧ (view s).entry (parentIno, name) = none := by
  simp only [linkExistingEntry, eval_bind_ok, eval_failIf_ok, eval_ofExcept_ok] at h
  obtain ⟨-, _, ⟨hpar, rfl⟩, -, _, ⟨hpd, rfl⟩, -, _, ⟨hnd, rfl⟩, -, _, ⟨-, rfl⟩, -, _, ⟨-, rfl⟩, r,
    _, hfind, h⟩ := h
  obtain rfl : parent.ino = parentIno := not_not.mp hpar
  have hpd : parent.isDir = true := by simpa using hpd
  have hnd : n.isDir = false := by simpa using hnd
  obtain ⟨-, rfl, -, -, hnone⟩ := findEntry_ok hfind
  split at h
  · cases h
  simp only [eval_bind_ok, eval_ofExcept_ok, setInode_ok, eval_pure_ok] at h
  obtain ⟨_, _, hlink, n', _, ⟨hadj, rfl⟩, _, w, hclear, -, _, ⟨hp0, rfl⟩, -, _, ⟨hn0, rfl⟩, -, rfl⟩ :=
    h
  obtain ⟨-, -, rfl, rfl⟩ := linkEntry_ok hlink
  obtain rfl := adjustNlink_succ_ok hadj
  have hkind : n.kind ≠ .dir := fun hk => by rw [isDir_iff_kind.mpr hk] at hnd; cases hnd
  have hne : n.ino ≠ parent.ino := by
    intro hc
    rw [hc, hp] at hn
    cases hn
    rw [hpd] at hnd
    cases hnd
  refine ⟨?_, hnd, view_isDir hp hpd, view_entry_none (hnone rfl)⟩
  -- orphan の印は、あった場合だけ消される
  obtain ⟨os, hos, hkeeps, rfl⟩ : ∃ os, view (applyAll os (applyAll
      [KvCmd.hsetDirectory parent.ino name ⟨name, n.kind, n.ino⟩] s)) =
      ((view s).setEntry (parent.ino, name) (some (n.kind, n.ino))).setOrphan n.ino false ∧
      (∀ c ∈ os, KeepsRecord c) ∧
      w = [] ++ [KvCmd.hsetDirectory parent.ino name ⟨name, n.kind, n.ino⟩] ++ os := by
    unfold clearRevived clearOrphanMarker at hclear
    split at hclear
    · obtain rfl := eval_write_ok.mp hclear
      refine ⟨[KvCmd.hdelOrphan n.ino], ?_, ?_, rfl⟩
      · simp only [applyAll_cons, applyAll_nil, view_hdelOrphan, view_hsetDirectory]
      · simpa using keepsRecord_of_key (by simp)
    · next h0 =>
      obtain ⟨-, rfl⟩ := eval_pure_ok.mp hclear
      refine ⟨[], ?_, by simp, by simp⟩
      have horph : (view s).orphan n.ino = false := by
        rw [← Bool.not_eq_true]
        intro ho
        exact h0 (decide_eq_true ((ht.inv.orphans _ _ (view_node hn) hkind).mp ho))
      simp only [applyAll_cons, applyAll_nil, view_hsetDirectory]
      ext1
      · rfl
      · rfl
      · funext i
        by_cases hi : i = n.ino
        · subst hi; simp [horph]
        · simp [hi]
  refine ⟨?_, ?_⟩
  · have htake : (view s).takeLink n.ino = ((view s).setNode n.ino
        { nodeOf n with nlink := n.attr.nlink + 1 }).setOrphan n.ino false := by
      simp only [Namespace.takeLink, view_node hn]
      rfl
    have hnode : ((view s).takeLink n.ino).node parent.ino = some (nodeOf parent) := by
      rw [htake, setOrphan_node, setNode_node, update_of_ne hne.symm, view_node hp]
    have hnode' : ((view s).takeLink n.ino).node n.ino =
        some { nodeOf n with nlink := n.attr.nlink + 1 } := by
      rw [htake, setOrphan_node, setNode_node, update_self]
    rw [Namespace.link, name_eq hnode' hnode, htake]
    simp only [applyAll_append, applyAll_cons, applyAll_nil] at hos ⊢
    simp only [view_setInode, hos, nodeOf_linkedTo, linkedTo_ino]
    ext1
    · exact update_comm hne.symm ..
    · rfl
    · rfl
  · intro c hc
    simp only [List.mem_append, List.mem_singleton, List.not_mem_nil, false_or] at hc
    rcases hc with ((rfl | hc) | rfl) | rfl
    · exact keepsRecord_of_key (by simp)
    · exact hkeeps c hc
    · exact keepsRecord_setInode hp0
    · exact keepsRecord_setInode hn0

end SwordFS.Metadata
