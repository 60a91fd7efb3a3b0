import SwordFS.Metadata.Properties.NamespaceTxn

/-!
# rename の仕様

`MoveEntry` と `ExchangeEntries` の効果を `view` の上の一歩として述べる。
二つの parent が同じ inode のとき、C++ は一つの object を二度書き換える。
-/

namespace SwordFS.Metadata

open Infra Txn Namespace Cmd
open Function (update update_self update_of_ne update_comm)

variable {s : Redis} {now : Int} {ino : InodeID} {n source : SwordFsInode} {u : Unit}
  {ws ws' : List KvCmd} {r : RenameNames} {p : RenameParents} {steps : Nat}
  {new : Option InodeID} {overwrite : Bool}

/-! ## 祖先の検査 -/

theorem view_par (h : s (.inode ino) = some n) : (view s).par ino = n.parentIno :=
  par_eq (shape_of_node (view_node h))

theorem inode_of_isDir (h : (view s).IsDir ino) : ∃ n, s (.inode ino) = some n := by
  obtain ⟨q, hq⟩ := h
  obtain ⟨m, hm, -⟩ := node_of_shape hq
  obtain ⟨n, hn, -⟩ := Option.map_eq_some_iff.mp hm
  exact ⟨n, hn⟩

theorem ancestorWalk_reads : ∀ {steps visited c},
    (ancestorWalk a steps visited c).eval s [] = .ok (b, ws) → ws = []
  | 0, _, _, h => nomatch h
  | steps + 1, visited, c, h => by
    unfold ancestorWalk at h
    split at h
    · exact (eval_pure_ok.mp h).2
    split at h
    · cases h
    split at h
    · exact (eval_pure_ok.mp h).2
    simp only [eval_bind_ok, lookupInode_ok] at h
    obtain ⟨n, _, ⟨-, -, -, rfl⟩, h⟩ := h
    split at h
    · exact (eval_pure_ok.mp h).2
    · exact ancestorWalk_reads h

theorem ancestorWalk_false (hr : Recorded s) (ht : (view s).Tree) :
    ∀ {steps visited c}, (ancestorWalk a steps visited c).eval s [] = .ok (false, ws) →
      (view s).IsDir c → ∀ m, (view s).par^[m] c ≠ a
  | 0, _, _, h, _ => nomatch h
  | steps + 1, visited, c, h, hc => by
    obtain ⟨n, hn⟩ := inode_of_isDir hc
    unfold ancestorWalk at h
    rw [if_neg (hr c n hn).2] at h
    split at h
    · cases h
    split at h
    · cases h
    next hca =>
    simp only [eval_bind_ok, lookupInode_ok] at h
    obtain ⟨n', _, ⟨hn', -, -, rfl⟩, h⟩ := h
    obtain rfl : n' = n := Option.some.inj (hn'.symm.trans hn)
    have hp := view_par hn
    split at h
    · next hself =>
      -- root に着いた
      intro m
      rw [Function.iterate_fixed (hp.trans hself)]
      exact hca
    · intro m
      cases m with
      | zero => exact hca
      | succ m =>
        rw [Function.iterate_succ_apply, hp]
        exact ancestorWalk_false hr ht h (hp ▸ ht.inv.isDir_par hc) m

theorem checkDestination_ok (hr : Recorded s) (ht : (view s).Tree)
    (hd : (view s).IsDir ino) (h : (checkDestination steps msg n ino).eval s [] = .ok (u, ws)) :
    ws = [] ∧ (n.kind = .dir → ∀ m, (view s).par^[m] ino ≠ n.ino) := by
  unfold checkDestination at h
  split at h
  · simp only [isDescendantOf, eval_bind_ok, eval_failIf_ok] at h
    obtain ⟨b, _, hwalk, hb, rfl⟩ := h
    obtain rfl := ancestorWalk_reads hwalk
    obtain rfl : b = false := by simpa using hb
    exact ⟨rfl, fun _ => ancestorWalk_false hr ht hwalk hd⟩
  · next hnd =>
    obtain ⟨-, rfl⟩ := eval_pure_ok.mp h
    exact ⟨rfl, fun hk => absurd (isDir_iff_kind.mpr hk) hnd⟩

/-! ## parent の書き換え -/

def RenameNames.oldKey (r : RenameNames) : EntryKey := (r.oldParentIno, r.oldName)

def RenameNames.newKey (r : RenameNames) : EntryKey := (r.newParentIno, r.newName)

/-- 読み込んだ parent は store の中身と一致し、同じ番号のときに限り一つしか持たない -/
structure RenameParents.Loaded (p : RenameParents) (N : Namespace) (r : RenameNames) : Prop where
  oldIno : p.old.ino = r.oldParentIno
  oldNode : N.node r.oldParentIno = some (nodeOf p.old)
  newIno : p.new.ino = r.newParentIno
  newNode : N.node r.newParentIno = some (nodeOf p.new)
  same : p.other = none ↔ r.oldParentIno = r.newParentIno

@[simp] theorem RenameParents.new_some (o m : SwordFsInode) : RenameParents.new ⟨o, some m⟩ = m :=
  rfl

def RenameParents.writes (p : RenameParents) : List KvCmd :=
  match p.other with
  | none => [KvCmd.setInode p.old]
  | some n => [KvCmd.setInode p.old, KvCmd.setInode n]

theorem RenameParents.store_ok (h : p.store.eval s ws = .ok (u, ws')) :
    ws' = ws ++ p.writes ∧ ∀ c ∈ p.writes, KeepsRecord c := by
  simp only [RenameParents.store, eval_bind_ok, setInode_ok] at h
  obtain ⟨-, _, ⟨h0, rfl⟩, h⟩ := h
  unfold RenameParents.writes
  cases hother : p.other with
  | none =>
    rw [hother] at h
    obtain ⟨-, rfl⟩ := eval_pure_ok.mp h
    exact ⟨rfl, by simpa using keepsRecord_setInode h0⟩
  | some n =>
    rw [hother] at h
    obtain ⟨h1, rfl⟩ := setInode_ok.mp h
    refine ⟨by simp, ?_⟩
    simp only [List.forall_mem_cons]
    exact ⟨keepsRecord_setInode h0, keepsRecord_setInode h1, by simp⟩

def RenameParents.relocated (now : Int) (source : SwordFsInode) (p : RenameParents) :
    RenameParents :=
  let p := p.setOld (detached now source p.old)
  p.setNew (linkedTo now source p.new)

def movedTo (now : Int) (ino : InodeID) (source : SwordFsInode) : SwordFsInode :=
  { source with parentIno := ino }.touch now { ctime := true }

@[simp] theorem movedTo_ino : (movedTo now ino n).ino = n.ino := rfl
@[simp] theorem nodeOf_movedTo : nodeOf (movedTo now ino n) = { nodeOf n with parent := ino } := rfl

def relocateWrites (now : Int) (r : RenameNames) (p : RenameParents) (source : SwordFsInode) :
    List KvCmd :=
  KvCmd.hdelDirectory r.oldParentIno r.oldName ::
    KvCmd.hsetDirectory r.newParentIno r.newName ⟨r.newName, source.kind, source.ino⟩ ::
    ((p.relocated now source).writes ++ [KvCmd.setInode (movedTo now r.newParentIno source)])

theorem relocate_ok (h : (relocate now r p source).eval s ws = .ok (u, ws')) :
    ws' = ws ++ relocateWrites now r p source ∧
      ∀ c ∈ relocateWrites now r p source, KeepsRecord c := by
  simp only [relocate, eval_bind_ok, setInode_ok] at h
  obtain ⟨_, _, hdet, _, _, hlink, _, _, hstore, h0, rfl⟩ := h
  obtain ⟨-, rfl, rfl⟩ := detachEntry_ok hdet
  obtain ⟨-, -, rfl, rfl⟩ := linkEntry_ok hlink
  obtain ⟨rfl, hk⟩ := RenameParents.store_ok hstore
  refine ⟨by simp [relocateWrites, RenameParents.relocated, movedTo], fun c hc => ?_⟩
  simp only [relocateWrites, List.mem_cons, List.mem_append, List.not_mem_nil, or_false] at hc
  rcases hc with rfl | rfl | hc | rfl
  · exact keepsRecord_of_key (by simp)
  · exact keepsRecord_of_key (by simp)
  · exact hk c hc
  · exact keepsRecord_setInode h0

theorem relocate_view (hp : p.Loaded (view s) r)
    (he : (view s).entry r.oldKey = some (source.kind, source.ino))
    (hn : (view s).node source.ino = some (nodeOf source)) (ho : r.oldParentIno ≠ source.ino)
    (hnew : r.newParentIno ≠ source.ino) :
    view (applyAll (relocateWrites now r p source) s) =
      (view s).move r.oldKey r.newKey source.ino := by
  obtain ⟨op, on, np, nn⟩ := r
  obtain ⟨hoi, hon, hni, hnn, hsame⟩ := hp
  simp only [RenameNames.oldKey, RenameNames.newKey] at *
  have hmove : (view s).move (op, on) (np, nn) source.ino =
      (((view s).detach (op, on) source.kind (nodeOf p.old)).setNode source.ino
        { nodeOf source with parent := np }).name (np, nn) source.ino := by
    rw [Namespace.move, unname_eq he hon, Namespace.adopt, detach_node, update_of_ne ho.symm, hn]
  rw [hmove]
  cases hother : p.other with
  | none =>
    obtain rfl : op = np := hsame.mp hother
    have hnode : (((view s).detach (op, on) source.kind (nodeOf p.old)).setNode source.ino
        { nodeOf source with parent := op }).node op = some (nodeOf (detached now source p.old)) := by
      rw [setNode_node, update_of_ne hnew, detach_node, update_self, nodeOf_detached]
    rw [name_eq (update_self ..) hnode]
    simp only [relocateWrites, RenameParents.relocated, RenameParents.setOld, RenameParents.setNew,
      RenameParents.writes, RenameParents.new, hother, Option.getD_none, List.cons_append,
      List.nil_append, applyAll_cons, applyAll_nil, view_setInode, view_hdelDirectory,
      view_hsetDirectory, nodeOf_linkedTo, linkedTo_ino, detached_ino, hoi]
    refine Namespace.ext ?_ rfl rfl
    simp [update_comm hnew]
  | some new =>
    obtain hne : op ≠ np := fun hc => by rw [hsame.mpr hc] at hother; cases hother
    have hpn : p.new = new := by rw [RenameParents.new, hother]; rfl
    rw [hpn] at hni hnn
    have hnode : (((view s).detach (op, on) source.kind (nodeOf p.old)).setNode source.ino
        { nodeOf source with parent := np }).node np = some (nodeOf new) := by
      rw [setNode_node, update_of_ne hnew, detach_node, update_of_ne hne.symm, hnn]
    rw [name_eq (update_self ..) hnode]
    simp only [relocateWrites, RenameParents.relocated, RenameParents.setOld, RenameParents.setNew,
      RenameParents.writes, RenameParents.new, hother, Option.getD_some, List.cons_append,
      List.nil_append, applyAll_cons, applyAll_nil, view_setInode, view_hdelDirectory,
      view_hsetDirectory, nodeOf_linkedTo, nodeOf_detached, linkedTo_ino, detached_ino, hoi, hni]
    refine Namespace.ext ?_ rfl rfl
    simp [update_comm hnew]

/-! ## `MoveEntry` -/

theorem checkParents_ok (h : (checkParents op r p).eval s ws = .ok (u, ws')) :
    ws' = ws ∧ p.old.isDir = true ∧ p.new.isDir = true := by
  simp only [checkParents, eval_bind_ok, eval_failIf_ok] at h
  obtain ⟨-, _, ⟨-, rfl⟩, -, _, ⟨-, rfl⟩, hd, rfl⟩ := h
  refine ⟨rfl, ?_⟩
  simpa using hd

/-- 移動先の parent を書き換えた後も、読み込んだ parent は store と一致する -/
theorem RenameParents.Loaded.setNew {new : SwordFsInode} (hp : p.Loaded N r)
    (hi : new.ino = p.new.ino) (hnew : N'.node r.newParentIno = some (nodeOf new))
    (hold : r.oldParentIno ≠ r.newParentIno → N'.node r.oldParentIno = N.node r.oldParentIno) :
    (p.setNew new).Loaded N' r := by
  obtain ⟨hoi, hon, hni, hnn, hsame⟩ := hp
  cases hother : p.other with
  | none =>
    have heq := hsame.mp hother
    have hset : p.setNew new = ⟨new, none⟩ := by simp only [RenameParents.setNew, hother]
    rw [hset]
    exact ⟨(hi.trans hni).trans heq.symm, heq ▸ hnew, hi.trans hni, hnew,
      iff_of_true rfl heq⟩
  | some m =>
    have hne : r.oldParentIno ≠ r.newParentIno := fun hc => by
      rw [hsame.mpr hc] at hother; cases hother
    have hset : p.setNew new = ⟨p.old, some new⟩ := by simp only [RenameParents.setNew, hother]
    rw [hset]
    exact ⟨hoi, (hold hne).trans hon, hi.trans hni, hnew,
      iff_of_false (fun h => nomatch h) hne⟩

/-- 書き込みの列が表す変化は `Steps` であり、record の番号を保つ -/
structure Refines (new : Option InodeID) (s : Redis) (ws : List KvCmd) : Prop where
  steps : Namespace.Steps new (view s) (view (applyAll ws s))
  keeps : ∀ c ∈ ws, KeepsRecord c

theorem refines_nil (s : Redis) : Refines new s [] := ⟨.refl, fun _ h => nomatch h⟩

theorem Effect.refines (h : Effect s ws N) (hs : Namespace.Step new (view s) N) :
    Refines new s ws := ⟨.single (h.view_eq ▸ hs), h.keeps⟩

theorem Refines.append (h : Refines new s ws) (h' : Refines new (applyAll ws s) ws') :
    Refines new s (ws ++ ws') := by
  refine ⟨?_, ?_⟩
  · rw [applyAll_append]; exact h.steps.trans h'.steps
  · intro c hc
    rcases List.mem_append.mp hc with hc | hc
    · exact h.keeps c hc
    · exact h'.keeps c hc

theorem isDir_ne (hi : (view s).IsDir i)
    (hm : (view s).node m.ino = some (nodeOf m)) (hdir : m.kind = .dir → i ≠ m.ino) : i ≠ m.ino := by
  intro hc
  by_cases hk : m.kind = .dir
  · exact hdir hk hc
  · exact not_isDir_of_shape (shape_of_node hm) hk (hc ▸ hi)

/-- 付け替えは、移動先が空いていて子孫でなければ一歩の変化 -/
theorem relocate_refines (ht : (view s).Tree) (hp : p.Loaded (view s) r)
    (he : (view s).entry r.oldKey = some (source.kind, source.ino))
    (he' : (view s).entry r.newKey = none)
    (hn : (view s).node source.ino = some (nodeOf source)) (hd : (view s).IsDir r.newParentIno)
    (hav : source.kind = .dir → ∀ m, (view s).par^[m] r.newParentIno ≠ source.ino)
    (hk : ∀ c ∈ relocateWrites now r p source, KeepsRecord c) :
    Refines new s (relocateWrites now r p source) := by
  have ho : r.oldParentIno ≠ source.ino :=
    isDir_ne (ht.inv.isDir_holder he) hn fun hkind => by
      rw [hkind] at he
      exact ht.avoids_child he 0
  have hn' : r.newParentIno ≠ source.ino := isDir_ne hd hn fun hkind => hav hkind 0
  exact ⟨relocate_view hp he hn ho hn' ▸ .single (.move he he' hd hav), hk⟩

section Replace

variable {target : SwordFsInode}

/-- 移動先の名前を外した後の付け替え。`N'` は外した後の namespace -/
theorem relocate_after_detach (s' : Redis) (ht' : (view s').Tree) (hp : p.Loaded (view s) r)
    (he : (view s).entry r.oldKey = some (source.kind, source.ino))
    (he' : (view s).entry r.newKey = some (k, target.ino)) (hne : source.ino ≠ target.ino)
    (hn : (view s).node source.ino = some (nodeOf source))
    (hnew : r.newParentIno ≠ target.ino) (hold : r.oldParentIno ≠ target.ino)
    (hsrc : source.ino ≠ r.newParentIno) (hk : target.kind = k)
    (hentry : (view s').entry = update (view s).entry r.newKey none)
    (hnode : ∀ j, j ≠ target.ino →
      (view s').node j = ((view s).detach r.newKey k (nodeOf p.new)).node j)
    (hd : (view s').IsDir r.newParentIno)
    (hav : source.kind = .dir → ∀ m, (view s').par^[m] r.newParentIno ≠ source.ino)
    (h : (relocate now r (p.setNew (detached now target p.new)) source).eval s ws = .ok (u, ws')) :
    ∃ ds, ws' = ws ++ ds ∧ Refines new s' ds := by
  obtain ⟨rfl, hkeeps⟩ := relocate_ok h
  have hkey : r.oldKey ≠ r.newKey := fun hc => by
    rw [hc, he'] at he
    exact hne (congrArg Prod.snd (Option.some.inj he)).symm
  refine ⟨_, rfl, relocate_refines ht' ?_ ?_ ?_ ?_ hd hav hkeeps⟩
  · refine hp.setNew detached_ino ?_ fun hon => ?_
    · rw [hnode _ hnew, nodeOf_detached, hk]
      exact update_self ..
    · rw [hnode _ hold]
      exact update_of_ne hon ..
  · rw [hentry, update_of_ne hkey, he]
  · rw [hentry, update_self]
  · rw [hnode _ hne]
    exact (update_of_ne hsrc ..).trans hn

end Replace

theorem moveEntry_refines (hr : Recorded s) (ht : (view s).Tree) (hp : p.Loaded (view s) r)
    (hn : (view s).node source.ino = some (nodeOf source))
    (he : (view s).entry r.oldKey = some (source.kind, source.ino))
    (htg : ∀ t, target = some t → (view s).node t.ino = some (nodeOf t) ∧
      (view s).entry r.newKey = some (t.kind, t.ino))
    (hnone : target = none → (view s).entry r.newKey = none)
    (h : (moveEntry now steps r p source target overwrite).eval s [] = .ok (u, ws)) :
    Refines new s ws := by
  simp only [moveEntry, eval_bind_ok, eval_ofExcept_ok] at h
  obtain ⟨_, _, hpar, -, _, ⟨-, rfl⟩, -, _, ⟨-, rfl⟩, -, _, ⟨-, rfl⟩, _, _, hdest, h⟩ := h
  obtain ⟨rfl, -, hnd⟩ := checkParents_ok hpar
  have hd : (view s).IsDir r.newParentIno :=
    ⟨_, (shape_of_node hp.newNode).trans (by rw [nodeOf_kind, isDir_iff_kind.mp hnd])⟩
  obtain ⟨rfl, hav⟩ := checkDestination_ok hr ht hd hdest
  split at h
  · obtain ⟨rfl, hkeeps⟩ := relocate_ok h
    exact relocate_refines ht hp he (hnone rfl) hn hd hav hkeeps
  · next t =>
    simp only [eval_bind_ok, eval_failIf_ok] at h
    obtain ⟨-, _, ⟨-, rfl⟩, h⟩ := h
    split at h
    · obtain ⟨-, rfl⟩ := eval_pure_ok.mp h
      exact refines_nil s
    · next hne =>
      simp only [eval_bind_ok, eval_ofExcept_ok, eval_failIf_ok] at h
      obtain ⟨-, _, ⟨-, rfl⟩, -, _, ⟨-, rfl⟩, -, _, ⟨-, rfl⟩, h⟩ := h
      obtain ⟨htn, hte⟩ := htg t rfl
      have hpsh : (view s).shape r.newKey.1 ≠ none := fun hc => by
        cases hc.symm.trans (shape_of_node hp.newNode)
      -- 移動元の directory は source を含むので、置き換える空の directory ではない
      have hold : (∀ x, (view s).entry (t.ino, x) = none) → r.oldParentIno ≠ t.ino := by
        intro hempty hc
        have := hempty r.oldName
        rw [← hc] at this
        cases this.symm.trans he
      have hsrc : source.ino ≠ r.newParentIno := (isDir_ne hd hn fun hk => hav hk 0).symm
      split at h
      · -- 空の directory を置き換える
        next htd =>
        obtain ⟨_, ws₁, hrem, h⟩ := eval_bind_ok.mp h
        have htk : t.kind = .dir := isDir_iff_kind.mp htd
        obtain ⟨heff, -, -, rfl, hempty⟩ := removeDirectory_effect ht hp.newNode hte hrem
        rw [htk] at hte
        have hstep : Namespace.Step new _ _ := .rmdir hte hempty
        have hnew : r.newParentIno ≠ t.ino := ht.avoids_child hte 0
        have hshape : ∀ j, j ∉ ({t.ino} : Set InodeID) →
            (view (applyAll ws₁ s)).shape j = (view s).shape j := by
          intro j hj
          rw [heff.view_eq, Namespace.rmdir, shape_forget, if_neg (Set.notMem_singleton_iff.mp hj),
            shape_unname]
        have hpar : ∀ j, j ∉ ({t.ino} : Set InodeID) →
            (view (applyAll ws₁ s)).par j = (view s).par j := fun j hj => by
          rw [Namespace.par, Namespace.par, hshape j hj]
        obtain ⟨ds, rfl, hds⟩ : ∃ ds, ws = ws₁ ++ ds ∧ Refines new (applyAll ws₁ s) ds :=
          relocate_after_detach (applyAll ws₁ s)
          (heff.view_eq ▸ hstep.tree ht) hp he hte (Ne.symm hne) hn hnew (hold hempty) hsrc htk
          (by rw [heff.view_eq]; exact rmdir_entry hpsh)
          (fun j hj => by rw [heff.view_eq]; exact rmdir_node hte hp.newNode hj)
          (by obtain ⟨q, hq⟩ := hd; exact ⟨q, (hshape _ hnew).trans hq⟩)
          (fun hk m =>
            (iterate_eq_of_avoids hpar (fun m => ht.avoids_child hte m) m).trans_ne (hav hk m)) h
        exact (heff.refines hstep).append hds
      · next htd =>
        obtain ⟨_, ws₁, hrem, h⟩ := eval_bind_ok.mp h
        have htk : t.kind ≠ .dir := fun hk => htd (isDir_iff_kind.mpr hk)
        obtain ⟨heff, -, -, rfl⟩ := unlinkFile_effect ht hp.newNode htn hte hrem
        have hstep : Namespace.Step new _ _ := .unlink hte htk
        have hfile := not_isDir_of_shape (shape_of_node htn) htk
        have hshape : (view (applyAll ws₁ s)).shape = (view s).shape := by
          funext j
          rw [heff.view_eq, Namespace.unlink, shape_dropLink, shape_unname]
        have hpar : (view (applyAll ws₁ s)).par = (view s).par := by
          funext j
          rw [Namespace.par, Namespace.par, hshape]
        obtain ⟨ds, rfl, hds⟩ : ∃ ds, ws = ws₁ ++ ds ∧ Refines new (applyAll ws₁ s) ds :=
          relocate_after_detach (applyAll ws₁ s)
          (heff.view_eq ▸ hstep.tree ht) hp he hte (Ne.symm hne) hn
          (fun hc => hfile (hc ▸ hd)) (fun hc => hfile (hc ▸ ht.inv.isDir_holder he)) hsrc rfl
          (by rw [heff.view_eq]; exact unlink_entry hpsh)
          (fun j hj => by rw [heff.view_eq]; exact unlink_node hte hp.newNode hj)
          (by obtain ⟨q, hq⟩ := hd; exact ⟨q, hshape ▸ hq⟩)
          (fun hk m => by rw [hpar]; exact hav hk m) h
        exact (heff.refines hstep).append hds

/-! ## `ExchangeEntries` -/

section Exchange

variable {target : SwordFsInode} {p' : RenameParents}

theorem nodeOf_adjust {a b : SwordFsInode} (hpos : 0 < n.attr.nlink)
    (h : adjustNlink n (b.isDir.toNat - a.isDir.toNat) = .ok m) :
    nodeOf m = ((nodeOf n).drop a.kind).gain b.kind ∧ m.ino = n.ino := by
  obtain ⟨-, rfl⟩ := adjustNlink_ok h
  refine ⟨?_, rfl⟩
  rw [nodeOf_withNlink, isDir_eq_decide, isDir_eq_decide]
  unfold Node.drop Node.gain
  by_cases ha : a.kind = .dir <;> by_cases hb : b.kind = .dir <;> simp [ha, hb, nodeOf] <;> omega

theorem balanceParents_alias (hother : p.other = none)
    (h : balanceParents p source target = .ok p') : p' = p := by
  rw [balanceParents, hother] at h
  cases h
  rfl

theorem balanceParents_ne {new : SwordFsInode} (hother : p.other = some new)
    (hold : 0 < p.old.attr.nlink) (hnew : 0 < new.attr.nlink)
    (h : balanceParents p source target = .ok p') :
    ∃ o m, p' = ⟨o, some m⟩ ∧ o.ino = p.old.ino ∧ m.ino = new.ino ∧
      nodeOf o = ((nodeOf p.old).drop source.kind).gain target.kind ∧
      nodeOf m = ((nodeOf new).drop target.kind).gain source.kind := by
  rw [balanceParents, hother] at h
  dsimp only at h
  split at h
  · next h0 =>
    cases h
    have hk : source.kind = .dir ↔ target.kind = .dir := by
      rw [← isDir_iff_kind, ← isDir_iff_kind]
      cases hs : source.isDir <;> cases ht : target.isDir <;> simp [hs, ht] at h0 ⊢
    have hsame : ∀ m : SwordFsInode, 0 < m.attr.nlink → ∀ {a b : Dt}, (a = .dir ↔ b = .dir) →
        nodeOf m = ((nodeOf m).drop a).gain b := by
      intro m hm a b hab
      have hgain : ((nodeOf m).drop a).gain b = ((nodeOf m).drop a).gain a := by
        simp only [Node.gain, hab]
      rw [hgain, Node.gain_drop _ _ hm]
    exact ⟨p.old, new, by rw [← hother], rfl, rfl, hsame _ hold hk, hsame _ hnew hk.symm⟩
  · simp only [Result.bind_ok_iff, Result.pure_ok_iff] at h
    obtain ⟨o, ho, m, hm, rfl⟩ := h
    rw [neg_sub] at hm
    obtain ⟨h1, h2⟩ := nodeOf_adjust hold ho
    obtain ⟨h3, h4⟩ := nodeOf_adjust hnew hm
    exact ⟨o, m, rfl, h2, h4, h1, h3⟩

/-- `ExchangeEntries` が溜める書き込み。`p` は link count をそろえた後の parent -/
def exchangeWrites (now : Int) (r : RenameNames) (p : RenameParents)
    (source target : SwordFsInode) : List KvCmd :=
  let p := p.setOld (touchEntry now p.old)
  let p := p.setNew (touchEntry now p.new)
  KvCmd.hsetDirectory r.oldParentIno r.oldName ⟨r.oldName, target.kind, target.ino⟩ ::
    KvCmd.hsetDirectory r.newParentIno r.newName ⟨r.newName, source.kind, source.ino⟩ ::
    (p.writes ++ [KvCmd.setInode (movedTo now r.newParentIno source),
      KvCmd.setInode (movedTo now r.oldParentIno target)])

theorem exchange_view (now : Int) (hinv : (view s).Inv []) (hp : p.Loaded (view s) r)
    (he : (view s).entry r.oldKey = some (source.kind, source.ino))
    (he' : (view s).entry r.newKey = some (target.kind, target.ino))
    (hn : (view s).node source.ino = some (nodeOf source))
    (hn' : (view s).node target.ino = some (nodeOf target)) (hii : source.ino ≠ target.ino)
    (hod : p.old.isDir = true) (hnd : p.new.isDir = true) (h1 : r.oldParentIno ≠ source.ino)
    (h2 : r.newParentIno ≠ source.ino) (h3 : r.oldParentIno ≠ target.ino)
    (h4 : r.newParentIno ≠ target.ino) (hb : balanceParents p source target = .ok p') :
    view (applyAll (exchangeWrites now r p' source target) s) =
      (view s).exchange r.oldKey r.newKey source.ino target.ino := by
  obtain ⟨op, on, np, nn⟩ := r
  obtain ⟨hoi, hon, hni, hnn, hsame⟩ := hp
  simp only [RenameNames.oldKey, RenameNames.newKey] at *
  have hkk : (op, on) ≠ (np, nn) := by
    intro hc
    rw [hc, he'] at he
    exact hii (congrArg Prod.snd (Option.some.inj he)).symm
  have hentry : ((view s).exchange (op, on) (np, nn) source.ino target.ino).entry = _ :=
    exchange_entry
    (fun hc => by cases hc.symm.trans (shape_of_node hon))
    (fun hc => by cases hc.symm.trans (shape_of_node hnn))
    (shape_of_node hn) (shape_of_node hn') hii h1 h2 h3 h4 hkk
  have hold : 2 ≤ p.old.attr.nlink := hinv.two_le_nlink hon (isDir_iff_kind.mp hod)
  have hnew : 2 ≤ p.new.attr.nlink := hinv.two_le_nlink hnn (isDir_iff_kind.mp hnd)
  have hu1 : (view s).unname (op, on) = (view s).detach (op, on) source.kind (nodeOf p.old) :=
    unname_eq he hon
  have hent1 : ((view s).detach (op, on) source.kind (nodeOf p.old)).entry (np, nn) =
      some (target.kind, target.ino) := by
    rw [detach_entry, update_of_ne (Ne.symm hkk), he']
  cases hother : p.other with
  | none =>
    obtain rfl := balanceParents_alias hother hb
    obtain rfl : op = np := hsame.mp hother
    have hu2 := unname_eq hent1 (p := (nodeOf p'.old).drop source.kind)
      (update_self ..)
    have hnode := exchange_node ((congrArg (·.unname (op, nn)) hu1).trans hu2)
      (update_self ..)
      (update_self ..)
      (by simpa [h1.symm] using hn) (by simpa [h3.symm] using hn') hii h1 h2 h3 h4
    have hback : ((((nodeOf p'.old).drop source.kind).drop target.kind).gain source.kind).gain
        target.kind = nodeOf p'.old := by
      rw [Node.gain_comm, Node.gain_drop, Node.gain_drop]
      · exact Nat.lt_of_lt_of_le Nat.two_pos hold
      · unfold Node.drop nodeOf; dsimp only; split <;> omega
    simp only [exchangeWrites, RenameParents.setOld, RenameParents.setNew, RenameParents.writes,
      RenameParents.new, hother, Option.getD_none, List.cons_append, List.nil_append,
      applyAll_cons, applyAll_nil, view_setInode, view_hsetDirectory, touchEntry_ino,
      nodeOf_touchEntry, hoi]
    refine Namespace.ext ?_ (by rw [hentry]; rfl) (by rw [exchange_orphan]; rfl)
    rw [hnode, if_pos rfl, nodeOf_kind, nodeOf_kind, hback]
    simp [update_comm h1, update_comm h3, update_comm hii]
  | some new =>
    have hne : op ≠ np := fun hc => by rw [hsame.mpr hc] at hother; cases hother
    obtain rfl : p.new = new := by rw [RenameParents.new, hother]; rfl
    obtain ⟨o, m, rfl, hoo, hmo, hno, hnm⟩ := balanceParents_ne hother (by omega) (by omega) hb
    have hu2 := unname_eq hent1 (p := nodeOf p.new)
      ((update_of_ne (Ne.symm hne) ..).trans hnn)
    have hp₁ : (((view s).detach (op, on) source.kind (nodeOf p.old)).detach (np, nn) target.kind
        (nodeOf p.new)).node op = some ((nodeOf p.old).drop source.kind) :=
      (update_of_ne hne ..).trans (update_self ..)
    have hnode := exchange_node ((congrArg (·.unname (np, nn)) hu1).trans hu2) hp₁
      (update_self ..)
      (by simpa [h1.symm, h2.symm] using hn) (by simpa [h3.symm, h4.symm] using hn')
      hii h1 h2 h3 h4
    simp only [exchangeWrites, RenameParents.setOld, RenameParents.setNew, RenameParents.writes,
      RenameParents.new_some, List.cons_append, List.nil_append, applyAll_cons,
      applyAll_nil, view_setInode, view_hsetDirectory, touchEntry_ino, nodeOf_touchEntry,
      hoo.trans hoi, hmo.trans hni, hno, hnm]
    refine Namespace.ext ?_ (by rw [hentry]; rfl) (by rw [exchange_orphan]; rfl)
    rw [hnode, if_neg hne, nodeOf_kind, nodeOf_kind]
    simp [update_comm h1, update_comm h2, update_comm h3, update_comm h4, update_comm hii,
      update_comm hne]

theorem exchangeEntries_refines (hr : Recorded s) (ht : (view s).Tree) (hp : p.Loaded (view s) r)
    (hn : (view s).node source.ino = some (nodeOf source))
    (hn' : (view s).node target.ino = some (nodeOf target))
    (he : (view s).entry r.oldKey = some (source.kind, source.ino))
    (he' : (view s).entry r.newKey = some (target.kind, target.ino))
    (h : (exchangeEntries now steps r p source target).eval s [] = .ok (u, ws)) :
    Refines new s ws := by
  simp only [exchangeEntries, eval_bind_ok, eval_ofExcept_ok] at h
  obtain ⟨_, _, hpar, -, _, ⟨-, rfl⟩, -, _, ⟨-, rfl⟩, -, _, ⟨-, rfl⟩, -, _, ⟨-, rfl⟩, h⟩ := h
  obtain ⟨rfl, hod, hnd⟩ := checkParents_ok hpar
  split at h
  · obtain ⟨-, rfl⟩ := eval_pure_ok.mp h
    exact refines_nil s
  next hii =>
  simp only [eval_bind_ok, eval_ofExcept_ok, setInode_ok] at h
  obtain ⟨_, _, hdest, _, _, hdest', p', _, ⟨hb, rfl⟩, _, _, hrep, _, _, hrep', _, _, hstore, -, _,
    ⟨hs0, rfl⟩, ht0, rfl⟩ := h
  have hdo := ht.inv.isDir_holder he
  have hdn := ht.inv.isDir_holder he'
  obtain ⟨rfl, hav⟩ := checkDestination_ok hr ht hdn hdest
  obtain ⟨rfl, hav'⟩ := checkDestination_ok hr ht hdo hdest'
  obtain ⟨rfl, rfl⟩ := replaceEntry_ok hrep
  obtain ⟨rfl, rfl⟩ := replaceEntry_ok hrep'
  obtain ⟨rfl, hkeeps⟩ := RenameParents.store_ok hstore
  have hview := exchange_view now ht.inv hp he he' hn hn' hii hod hnd
    (isDir_ne hdo hn fun hk => by rw [hk] at he; exact ht.avoids_child he 0)
    (isDir_ne hdn hn fun hk => hav hk 0) (isDir_ne hdo hn' fun hk => hav' hk 0)
    (isDir_ne hdn hn' fun hk => by rw [hk] at he'; exact ht.avoids_child he' 0) hb
  have heff : Effect s (exchangeWrites now r p' source target)
      ((view s).exchange r.oldKey r.newKey source.ino target.ino) := by
    refine ⟨hview, fun c hc => ?_⟩
    simp only [exchangeWrites, List.mem_cons, List.mem_append, List.not_mem_nil, or_false] at hc
    rcases hc with rfl | rfl | hc | rfl | rfl
    · exact keepsRecord_of_key (by simp)
    · exact keepsRecord_of_key (by simp)
    · exact hkeeps c hc
    · exact keepsRecord_setInode hs0
    · exact keepsRecord_setInode ht0
  have hlist : Refines new s _ := heff.refines (.exchange he he' hii hav hav')
  simpa [exchangeWrites, movedTo] using hlist

end Exchange

end SwordFS.Metadata
