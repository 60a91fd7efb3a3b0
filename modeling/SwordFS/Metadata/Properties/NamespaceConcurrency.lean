import SwordFS.Infra.Occ
import SwordFS.Metadata.Properties.NamespaceInvariant

/-!
# 並行な client の下での directory の木

任意個の client が namespace の transaction を WATCH、読み、EXEC に分けて進めるとき、
どの時点の store も木であることを示す。EXEC の成功は原子的な実行に等しい（`Infra.Occ`）ので、
残るのは inode 番号の扱いである。番号は transaction の前に INCR で取られ、やり直しでは同じ番号を使う。

主な定理は `directory_tree_concurrent` である。
-/

namespace SwordFS.Metadata

open Infra Function

/-! ## system -/

/-- 実行中の client と、INCR で取った inode 番号 -/
structure NamespaceSystem (ι : Type) where
  cluster : Cluster ι NamespaceOp Key Val Status Unit
  /-- key `next_ino` の値 -/
  nextIno : InodeID
  /-- client が取り、まだ commit していない番号 -/
  reserved : ι → Option InodeID

/-- client の動き。`lostAllocation` は応答の失われた INCR -/
inductive NamespaceEvent (ι : Type) where
  | allocateInode (i : ι)
  | lostAllocation
  | start (i : ι) (op : NamespaceOp)
  | discard (i : ι)
  | watch (i : ι) (k : Key)
  | get (i : ι)
  | exec (i : ι)

namespace NamespaceSystem

def formatted (ι : Type) (now : Int) (uid gid : Nat) : NamespaceSystem ι where
  cluster := { server := ⟨formattedStore now uid gid, fun _ => 0⟩, running := fun _ => none }
  nextIno := kRootInodeId
  reserved := fun _ => none

variable {ι : Type} [DecidableEq ι]

/-- client が使ってよい操作。新しい inode の番号は自分の取ったものに限る -/
def mayStart (S : NamespaceSystem ι) (i : ι) (op : NamespaceOp) : Bool :=
  op.newIno.isNone || op.newIno == S.reserved i

def send (S : NamespaceSystem ι) (e : Event ι NamespaceOp Key Val) : NamespaceSystem ι :=
  { S with cluster := S.cluster.step NamespaceOp.txn e }

/-- 一つの動き。番号は call の初めに取られ、commit した番号は二度と使わない -/
def step (S : NamespaceSystem ι) : NamespaceEvent ι → NamespaceSystem ι
  | .allocateInode i =>
    { S.send (.discard i) with
      nextIno := S.nextIno + 1
      reserved := update S.reserved i (some (S.nextIno + 1)) }
  | .lostAllocation => { S with nextIno := S.nextIno + 1 }
  | .start i op => if S.mayStart i op then S.send (.start i op) else S
  | .discard i => S.send (.discard i)
  | .watch i k => S.send (.watch i k)
  | .get i => S.send (.get i)
  | .exec i =>
    { S.send (.exec i) with
      reserved := if (S.cluster.exec? i).isSome then update S.reserved i none
        else S.reserved }

def run (S : NamespaceSystem ι) (es : List (NamespaceEvent ι)) : NamespaceSystem ι :=
  es.foldl step S

def store (S : NamespaceSystem ι) : Redis := S.cluster.server.store

/-! ## 不変条件 -/

/-- run のどの時点でも成り立つ条件 -/
structure Inv (S : NamespaceSystem ι) : Prop where
  ok : NamespaceOk S.store
  attempts : S.cluster.Ok NamespaceOp.txn
  /-- 試行中の操作の新しい番号は、その client が取ったもの -/
  owned : ∀ i op a, S.cluster.running i = some (op, a) →
    ∀ x, op.newIno = some x → S.reserved i = some x
  /-- 取った番号はまだ使われていない -/
  unused : ∀ i x, S.reserved i = some x → S.store (.inode x) = none ∧ x ≤ S.nextIno
  distinct : ∀ i j x, S.reserved i = some x → S.reserved j = some x → i = j
  bounded : ∀ x, S.store (.inode x) ≠ none → x ≤ S.nextIno

omit [DecidableEq ι] in
theorem inv_formatted (now : Int) (uid gid : Nat) : (formatted ι now uid gid).Inv where
  ok := namespaceOk_formattedStore now uid gid
  attempts := fun _ _ _ h => nomatch h
  owned := fun _ _ _ h => nomatch h
  unused := fun _ _ h => nomatch h
  distinct := fun _ _ _ h => nomatch h
  bounded := fun x hx => by
    by_cases h : x = kRootInodeId
    · exact h.le
    · exact absurd (if_neg h) hx

variable {S : NamespaceSystem ι} {i : ι}

section

variable (h : S.Inv)
include h

theorem Inv.send (hs : (S.send e).store = S.store)
    (ho : ∀ j op a, (S.send e).cluster.running j = some (op, a) →
      ∀ x, op.newIno = some x → S.reserved j = some x) : (S.send e).Inv where
  ok := hs ▸ h.ok
  attempts := h.attempts.step e
  owned := ho
  unused := hs ▸ h.unused
  distinct := h.distinct
  bounded := hs ▸ h.bounded

theorem owned_setRunning
    (hr : ∀ op a, r = some (op, a) → ∀ x, op.newIno = some x → S.reserved i = some x) (j : ι)
    (op : NamespaceOp) (a : Attempt Key Val Status Unit)
    (hj : (S.cluster.setRunning i r).running j = some (op, a)) (x : InodeID)
    (hx : op.newIno = some x) : S.reserved j = some x := by
  by_cases hji : j = i
  · subst hji
    exact hr op a (by simpa [Cluster.setRunning] using hj) x hx
  · exact h.owned j op a (by simpa [Cluster.setRunning, hji] using hj) x hx

theorem Inv.discard (i : ι) : (S.send (.discard i)).Inv :=
  h.send rfl (owned_setRunning h fun _ _ hr => (nomatch hr))

theorem Inv.advance
    (he : S.cluster.step NamespaceOp.txn e = S.cluster.advance i f) : (S.send e).Inv := by
  have hc : (S.send e).cluster = S.cluster.advance i f := he
  refine h.send ?_ fun j op a hj => ?_
  · rw [NamespaceSystem.store, hc]
    rfl
  · rw [hc] at hj
    refine owned_setRunning h (fun op a hr => ?_) j op a hj
    obtain ⟨⟨op', a'⟩, hi, heq⟩ := Option.map_eq_some_iff.mp hr
    cases heq
    exact h.owned i op' a' hi

/-- EXEC。成功すれば transaction が原子的に実行され、取った番号は使われたものになる -/
theorem Inv.exec (i : ι) : (S.step (.exec i)).Inv := by
  have howned : ∀ j op a, (S.step (.exec i)).cluster.running j = some (op, a) →
      j ≠ i ∧ S.cluster.running j = some (op, a) := by
    intro j op a hj
    by_cases hji : j = i
    · subst hji
      simp [NamespaceSystem.step, NamespaceSystem.send, Cluster.step] at hj
    · exact ⟨hji, by
        simpa [NamespaceSystem.step, NamespaceSystem.send, Cluster.step, hji] using hj⟩
  have hatt : (S.step (.exec i)).cluster.Ok NamespaceOp.txn := h.attempts.step (.exec i)
  cases he : S.cluster.exec? i with
  | none =>
    have hs : (S.step (.exec i)).store = S.store := by
      simp [NamespaceSystem.store, NamespaceSystem.step, NamespaceSystem.send, Cluster.step, he]
    have hres : (S.step (.exec i)).reserved = S.reserved := by
      simp [NamespaceSystem.step, he]
    refine ⟨hs ▸ h.ok, hatt, fun j op a hj => ?_, ?_, ?_, ?_⟩
    · rw [hres]
      exact h.owned j op a (howned j op a hj).2
    · rw [hs, hres]
      exact h.unused
    · rw [hres]
      exact h.distinct
    · rw [hs]
      exact h.bounded
  | some r =>
    obtain ⟨u, ws⟩ := r
    obtain ⟨op, a, hrun, heval⟩ := h.attempts.exec he
    have hs : (S.step (.exec i)).store = Cmd.applyAll ws S.store := by
      simp [NamespaceSystem.store, NamespaceSystem.step, NamespaceSystem.send, Cluster.step, he]
    have hres : (S.step (.exec i)).reserved = update S.reserved i none := by
      simp [NamespaceSystem.step, he]
    have hfresh : ∀ x, op.newIno = some x → S.store (.inode x) = none := fun x hx =>
      (h.unused i x (h.owned i op a hrun x hx)).1
    have hcommit : (op.txn.commit S.store).2 = Cmd.applyAll ws S.store :=
      congrArg Prod.snd (Txn.commit_ok_iff.mpr ⟨ws, heval, rfl⟩)
    obtain ⟨hok, hnew⟩ := h.ok.commit hfresh
    rw [hcommit, ← hs] at hok hnew
    -- 残った番号は、commit した番号と異なる
    have hother : ∀ j x, (S.step (.exec i)).reserved j = some x →
        j ≠ i ∧ S.reserved j = some x := by
      intro j x hj
      rw [hres] at hj
      by_cases hji : j = i
      · subst hji; simp at hj
      · exact ⟨hji, by simpa [hji] using hj⟩
    refine ⟨hok, hatt, fun j op a hj x hx => ?_, fun j x hj => ?_, fun j k x hj hk => ?_,
      fun x hx => ?_⟩
    · obtain ⟨hji, hj⟩ := howned j op a hj
      rw [hres, update_of_ne hji]
      exact h.owned j op a hj x hx
    · obtain ⟨hji, hj⟩ := hother j x hj
      obtain ⟨hn, hle⟩ := h.unused j x hj
      refine ⟨?_, hle⟩
      by_contra hc
      rcases hnew x hc with hc | hc
      · exact hc hn
      · exact hji (h.distinct j i x hj (h.owned i op a hrun x hc))
    · exact h.distinct j k x (hother j x hj).2 (hother k x hk).2
    · rcases hnew x hx with hx | hx
      · exact h.bounded x hx
      · exact (h.unused i x (h.owned i op a hrun x hx)).2

theorem Inv.allocateInode (i : ι) : (S.step (.allocateInode i)).Inv := by
  have hd := h.discard i
  have hfresh : ∀ j x, S.reserved j = some x → x ≠ S.nextIno + 1 := fun j x hj hc =>
    absurd (h.unused j x hj).2 (by rw [hc]; exact Nat.not_succ_le_self _)
  have hother : ∀ j x, update S.reserved i (some (S.nextIno + 1)) j = some x →
      j = i ∧ x = S.nextIno + 1 ∨ j ≠ i ∧ S.reserved j = some x := by
    intro j x hj
    by_cases hji : j = i
    · subst hji
      exact .inl ⟨rfl, by simpa [eq_comm] using hj⟩
    · exact .inr ⟨hji, by simpa [hji] using hj⟩
  refine ⟨hd.ok, hd.attempts, fun j op a hj x hx => ?_, fun j x hj => ?_, fun j k x hj hk => ?_,
    fun x hx => (h.bounded x hx).trans (Nat.le_succ _)⟩
  · have hji : j ≠ i := by
      rintro rfl
      simp [NamespaceSystem.step, NamespaceSystem.send, Cluster.step, Cluster.setRunning] at hj
    exact (update_of_ne hji ..).trans (hd.owned j op a hj x hx)
  · rcases hother j x hj with ⟨-, rfl⟩ | ⟨-, hj⟩
    · refine ⟨?_, le_rfl⟩
      by_contra hc
      exact absurd (h.bounded _ hc) (Nat.not_succ_le_self _)
    · exact ⟨(h.unused j x hj).1, (h.unused j x hj).2.trans (Nat.le_succ _)⟩
  · rcases hother j x hj with ⟨hji, hx⟩ | ⟨-, hj⟩ <;>
      rcases hother k x hk with ⟨hki, hx'⟩ | ⟨-, hk⟩
    · exact hji.trans hki.symm
    · exact absurd hx (hfresh k x hk)
    · exact absurd hx' (hfresh j x hj)
    · exact h.distinct j k x hj hk

theorem Inv.step (e : NamespaceEvent ι) : (S.step e).Inv := by
  cases e with
  | allocateInode i => exact h.allocateInode i
  | lostAllocation =>
    exact ⟨h.ok, h.attempts, h.owned,
      fun j x hj => ⟨(h.unused j x hj).1, (h.unused j x hj).2.trans (Nat.le_succ _)⟩,
      h.distinct, fun x hx => (h.bounded x hx).trans (Nat.le_succ _)⟩
  | start i op =>
    unfold NamespaceSystem.step
    dsimp only
    split
    · next hmay =>
      refine h.send rfl (owned_setRunning h fun op' a hr x hx => ?_)
      cases hr
      simp only [mayStart, hx, Option.isNone_some, Bool.false_or, beq_iff_eq] at hmay
      exact hmay.symm
    · exact h
  | discard i => exact h.discard i
  | watch i k => exact h.advance rfl
  | get i => exact h.advance rfl
  | exec i => exact h.exec i

theorem Inv.run (es : List (NamespaceEvent ι)) : (S.run es).Inv := by
  induction es generalizing S with
  | nil => exact h
  | cons e es ih => exact ih (h.step e)

end

end NamespaceSystem

/-! ## 木としての性質 -/

def HasEntry (s : Redis) (a b : InodeID) : Prop :=
  ∃ name e, (s (.directory a)).lookup name = some e ∧ e.ino = b

def HasSubdirectory (s : Redis) (a b : InodeID) : Prop :=
  ∃ name e n, (s (.directory a)).lookup name = some e ∧ e.ino = b ∧ s (.inode b) = some n ∧
    n.isDir = true

section

variable {s : Redis} {a b d : InodeID} {n : SwordFsInode} {steps : Nat}

theorem view_isDir_iff : (view s).IsDir d ↔ ∃ n, s (.inode d) = some n ∧ n.isDir = true := by
  constructor
  · rintro ⟨q, hq⟩
    obtain ⟨m, hm, hk, -⟩ := Namespace.node_of_shape hq
    obtain ⟨n, hn, rfl⟩ := Option.map_eq_some_iff.mp hm
    exact ⟨n, hn, isDir_iff_kind.mpr hk⟩
  · rintro ⟨n, hn, hd⟩
    have hk : (nodeOf n).kind = .dir := isDir_iff_kind.mp hd
    exact ⟨n.parentIno, by rw [Namespace.shape_of_node (view_node hn), hk]; rfl⟩

section

variable (ht : (view s).Tree)
include ht

theorem isDir_of_hasEntry (h : HasEntry s a b) : (view s).IsDir a := by
  obtain ⟨name, e, he, -⟩ := h
  exact ht.inv.isDir_holder (view_entry he)

theorem child_of_hasEntry (h : HasEntry s a b) (hb : (view s).IsDir b) : (view s).Child a b := by
  obtain ⟨name, e, he, rfl⟩ := h
  obtain ⟨q, hq⟩ := hb
  obtain ⟨q', hq', -⟩ := ht.inv.shape_target (view_entry he)
  have hk : e.type = .dir := by
    rw [hq] at hq'
    exact (congrArg Prod.fst (Option.some.inj hq')).symm
  exact ⟨name, by rw [view_entry he, hk]⟩

/-- entry を辿って directory に着くまでの途中は、すべて directory -/
theorem transGen_child (h : Relation.TransGen (HasEntry s) a b)
    (hb : (view s).IsDir b) : Relation.TransGen (view s).Child a b := by
  induction h with
  | single h => exact .single (child_of_hasEntry ht h hb)
  | tail _ h ih => exact .tail (ih (isDir_of_hasEntry ht h)) (child_of_hasEntry ht h hb)

theorem hasSubdirectory_of_child (h : (view s).Child a b) : HasSubdirectory s a b := by
  obtain ⟨name, he⟩ := h
  obtain ⟨q, hq, -⟩ := ht.inv.shape_target he
  obtain ⟨n, hn, hd⟩ := view_isDir_iff.mp ⟨q, hq⟩
  obtain ⟨e, he', heq⟩ := Option.map_eq_some_iff.mp he
  exact ⟨name, e, n, he', congrArg Prod.snd heq, hn, hd⟩

end

/-! ## 祖先を辿る loop -/

theorem ancestorWalk_succ (hr : Recorded s) (hn : s (.inode d) = some n) (hv : d ∉ visited) :
    (ancestorWalk a (steps + 1) visited d).eval s [] =
      if d = a then .ok (true, [])
      else if n.parentIno = d then .ok (false, [])
      else (ancestorWalk a steps (d :: visited) n.parentIno).eval s [] := by
  obtain ⟨hi, h0⟩ := hr d n hn
  have hlook : (lookupInode d).eval s [] = .ok (n, []) :=
    lookupInode_ok.mpr ⟨hn, hi ▸ h0, rfl, rfl⟩
  rw [ancestorWalk, if_neg h0, if_neg hv]
  split
  · rfl
  · rw [Txn.eval_bind, hlook]
    simp only [Except.bind]
    split <;> rfl

/-- 木の上では loop は必ず終わる。通った directory はどれも今の directory の子孫 -/
theorem ancestorWalk_returns (hr : Recorded s) (ht : (view s).Tree)
    (hd : Reaches (view s).par kRootInodeId d) : ∀ visited : List InodeID,
    (view s).IsDir d →
    (∀ v ∈ visited, (view s).IsDir v ∧ v ≠ kRootInodeId ∧ ∃ m, (view s).par^[m + 1] v = d) →
    ∃ bound result, ∀ steps, bound ≤ steps →
      (ancestorWalk a steps visited d).eval s [] = .ok (result, []) := by
  -- 子孫でもある祖先は無い
  have hnotin : ∀ (d : InodeID) (visited : List InodeID),
      (∀ v ∈ visited, (view s).IsDir v ∧ v ≠ kRootInodeId ∧ ∃ m, (view s).par^[m + 1] v = d) →
      d ∉ visited := by
    intro d visited hv hmem
    obtain ⟨hdv, hne, m, hm⟩ := hv d hmem
    exact (ht.rooted d hdv).iterate_ne_self ht.inv.par_root hne m hm
  induction hd with
  | root =>
    intro visited hdir hv
    obtain ⟨n, hn⟩ := inode_of_isDir hdir
    have hp : n.parentIno = kRootInodeId := (view_par hn).symm.trans ht.inv.par_root
    refine ⟨1, decide (kRootInodeId = a), fun steps hsteps => ?_⟩
    obtain ⟨k, rfl⟩ := Nat.exists_eq_add_of_le' hsteps
    rw [ancestorWalk_succ hr hn (hnotin _ _ hv), if_pos hp]
    split
    · next h => rw [decide_eq_true h]
    · next h => rw [decide_eq_false h]
  | @step d _ ih =>
    intro visited hdir hv
    obtain ⟨n, hn⟩ := inode_of_isDir hdir
    have hp : (view s).par d = n.parentIno := view_par hn
    have hnv : d ∉ visited := hnotin _ _ hv
    by_cases hda : d = a
    · refine ⟨1, true, fun steps hsteps => ?_⟩
      obtain ⟨k, rfl⟩ := Nat.exists_eq_add_of_le' hsteps
      rw [ancestorWalk_succ hr hn hnv, if_pos hda]
    by_cases hself : n.parentIno = d
    · refine ⟨1, false, fun steps hsteps => ?_⟩
      obtain ⟨k, rfl⟩ := Nat.exists_eq_add_of_le' hsteps
      rw [ancestorWalk_succ hr hn hnv, if_neg hda, if_pos hself]
    have hroot : d ≠ kRootInodeId := by
      rintro rfl
      exact hself (hp.symm.trans ht.inv.par_root)
    obtain ⟨bound, result, hih⟩ := ih (d :: visited) (ht.inv.isDir_par hdir) (by
      refine List.forall_mem_cons.mpr ⟨⟨hdir, hroot, 0, rfl⟩, fun v hvm => ?_⟩
      obtain ⟨hvd, hvr, m, hm⟩ := hv v hvm
      exact ⟨hvd, hvr, m + 1, by rw [iterate_succ_apply', hm]⟩)
    refine ⟨bound + 1, result, fun steps hsteps => ?_⟩
    obtain ⟨k, rfl⟩ := Nat.exists_eq_add_of_le' ((Nat.le_add_left 1 bound).trans hsteps)
    rw [ancestorWalk_succ hr hn hnv, if_neg hda, if_neg hself, ← hp]
    exact hih k (Nat.le_of_succ_le_succ hsteps)

end

/--
任意個の client が namespace の transaction を任意の順に進めて得られる store には、
directory の cycle が無く、どの directory も root から entry で辿れ、
`IsDescendantOf` の loop は cycle を報告せずに終わる。
-/
theorem directory_tree_concurrent {ι : Type} [DecidableEq ι] (now : Int) (uid gid : Nat)
    (es : List (NamespaceEvent ι)) :
    let s := ((NamespaceSystem.formatted ι now uid gid).run es).store
    (∀ d, ¬ Relation.TransGen (HasEntry s) d d) ∧
    (∀ d n, s (.inode d) = some n → n.isDir = true →
      Relation.ReflTransGen (HasSubdirectory s) kRootInodeId d) ∧
    (∀ ancestor d n, s (.inode d) = some n → n.isDir = true →
      ∃ bound result, ∀ steps, bound ≤ steps →
        (isDescendantOf steps ancestor d).eval s [] = .ok (result, [])) := by
  intro s
  obtain ⟨hr, ht⟩ := ((NamespaceSystem.inv_formatted now uid gid).run es).ok
  refine ⟨fun d hc => ?_, fun d n hn hd => ?_, fun ancestor d n hn hd => ?_⟩
  · obtain ⟨b, hb, -⟩ := Relation.TransGen.head'_iff.mp hc
    exact ht.acyclic d (transGen_child ht hc (isDir_of_hasEntry ht hb))
  · exact Relation.ReflTransGen.mono (fun a b => hasSubdirectory_of_child ht) _ _
      (ht.reachable (view_isDir_iff.mpr ⟨n, hn, hd⟩))
  · have hdir := view_isDir_iff.mpr ⟨n, hn, hd⟩
    exact ancestorWalk_returns hr ht (ht.rooted d hdir) [] hdir
      fun v hv => absurd hv List.not_mem_nil

end SwordFS.Metadata
