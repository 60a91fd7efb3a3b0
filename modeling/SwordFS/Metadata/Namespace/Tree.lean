import Mathlib.Logic.Relation
import SwordFS.Metadata.Namespace.Ops

/-!
# directory の木

すべての directory が親を辿って root に着くことを、`Inv` と合わせて `Tree` とする。
directory を自分の子孫へ移さない限り、どの操作も `Tree` を保つ。
-/

namespace SwordFS.Metadata.Namespace

open Infra Function

variable (N : Namespace)

def par (j : InodeID) : InodeID := ((N.shape j).map Prod.snd).getD j

def IsDir (j : InodeID) : Prop := ∃ q, N.shape j = some (.dir, q)

/-- 整合した namespace で、すべての directory が root から辿れる -/
structure Tree : Prop where
  inv : N.Inv []
  rooted : ∀ j, N.IsDir j → Reaches N.par kRootInodeId j

variable {N} {N' : Namespace} {k k' : EntryKey} {kind kind' : Dt} {i i' j q : InodeID} {n : Node}

theorem par_eq (h : N.shape j = some (kind, q)) : N.par j = q := by rw [par, h]; rfl

namespace Inv

section

variable (h : N.Inv [])
include h

theorem isDir_holder (he : N.entry k = some (kind, i)) : N.IsDir k.1 := by
  obtain ⟨p, hp, hpd⟩ := h.holder k _ he
  exact ⟨p.parent, by rw [shape_of_node hp, hpd]⟩

theorem shape_target (he : N.entry k = some (kind, i)) :
    ∃ q, N.shape i = some (kind, q) ∧ (kind = .dir → q = k.1) := by
  obtain ⟨n, hn, hnk, hnp⟩ := h.target k _ he
  exact ⟨n.parent, by rw [shape_of_node hn, hnk], fun hd => hnp (hnk.trans hd)⟩

theorem shape_root : N.shape kRootInodeId = some (.dir, kRootInodeId) := by
  obtain ⟨n, hn, hk, hp⟩ := h.root
  rw [shape_of_node hn, hk, hp]

theorem links_dir (hj : N.shape j = some (.dir, q)) (hr : j ≠ kRootInodeId) :
    ∃ name, N.links j = {(q, name)} ∧ N.entry (q, name) = some (.dir, j) := by
  obtain ⟨n, hn, hnk, hnp⟩ := node_of_shape hj
  have hc := h.counted j n hn
  rw [wanted, if_pos hnk, if_neg hr, List.count_nil, Nat.cast_zero, add_zero, Nat.cast_one] at hc
  obtain ⟨k, hk⟩ := Set.encard_eq_one.mp hc
  obtain ⟨⟨kd, i⟩, he, rfl⟩ : k ∈ N.links j := by rw [hk]; rfl
  obtain ⟨m, hm, hmk, hmp⟩ := h.target k _ he
  obtain rfl : m = n := Option.some.inj (hm.symm.trans hn)
  obtain rfl : q = k.1 := hnp.symm.trans (hmp hnk)
  obtain rfl : kd = .dir := hmk.symm.trans hnk
  exact ⟨k.2, hk, he⟩

theorem ne_root (he : N.entry k = some (kind, i)) : i ≠ kRootInodeId := by
  rintro rfl
  obtain ⟨n, hn, hk, -⟩ := h.root
  have hc := h.counted _ n hn
  rw [wanted, if_pos hk, if_pos rfl, List.count_nil, Nat.cast_zero, add_zero] at hc
  have : k ∈ N.links kRootInodeId := ⟨_, he, rfl⟩
  rw [Set.encard_eq_zero.mp hc] at this
  exact Set.notMem_empty _ this

theorem isDir_par (hj : N.IsDir j) : N.IsDir (N.par j) := by
  obtain ⟨q, hq⟩ := hj
  rw [par_eq hq]
  by_cases hr : j = kRootInodeId
  · subst hr
    obtain rfl : kRootInodeId = q := by
      have := h.shape_root.symm.trans hq
      exact congrArg Prod.snd (Option.some.inj this)
    exact ⟨_, hq⟩
  · obtain ⟨name, -, he⟩ := h.links_dir hq hr
    exact h.isDir_holder he

theorem isDir_iterate (hj : N.IsDir j) : ∀ m, N.IsDir (N.par^[m] j)
  | 0 => hj
  | m + 1 => by
    rw [iterate_succ_apply']
    exact h.isDir_par (isDir_iterate hj m)

theorem par_root : N.par kRootInodeId = kRootInodeId := par_eq h.shape_root

theorem avoids_of_not_isDir (hi : ¬ N.IsDir i) (hj : N.IsDir j) (m : Nat) :
    N.par^[m] j ≠ i := fun he => hi (he ▸ h.isDir_iterate hj m)

end

end Inv

theorem not_isDir_of_shape (h : N.shape i = some (kind, q)) (hk : kind ≠ .dir) : ¬ N.IsDir i := by
  rintro ⟨q', h'⟩
  rw [h] at h'
  exact hk (congrArg Prod.fst (Option.some.inj h'))

theorem not_isDir_of_absent (h : N.node i = none) : ¬ N.IsDir i := by
  rintro ⟨q, hq⟩
  rw [shape, h] at hq
  cases hq

namespace Tree

section

variable (h : N.Tree)
include h

theorem avoids_child (he : N.entry k = some (.dir, i)) (m : Nat) : N.par^[m] k.1 ≠ i := by
  obtain ⟨q, hq, hqk⟩ := h.inv.shape_target he
  obtain rfl := hqk rfl
  have hp : N.par i = k.1 := par_eq hq
  rw [← hp, ← iterate_succ_apply]
  exact (h.rooted i ⟨_, hq⟩).iterate_ne_self h.inv.par_root (h.inv.ne_root he) m

/--
`S` の外の形が同じ namespace への変化。`S` の directory は、`S` を通らない鎖の下に置かれる。
-/
theorem rooted_of_change {S : Set InodeID} (hout : ∀ j, j ∉ S → N'.shape j = N.shape j)
    (hin : ∀ j q, j ∈ S → N'.shape j = some (.dir, q) → N.IsDir q ∧ ∀ m, N.par^[m] q ∉ S)
    (hkeep : ∀ j q, N.shape j = some (.dir, q) → q ∈ S → N'.IsDir q) (j : InodeID)
    (hj : N'.IsDir j) : Reaches N'.par kRootInodeId j := by
  have hpar : ∀ x, x ∉ S → N'.par x = N.par x := fun x hx => by rw [par, par, hout x hx]
  -- `S` の directory は新しい親から root に着く
  have hS : ∀ x, N'.IsDir x → x ∈ S → Reaches N'.par kRootInodeId (N'.par x) := by
    rintro x ⟨q, hq⟩ hx
    obtain ⟨hd, hav⟩ := hin x q hx hq
    rw [par_eq hq]
    exact (h.rooted q hd).of_avoids hpar hav
  by_cases hjS : j ∈ S
  · exact .step (hS j hj hjS)
  · have hjN : N.IsDir j := by obtain ⟨q, hq⟩ := hj; exact ⟨q, by rw [← hout j hjS, hq]⟩
    refine (h.rooted j hjN).of_moved (S := S) (D := fun x => N.IsDir x ∧ (x ∈ S → N'.IsDir x)) ?_
      (fun x _ hx => hpar x hx) (fun x hx hxS => hS x (hx.2 hxS) hxS) ⟨hjN, fun hc => absurd hc hjS⟩
    rintro x ⟨⟨q, hq⟩, -⟩
    refine ⟨h.inv.isDir_par ⟨q, hq⟩, fun hS => ?_⟩
    rw [par_eq hq] at hS ⊢
    exact hkeep x q hq hS

theorem rooted_of_shape_eq (hs : ∀ j, N'.shape j = N.shape j) (j : InodeID)
    (hj : N'.IsDir j) : Reaches N'.par kRootInodeId j :=
  h.rooted_of_change (S := ∅) (fun j _ => hs j) (fun _ _ hj => absurd hj (Set.notMem_empty _))
    (fun _ _ _ hq => absurd hq (Set.notMem_empty _)) j hj

theorem create (ha : N.node i = none) (he : N.entry k = none)
    (hp : N.IsDir k.1) (hl : n.nlink = if n.kind = .dir then 2 else 1)
    (hpar : n.kind = .dir → n.parent = k.1) : (N.create k i n).Tree := by
  have hnd := not_isDir_of_absent ha
  obtain ⟨r, hr⟩ := hp
  refine ⟨h.inv.create ha he hr hl hpar, h.rooted_of_change (S := {i}) (fun j hj => ?_)
    (fun j q hj hq => ?_) fun j q hq hqi => ?_⟩
  · rw [Namespace.create, shape_name, shape, shape, setNode_node, update_of_ne hj]
  · obtain rfl := Set.mem_singleton_iff.mp hj
    have hs : (N.create k j n).shape j = some (n.kind, n.parent) := by
      rw [Namespace.create, shape_name]
      exact shape_of_node (update_self ..)
    rw [hs] at hq
    have hq := Option.some.inj hq
    obtain rfl : k.1 = q := (hpar (congrArg Prod.fst hq)).symm.trans (congrArg Prod.snd hq)
    exact ⟨⟨r, hr⟩, h.inv.avoids_of_not_isDir hnd ⟨r, hr⟩⟩
  · obtain rfl := Set.mem_singleton_iff.mp hqi
    exact absurd (par_eq hq ▸ h.inv.isDir_par ⟨q, hq⟩) hnd

theorem link (he : N.entry k = none) (hp : N.IsDir k.1)
    (hn : N.shape i = some (kind, q)) (hk : kind ≠ .dir) : (N.link k i).Tree := by
  obtain ⟨r, hr⟩ := hp
  exact ⟨h.inv.link he hr hn hk, h.rooted_of_shape_eq fun j => by
    rw [Namespace.link, shape_name, shape_takeLink]⟩

theorem unlink (he : N.entry k = some (kind, i)) (hk : kind ≠ .dir) : (N.unlink k i).Tree :=
  ⟨h.inv.unlink he hk, h.rooted_of_shape_eq fun j => by
    rw [Namespace.unlink, shape_dropLink, shape_unname]⟩

theorem rooted_of_forget (hno : ∀ j, N.shape j ≠ some (.dir, i))
    (hs : ∀ j, N'.shape j = if j = i then none else N.shape j) (j : InodeID)
    (hj : N'.IsDir j) : Reaches N'.par kRootInodeId j := by
  refine h.rooted_of_change (S := {i}) (fun j hj => ?_) (fun j q hj hq => ?_)
    (fun j q hq hqi => ?_) j hj
  · rw [hs, if_neg (Set.notMem_singleton_iff.mp hj)]
  · obtain rfl := Set.mem_singleton_iff.mp hj
    rw [hs, if_pos rfl] at hq
    cases hq
  · obtain rfl := Set.mem_singleton_iff.mp hqi
    exact absurd hq (hno j)

theorem rmdir (he : N.entry k = some (.dir, i))
    (hempty : ∀ name, N.entry (i, name) = none) : (N.rmdir k i).Tree := by
  refine ⟨h.inv.rmdir he hempty, h.rooted_of_forget (i := i) (fun j hj => ?_) fun j => ?_⟩
  · by_cases hr : j = kRootInodeId
    · subst hr
      rw [h.inv.shape_root] at hj
      exact h.inv.ne_root he (congrArg Prod.snd (Option.some.inj hj)).symm
    · obtain ⟨name, -, hn⟩ := h.inv.links_dir hj hr
      rw [hempty] at hn
      cases hn
  · rw [Namespace.rmdir, shape_forget, shape_unname]

theorem forgetFile (hn : N.node i = some n) (hk : n.kind ≠ .dir)
    (hl : n.nlink = 0) : (N.forget i).Tree := by
  refine ⟨h.inv.forgetFile hn hk hl,
    h.rooted_of_forget (i := i) (fun j hj => ?_) fun j => shape_forget⟩
  have := h.inv.isDir_par ⟨_, hj⟩
  rw [par_eq hj] at this
  exact not_isDir_of_shape (shape_of_node hn) hk this

theorem move (he : N.entry k = some (kind, i)) (he' : N.entry k' = none) (hp : N.IsDir k'.1)
    (hav : kind = .dir → ∀ m, N.par^[m] k'.1 ≠ i) : (N.move k k' i).Tree := by
  obtain ⟨q, hq, -⟩ := h.inv.shape_target he
  -- file なら directory の鎖に現れない
  have hav' : ∀ m, N.par^[m] k'.1 ≠ i := by
    by_cases hd : kind = .dir
    · exact hav hd
    · exact h.inv.avoids_of_not_isDir (not_isDir_of_shape hq hd) hp
  have hs : (N.move k k' i).shape i = some (kind, k'.1) := by
    rw [Namespace.move, shape_name, shape_adopt, if_pos rfl, shape_unname, hq]; rfl
  obtain ⟨r, hr⟩ := hp
  refine ⟨h.inv.move he he' hr (hav' 0), h.rooted_of_change (S := {i}) (fun j hj => ?_)
    (fun j p hj hp => ?_) fun j p hp hpi => ?_⟩
  · rw [Namespace.move, shape_name, shape_adopt, if_neg (Set.notMem_singleton_iff.mp hj),
      shape_unname]
  · obtain rfl := Set.mem_singleton_iff.mp hj
    rw [hs] at hp
    obtain rfl : k'.1 = p := congrArg Prod.snd (Option.some.inj hp)
    exact ⟨⟨r, hr⟩, hav'⟩
  · obtain rfl := Set.mem_singleton_iff.mp hpi
    obtain ⟨x, hx⟩ := par_eq hp ▸ h.inv.isDir_par ⟨p, hp⟩
    rw [hq] at hx
    obtain rfl : kind = .dir := congrArg Prod.fst (Option.some.inj hx)
    exact ⟨_, hs⟩

theorem exchange (he : N.entry k = some (kind, i)) (he' : N.entry k' = some (kind', i'))
    (hne : i ≠ i') (hav : kind = .dir → ∀ m, N.par^[m] k'.1 ≠ i)
    (hav' : kind' = .dir → ∀ m, N.par^[m] k.1 ≠ i') : (N.exchange k k' i i').Tree := by
  obtain ⟨q, hq, -⟩ := h.inv.shape_target he
  obtain ⟨q', hq', -⟩ := h.inv.shape_target he'
  have hp := h.inv.isDir_holder he
  have hp' := h.inv.isDir_holder he'
  -- 二つの parent の鎖は、動かす inode のどちらも通らない
  have havoid {kind i q c} (hs : N.shape i = some (kind, q)) (hc : N.IsDir c)
      (hd : kind = .dir → ∀ m, N.par^[m] c ≠ i) (m : Nat) : N.par^[m] c ≠ i := by
    by_cases hk : kind = .dir
    · exact hd hk m
    · exact h.inv.avoids_of_not_isDir (not_isDir_of_shape hs hk) hc m
  have hki := havoid hq hp' hav
  have hpi' := havoid hq' hp' (by rintro rfl; exact h.avoids_child he')
  have hpi := havoid hq hp (by rintro rfl; exact h.avoids_child he)
  have hki' := havoid hq' hp hav'
  have hshape (j : InodeID) : (N.exchange k k' i i').shape j = (N.swapped k k' i i').shape j := by
    rw [exchange_eq, shape_name, shape_name]
  have hsi : (N.exchange k k' i i').shape i = some (kind, k'.1) := by
    simp [hshape, shape_swapped hne, hq, hne]
  have hsi' : (N.exchange k k' i i').shape i' = some (kind', k.1) := by
    simp [hshape, shape_swapped hne, hq']
  refine ⟨h.inv.exchange he he' hne (hki 0) (hki' 0) (fun _ => hpi 0) fun _ => hpi' 0,
    h.rooted_of_change (S := {i, i'}) (fun j hj => ?_) (fun j p hj hjp => ?_)
      fun j p hjp hpi => ?_⟩
  · simp only [Set.mem_insert_iff, Set.mem_singleton_iff, not_or] at hj
    rw [hshape, shape_swapped hne, if_neg hj.2, if_neg hj.1]
  · rcases hj with rfl | rfl
    · rw [hsi] at hjp
      obtain rfl : k'.1 = p := congrArg Prod.snd (Option.some.inj hjp)
      exact ⟨hp', fun m => by simp [hki m, hpi' m]⟩
    · rw [hsi'] at hjp
      obtain rfl : k.1 = p := congrArg Prod.snd (Option.some.inj hjp)
      exact ⟨hp, fun m => by simp [hpi m, hki' m]⟩
  · obtain ⟨x, hx⟩ := par_eq hjp ▸ h.inv.isDir_par ⟨p, hjp⟩
    rcases hpi with rfl | rfl
    · rw [hq] at hx
      obtain rfl : kind = .dir := congrArg Prod.fst (Option.some.inj hx)
      exact ⟨_, hsi⟩
    · rw [hq'] at hx
      obtain rfl : kind' = .dir := congrArg Prod.fst (Option.some.inj hx)
      exact ⟨_, hsi'⟩

end

end Tree

/-! ## 一歩の変化 -/

/--
transaction が起こしうる変化。前提は code が検査するか、`Tree` から従う。
`new` は transaction の前に取った inode の番号で、新しく現れてよいのはこれだけである。
-/
inductive Step (new : Option InodeID) (N : Namespace) : Namespace → Prop
  | create {k : EntryKey} {i : InodeID} {n : Node} (hnew : new = some i)
      (ha : N.node i = none) (he : N.entry k = none) (hp : N.IsDir k.1)
      (hl : n.nlink = if n.kind = .dir then 2 else 1) (hpar : n.kind = .dir → n.parent = k.1) :
      Step new N (N.create k i n)
  | link {k : EntryKey} {i q : InodeID} {kind : Dt} (he : N.entry k = none) (hp : N.IsDir k.1)
      (hn : N.shape i = some (kind, q)) (hk : kind ≠ .dir) : Step new N (N.link k i)
  | unlink {k : EntryKey} {i : InodeID} {kind : Dt} (he : N.entry k = some (kind, i))
      (hk : kind ≠ .dir) : Step new N (N.unlink k i)
  | rmdir {k : EntryKey} {i : InodeID} (he : N.entry k = some (.dir, i))
      (hempty : ∀ name, N.entry (i, name) = none) : Step new N (N.rmdir k i)
  | move {k k' : EntryKey} {i : InodeID} {kind : Dt} (he : N.entry k = some (kind, i))
      (he' : N.entry k' = none) (hp : N.IsDir k'.1)
      (hav : kind = .dir → ∀ m, N.par^[m] k'.1 ≠ i) : Step new N (N.move k k' i)
  | exchange {k k' : EntryKey} {i i' : InodeID} {kind kind' : Dt}
      (he : N.entry k = some (kind, i))
      (he' : N.entry k' = some (kind', i')) (hne : i ≠ i')
      (hav : kind = .dir → ∀ m, N.par^[m] k'.1 ≠ i)
      (hav' : kind' = .dir → ∀ m, N.par^[m] k.1 ≠ i') : Step new N (N.exchange k k' i i')
  | reclaim {i : InodeID} {n : Node} (hn : N.node i = some n) (hk : n.kind ≠ .dir)
      (hl : n.nlink = 0) : Step new N (N.forget i)

variable {new : Option InodeID}

theorem Step.tree (h : N.Tree) (hs : Step new N N') : N'.Tree := by
  cases hs with
  | create _ ha he hp hl hpar => exact h.create ha he hp hl hpar
  | link he hp hn hk => exact h.link he hp hn hk
  | unlink he hk => exact h.unlink he hk
  | rmdir he hempty => exact h.rmdir he hempty
  | move he he' hp hav => exact h.move he he' hp hav
  | exchange he he' hne hav hav' => exact h.exchange he he' hne hav hav'
  | reclaim hn hk hl => exact h.forgetFile hn hk hl

/-- 一つの transaction の変化。overwrite を伴う rename は二歩になる -/
abbrev Steps (new : Option InodeID) : Namespace → Namespace → Prop :=
  Relation.ReflTransGen (Step new)

theorem Steps.tree (h : N.Tree) (hs : Steps new N N') : N'.Tree := by
  induction hs with
  | refl => exact h
  | tail _ hs ih => exact hs.tree ih

theorem Step.shape_ne_none (hs : Step new N N') (hj : N'.shape j ≠ none) :
    N.shape j ≠ none ∨ new = some j := by
  cases hs with
  | @create k i n hnew =>
    by_cases hji : j = i
    · exact .inr (hji ▸ hnew)
    · rw [Namespace.create, shape_name, shape, setNode_node, update_of_ne hji] at hj
      exact .inl hj
  | link => rw [Namespace.link, shape_name, shape_takeLink] at hj; exact .inl hj
  | unlink => rw [Namespace.unlink, shape_dropLink, shape_unname] at hj; exact .inl hj
  | rmdir =>
    rw [Namespace.rmdir, shape_forget, shape_unname] at hj
    split at hj
    · exact absurd rfl hj
    · exact .inl hj
  | move =>
    rw [Namespace.move, shape_name, shape_adopt] at hj
    split at hj
    · next h => exact .inl fun hc => hj (by rw [shape_unname, ← h, hc]; rfl)
    · exact .inl (by rwa [shape_unname] at hj)
  | exchange =>
    rw [Namespace.exchange, shape_name, shape_name, shape_adopt] at hj
    refine .inl fun hc => hj ?_
    split
    · next h =>
      rw [shape_adopt, ← h]
      split <;> simp only [shape_unname, hc, Option.map_none]
      next h' => rw [← h', hc]; rfl
    · rw [shape_adopt]
      split
      · next h' => rw [shape_unname, shape_unname, ← h', hc]; rfl
      · rw [shape_unname, shape_unname, hc]
  | reclaim =>
    rw [shape_forget] at hj
    split at hj
    · exact absurd rfl hj
    · exact .inl hj

theorem Steps.shape_ne_none (hs : Steps new N N') (hj : N'.shape j ≠ none) :
    N.shape j ≠ none ∨ new = some j := by
  induction hs with
  | refl => exact .inl hj
  | tail _ hs ih =>
    rcases hs.shape_ne_none hj with h | h
    · exact ih h
    · exact .inr h

namespace Tree

/-! ## entry の関係として -/

theorem exists_iterate_of_transGen (h : N.Tree) (hc : Relation.TransGen N.Child i j) :
    N.IsDir j ∧ j ≠ kRootInodeId ∧ ∃ m, N.par^[m + 1] j = i := by
  have hstep : ∀ {a b}, N.Child a b → N.IsDir b ∧ b ≠ kRootInodeId ∧ N.par b = a := by
    rintro a b ⟨name, he⟩
    obtain ⟨q, hq, hqa⟩ := h.inv.shape_target he
    exact ⟨⟨q, hq⟩, h.inv.ne_root he, (par_eq hq).trans (hqa rfl)⟩
  induction hc with
  | single hab =>
    obtain ⟨hd, hr, hp⟩ := hstep hab
    exact ⟨hd, hr, 0, hp⟩
  | tail _ hbc ih =>
    obtain ⟨hd, hr, hp⟩ := hstep hbc
    obtain ⟨-, -, m, hm⟩ := ih
    exact ⟨hd, hr, m + 1, by rw [iterate_succ_apply, hp, hm]⟩

theorem acyclic (h : N.Tree) (j : InodeID) : ¬ Relation.TransGen N.Child j j := by
  intro hc
  obtain ⟨hd, hr, m, hm⟩ := h.exists_iterate_of_transGen hc
  exact (h.rooted j hd).iterate_ne_self h.inv.par_root hr m hm

theorem reachable (h : N.Tree) (hj : N.IsDir j) : Relation.ReflTransGen N.Child kRootInodeId j := by
  have hr := h.rooted j hj
  induction hr with
  | root => exact .refl
  | @step j _ ih =>
    obtain ⟨q, hq⟩ := hj
    by_cases hjr : j = kRootInodeId
    · rw [hjr]
    · obtain ⟨name, -, he⟩ := h.inv.links_dir hq hjr
      refine (ih (h.inv.isDir_par ⟨q, hq⟩)).tail ?_
      rw [par_eq hq]
      exact ⟨name, he⟩

end Tree

end SwordFS.Metadata.Namespace
