import SwordFS.Infra.Fiber
import SwordFS.Infra.ParentTree
import SwordFS.Metadata.Types

/-!
# namespace の抽象 model

木の形に関わる部分だけを取り出した namespace と、その上の基本操作を定める。
transaction の効果は基本操作の合成であり、基本操作ごとに不変条件の動きを述べる。

entry を外した inode は、次に付けられるか link count を減らされるまで浮いている。
`Namespace.Inv` は浮いている inode の列 `fl` を引数に持ち、操作の途中でも成り立つ。
-/

namespace SwordFS.Metadata

open Infra Function

/-- inode のうち木の形に関わる部分 -/
@[ext] structure Node where
  kind : Dt
  nlink : Nat
  parent : InodeID
deriving DecidableEq, Repr

namespace Node

/-- `kind` の子を失った parent。子が directory なら link count が減る -/
def drop (p : Node) (kind : Dt) : Node :=
  { p with nlink := if kind = .dir then p.nlink - 1 else p.nlink }

/-- `kind` の子を得た parent。子が directory なら link count が増える -/
def gain (p : Node) (kind : Dt) : Node :=
  { p with nlink := if kind = .dir then p.nlink + 1 else p.nlink }

variable (p : Node) (kind : Dt)

@[simp] theorem drop_kind : (p.drop kind).kind = p.kind := rfl
@[simp] theorem drop_parent : (p.drop kind).parent = p.parent := rfl
@[simp] theorem gain_kind : (p.gain kind).kind = p.kind := rfl
@[simp] theorem gain_parent : (p.gain kind).parent = p.parent := rfl

theorem gain_drop (h : 0 < p.nlink) : (p.drop kind).gain kind = p := by
  unfold drop gain
  by_cases hk : kind = .dir
  · simp only [if_pos hk, Nat.sub_add_cancel h]
  · simp only [if_neg hk]

theorem gain_comm (kind' : Dt) : (p.gain kind).gain kind' = (p.gain kind').gain kind := by
  unfold gain
  by_cases hk : kind = .dir <;> by_cases hk' : kind' = .dir <;> simp [hk, hk']

end Node

abbrev EntryKey := InodeID × String

/-- 木の形。entry は種別と inode 番号を持つ -/
@[ext] structure Namespace where
  node : InodeID → Option Node
  entry : EntryKey → Option (Dt × InodeID)
  orphan : InodeID → Bool

namespace Namespace

variable (N : Namespace)

def links (i : InodeID) : Set EntryKey := fiber N.entry fun _ e => e.2 = i

def subdirs (d : InodeID) : Set EntryKey := fiber N.entry fun k e => k.1 = d ∧ e.1 = .dir

def Child (a b : InodeID) : Prop := ∃ name, N.entry (a, name) = some (.dir, b)

/-- inode が持つべき entry の数。directory は root を除いて一つ -/
def wanted (i : InodeID) (n : Node) : Nat :=
  if n.kind = .dir then if i = kRootInodeId then 0 else 1 else n.nlink

/-! ## 基本操作 -/

def setNode (i : InodeID) (n : Node) : Namespace :=
  { N with node := update N.node i (some n) }

def eraseNode (i : InodeID) : Namespace := { N with node := update N.node i none }

def setOrphan (i : InodeID) (b : Bool) : Namespace :=
  { N with orphan := update N.orphan i b }

/-- entry を外す。directory を指す entry なら parent の link count が減る -/
def detach (k : EntryKey) (kind : Dt) (p : Node) : Namespace where
  node := update N.node k.1 (some (p.drop kind))
  entry := update N.entry k none
  orphan := N.orphan

/-- entry を付ける。directory を指す entry なら parent の link count が増える -/
def attach (k : EntryKey) (kind : Dt) (i : InodeID) (p : Node) : Namespace where
  node := update N.node k.1 (some (p.gain kind))
  entry := update N.entry k (some (kind, i))
  orphan := N.orphan

section

variable (i : InodeID) (n p : Node) (k : EntryKey) (kind : Dt) (b : Bool)

@[simp] theorem setNode_node : (N.setNode i n).node = update N.node i (some n) := rfl
@[simp] theorem setNode_entry : (N.setNode i n).entry = N.entry := rfl
@[simp] theorem setNode_orphan : (N.setNode i n).orphan = N.orphan := rfl
@[simp] theorem eraseNode_node : (N.eraseNode i).node = update N.node i none := rfl
@[simp] theorem eraseNode_entry : (N.eraseNode i).entry = N.entry := rfl
@[simp] theorem eraseNode_orphan : (N.eraseNode i).orphan = N.orphan := rfl
@[simp] theorem setOrphan_node : (N.setOrphan i b).node = N.node := rfl
@[simp] theorem setOrphan_entry : (N.setOrphan i b).entry = N.entry := rfl
@[simp] theorem setOrphan_orphan : (N.setOrphan i b).orphan = update N.orphan i b := rfl
@[simp] theorem detach_entry : (N.detach k kind p).entry = update N.entry k none := rfl
@[simp] theorem detach_node :
    (N.detach k kind p).node = update N.node k.1 (some (p.drop kind)) := rfl
@[simp] theorem detach_orphan : (N.detach k kind p).orphan = N.orphan := rfl
@[simp] theorem attach_entry :
    (N.attach k kind i p).entry = update N.entry k (some (kind, i)) := rfl
@[simp] theorem attach_node :
    (N.attach k kind i p).node = update N.node k.1 (some (p.gain kind)) := rfl
@[simp] theorem attach_orphan : (N.attach k kind i p).orphan = N.orphan := rfl

end

/-! ## 不変条件 -/

/-- 浮いている inode が `fl` である namespace の整合性 -/
structure Inv (fl : List InodeID) : Prop where
  /-- entry は同じ種別の inode を指す。directory はその entry のある所を親とする -/
  target : ∀ k e, N.entry k = some e →
    ∃ n, N.node e.2 = some n ∧ n.kind = e.1 ∧ (n.kind = .dir → n.parent = k.1)
  /-- entry は directory の中にある -/
  holder : ∀ k e, N.entry k = some e → ∃ n, N.node k.1 = some n ∧ n.kind = .dir
  counted : ∀ i n, N.node i = some n → (N.links i).encard + fl.count i = wanted i n
  dirLinks : ∀ i n, N.node i = some n → n.kind = .dir → (n.nlink : ℕ∞) = 2 + (N.subdirs i).encard
  orphans : ∀ i n, N.node i = some n → n.kind ≠ .dir → (N.orphan i = true ↔ n.nlink = 0)
  orphanExists : ∀ i, N.orphan i = true → ∃ n, N.node i = some n ∧ n.kind ≠ .dir
  root : ∃ n, N.node kRootInodeId = some n ∧ n.kind = .dir ∧ n.parent = kRootInodeId

variable {N} {fl : List InodeID} {k : EntryKey} {kind : Dt} {i j : InodeID} {n p p' : Node}

/-! 種別と親を変えない node の書き換え -/

theorem update_node_of_some (hp : N.node i = some p) (hk : p'.kind = p.kind)
    (hpar : p'.parent = p.parent) (hj : N.node j = some n) :
    ∃ n', update N.node i (some p') j = some n' ∧ n'.kind = n.kind ∧
      n'.parent = n.parent := by
  by_cases h : j = i
  · subst h
    rw [hp] at hj
    cases hj
    exact ⟨p', update_self .., hk, hpar⟩
  · exact ⟨n, by rw [update_of_ne h, hj], rfl, rfl⟩

theorem some_of_update_node (hj : update N.node i (some p') j = some n) :
    (j = i ∧ n = p') ∨ (j ≠ i ∧ N.node j = some n) := by
  by_cases h : j = i
  · subst h
    rw [update_self] at hj
    cases hj
    exact .inl ⟨rfl, rfl⟩
  · rw [update_of_ne h] at hj
    exact .inr ⟨h, hj⟩

namespace Inv

/-- directory の entry はただ一つなので、浮いている directory は entry を持たない -/
theorem links_eq_empty (h : N.Inv (i :: fl)) (hn : N.node i = some n) (hd : n.kind = .dir) :
    N.links i = ∅ ∧ i ≠ kRootInodeId ∧ fl.count i = 0 := by
  have hc := h.counted i n hn
  rw [wanted, if_pos hd, List.count_cons_self] at hc
  by_cases hr : i = kRootInodeId
  · rw [if_pos hr, Nat.cast_zero] at hc
    simp at hc
  · rw [if_neg hr, Nat.cast_add, ← add_assoc, Nat.cast_one] at hc
    have h0 : (N.links i).encard + fl.count i = 0 := (natCast_pred hc.symm).symm
    obtain ⟨h1, h2⟩ := add_eq_zero.mp h0
    exact ⟨Set.encard_eq_zero.mp h1, hr, by exact_mod_cast h2⟩

theorem two_le_nlink (h : N.Inv fl) (hn : N.node i = some n) (hd : n.kind = .dir) :
    2 ≤ n.nlink := by
  have : (2 : ℕ∞) ≤ n.nlink := (h.dirLinks i n hn hd).symm ▸ le_self_add
  exact_mod_cast this

theorem links_of_absent (h : N.Inv fl) (hn : N.node i = none) : N.links i = ∅ := by
  refine Set.eq_empty_of_forall_notMem ?_
  rintro k ⟨e, he, rfl⟩
  obtain ⟨n, hn', -⟩ := h.target k e he
  rw [hn] at hn'
  cases hn'

theorem subdirs_of_absent (h : N.Inv fl) (hn : N.node i = none) : N.subdirs i = ∅ := by
  refine Set.eq_empty_of_forall_notMem ?_
  rintro k ⟨e, he, rfl, -⟩
  obtain ⟨n, hn', -⟩ := h.holder k e he
  rw [hn] at hn'
  cases hn'

/-! ## entry の付け外し -/

variable {fl' : List InodeID}

/--
entry の書き換えと、directory 一つの link count の書き換え。
entry の付け外しに共通する部分であり、数の条件は呼ぶ側が示す。
-/
theorem rewire {l : Nat} (h : N.Inv fl) (hp : N.node i = some p) (hpd : p.kind = .dir)
    (ht : ∀ k e, f k = some e →
      ∃ n, N.node e.2 = some n ∧ n.kind = e.1 ∧ (n.kind = .dir → n.parent = k.1))
    (hh : ∀ k e, f k = some e → ∃ n, N.node k.1 = some n ∧ n.kind = .dir)
    (hc : ∀ j n, N.node j = some n →
      (fiber f fun _ e => e.2 = j).encard + fl'.count j = wanted j n)
    (hs : ∀ j n, N.node j = some n → n.kind = .dir → j ≠ i →
      (fiber f fun k e => k.1 = j ∧ e.1 = .dir) = N.subdirs j)
    (hl : (l : ℕ∞) = 2 + (fiber f fun k e => k.1 = i ∧ e.1 = .dir).encard) :
    Inv ⟨update N.node i (some { p with nlink := l }), f, N.orphan⟩ fl' := by
  have hup {j n} (hj : N.node j = some n) : ∃ n',
      update N.node i (some { p with nlink := l }) j = some n' ∧ n'.kind = n.kind ∧
        n'.parent = n.parent := update_node_of_some hp rfl rfl hj
  refine ⟨fun k e hk => ?_, fun k e hk => ?_, fun j n hj => ?_, fun j n hj hd => ?_,
    fun j n hj hd => ?_, fun j hj => ?_, ?_⟩
  · obtain ⟨n, hn, hkind, hpn⟩ := ht k e hk
    obtain ⟨n', hn', hk1, hp1⟩ := hup hn
    exact ⟨n', hn', hk1.trans hkind, fun hd => hp1.trans (hpn (hk1 ▸ hd))⟩
  · obtain ⟨n, hn, hkind⟩ := hh k e hk
    obtain ⟨n', hn', hk1, -⟩ := hup hn
    exact ⟨n', hn', hk1.trans hkind⟩
  · rcases some_of_update_node hj with ⟨rfl, rfl⟩ | ⟨-, hj⟩
    · have := hc j p hp
      rwa [wanted, if_pos hpd] at this ⊢
    · exact hc j n hj
  · rcases some_of_update_node hj with ⟨rfl, rfl⟩ | ⟨hne, hj⟩
    · exact hl
    · exact (h.dirLinks j n hj hd).trans (congrArg (2 + Set.encard ·) (hs j n hj hd hne).symm)
  · rcases some_of_update_node hj with ⟨rfl, rfl⟩ | ⟨-, hj⟩
    · exact absurd hpd hd
    · exact h.orphans j n hj hd
  · obtain ⟨n, hn, hd⟩ := h.orphanExists j hj
    obtain ⟨n', hn', hk1, -⟩ := hup hn
    exact ⟨n', hn', fun hc => hd (hk1 ▸ hc)⟩
  · obtain ⟨n, hn, hd, hr⟩ := h.root
    obtain ⟨n', hn', hk1, hp1⟩ := hup hn
    exact ⟨n', hn', hk1.trans hd, hp1.trans hr⟩

theorem detach (h : N.Inv fl) (he : N.entry k = some (kind, i)) (hp : N.node k.1 = some p) :
    (N.detach k kind p).Inv (i :: fl) := by
  obtain ⟨p₀, hp₀, hpd⟩ := h.holder k _ he
  obtain rfl : p₀ = p := Option.some.inj (hp₀.symm.trans hp)
  have hent : ∀ k' e, update N.entry k none k' = some e → N.entry k' = some e := by
    intro k' e hk'
    by_cases hkk : k' = k
    · rw [hkk, update_self] at hk'; cases hk'
    · rwa [update_of_ne hkk] at hk'
  refine h.rewire hp hpd (fun k' e hk' => h.target k' e (hent k' e hk'))
    (fun k' e hk' => h.holder k' e (hent k' e hk')) (fun j n hj => ?_) (fun j n hj hd hne => ?_) ?_
  · rw [← h.counted j n hj]
    by_cases hij : i = j
    · rw [hij, List.count_cons_self, Nat.cast_add, Nat.cast_one, add_comm (_ : ℕ∞) 1, ← add_assoc]
      exact congrArg (· + _) (encard_fiber_erase he hij)
    · rw [List.count_cons_of_ne hij]
      exact congrArg (Set.encard · + _) (fiber_erase_of_not he hij)
  · exact fiber_erase_of_not he fun hc => hne hc.1.symm
  · have hold := h.dirLinks _ p₀ hp hpd
    by_cases hkd : kind = .dir
    · rw [if_pos hkd]
      have hcard : _ + 1 = (N.subdirs k.1).encard :=
        encard_fiber_erase (P := fun k' e => k'.1 = k.1 ∧ e.1 = .dir) he ⟨rfl, hkd⟩
      exact natCast_pred (by rw [hold, ← hcard, ← add_assoc])
    · rw [if_neg hkd, hold]
      exact congrArg (2 + Set.encard ·) (fiber_erase_of_not he fun hc => hkd hc.2).symm

theorem attach (h : N.Inv (i :: fl)) (he : N.entry k = none) (hp : N.node k.1 = some p)
    (hpd : p.kind = .dir) (hn : N.node i = some n) (hpar : n.kind = .dir → n.parent = k.1) :
    (N.attach k n.kind i p).Inv fl := by
  have hent : ∀ k' e, update N.entry k (some (n.kind, i)) k' = some e →
      (k' = k ∧ e = (n.kind, i)) ∨ N.entry k' = some e := by
    intro k' e hk'
    by_cases hkk : k' = k
    · rw [hkk, update_self] at hk'
      exact .inl ⟨hkk, (Option.some.inj hk').symm⟩
    · rw [update_of_ne hkk] at hk'
      exact .inr hk'
  refine h.rewire hp hpd (fun k' e hk' => ?_) (fun k' e hk' => ?_) (fun j m hj => ?_)
    (fun j m hj hd hne => ?_) ?_
  · rcases hent k' e hk' with ⟨rfl, rfl⟩ | hk'
    · exact ⟨n, hn, rfl, hpar⟩
    · exact h.target k' e hk'
  · rcases hent k' e hk' with ⟨rfl, rfl⟩ | hk'
    · exact ⟨p, hp, hpd⟩
    · exact h.holder k' e hk'
  · rw [← h.counted j m hj]
    by_cases hij : i = j
    · subst hij
      rw [List.count_cons_self, Nat.cast_add, Nat.cast_one, add_comm (_ : ℕ∞) 1, ← add_assoc]
      exact congrArg (· + _) (encard_fiber_insert he rfl)
    · rw [List.count_cons_of_ne hij]
      exact congrArg (Set.encard · + _) (fiber_insert_of_not he hij)
  · exact fiber_insert_of_not he fun hc => hne hc.1.symm
  · have hold := h.dirLinks _ p hp hpd
    by_cases hkd : n.kind = .dir
    · rw [if_pos hkd, Nat.cast_add, hold, Nat.cast_one, add_assoc]
      exact congrArg (2 + ·) (encard_fiber_insert he ⟨rfl, hkd⟩).symm
    · rw [if_neg hkd, hold]
      exact congrArg (2 + Set.encard ·) (fiber_insert_of_not he fun hc => hkd hc.2).symm

/-! ## inode の出し入れ -/

/-- 浮いている inode の親を付け替える。file の親は何でもよい -/
theorem reparent (h : N.Inv (i :: fl)) (hn : N.node i = some n) (q : InodeID) :
    (N.setNode i { n with parent := q }).Inv (i :: fl) := by
  have hlinks : n.kind = .dir → N.links i = ∅ ∧ i ≠ kRootInodeId := fun hd =>
    ⟨(h.links_eq_empty hn hd).1, (h.links_eq_empty hn hd).2.1⟩
  have hup : ∀ {j m}, N.node j = some m → ∃ m',
      (N.setNode i { n with parent := q }).node j = some m' ∧ m'.kind = m.kind ∧
        (j = i ∨ m' = m) := by
    intro j m hj
    by_cases hji : j = i
    · subst hji
      obtain rfl : n = m := Option.some.inj (hn.symm.trans hj)
      exact ⟨_, update_self .., rfl, .inl rfl⟩
    · exact ⟨m, (update_of_ne hji ..).trans hj, rfl, .inr rfl⟩
  refine ⟨fun k e hk => ?_, fun k e hk => ?_, fun j m hj => ?_, fun j m hj hd => ?_,
    fun j m hj hd => ?_, fun j hj => ?_, ?_⟩
  · obtain ⟨m, hm, hkind, hpm⟩ := h.target k e hk
    obtain ⟨m', hm', hk', hor⟩ := hup hm
    refine ⟨m', hm', hk'.trans hkind, fun hd => ?_⟩
    rcases hor with hi | rfl
    · -- 浮いている directory を指す entry は無い
      obtain rfl : n = m := Option.some.inj (hn.symm.trans (hi ▸ hm))
      have : k ∈ N.links i := ⟨e, hk, hi⟩
      rw [(hlinks (hk' ▸ hd)).1] at this
      exact absurd this (Set.notMem_empty _)
    · exact hpm hd
  · obtain ⟨m, hm, hkind⟩ := h.holder k e hk
    obtain ⟨m', hm', hk', -⟩ := hup hm
    exact ⟨m', hm', hk'.trans hkind⟩
  · rcases some_of_update_node hj with ⟨rfl, rfl⟩ | ⟨-, hj⟩
    · exact h.counted j n hn
    · exact h.counted j m hj
  · rcases some_of_update_node hj with ⟨rfl, rfl⟩ | ⟨-, hj⟩
    · exact h.dirLinks j n hn hd
    · exact h.dirLinks j m hj hd
  · rcases some_of_update_node hj with ⟨rfl, rfl⟩ | ⟨-, hj⟩
    · exact h.orphans j n hn hd
    · exact h.orphans j m hj hd
  · obtain ⟨m, hm, hd⟩ := h.orphanExists j hj
    obtain ⟨m', hm', hk', -⟩ := hup hm
    exact ⟨m', hm', fun hc => hd (hk' ▸ hc)⟩
  · obtain ⟨m, hm, hd, hr⟩ := h.root
    obtain ⟨m', hm', hk', hor⟩ := hup hm
    refine ⟨m', hm', hk'.trans hd, ?_⟩
    rcases hor with hi | rfl
    · obtain rfl : n = m := Option.some.inj (hn.symm.trans (hi ▸ hm))
      exact absurd hi.symm (hlinks hd).2
    · exact hr

theorem relink {l : Nat} (h : N.Inv fl) (hn : N.node i = some n) (hk : n.kind ≠ .dir)
    (hc : (N.links i).encard + fl'.count i = l) (hfl : ∀ j, j ≠ i → fl'.count j = fl.count j) :
    ((N.setNode i { n with nlink := l }).setOrphan i (l == 0)).Inv fl' := by
  have hup {j m} (hj : N.node j = some m) : ∃ m',
      update N.node i (some { n with nlink := l }) j = some m' ∧ m'.kind = m.kind ∧
        m'.parent = m.parent := update_node_of_some hn rfl rfl hj
  refine ⟨fun k e hk => ?_, fun k e hk => ?_, fun j m hj => ?_, fun j m hj hd => ?_,
    fun j m hj hd => ?_, fun j hj => ?_, ?_⟩
  · obtain ⟨m, hm, hkind, hpm⟩ := h.target k e hk
    obtain ⟨m', hm', hk', hp'⟩ := hup hm
    exact ⟨m', hm', hk'.trans hkind, fun hd => hp'.trans (hpm (hk' ▸ hd))⟩
  · obtain ⟨m, hm, hkind⟩ := h.holder k e hk
    obtain ⟨m', hm', hk', -⟩ := hup hm
    exact ⟨m', hm', hk'.trans hkind⟩
  · rcases some_of_update_node hj with ⟨rfl, rfl⟩ | ⟨hne, hj⟩
    · rw [wanted, if_neg hk]; exact hc
    · rw [hfl j hne]; exact h.counted j m hj
  · rcases some_of_update_node hj with ⟨rfl, rfl⟩ | ⟨-, hj⟩
    · exact absurd hd hk
    · exact h.dirLinks j m hj hd
  · rcases some_of_update_node hj with ⟨rfl, rfl⟩ | ⟨hne, hj⟩
    · simp
    · simpa [hne] using h.orphans j m hj hd
  · by_cases hji : j = i
    · subst hji; exact ⟨_, update_self .., hk⟩
    · obtain ⟨m, hm, hd⟩ := h.orphanExists j (by simpa [hji] using hj)
      exact ⟨m, (update_of_ne hji ..).trans hm, hd⟩
  · obtain ⟨m, hm, hd, hr⟩ := h.root
    obtain ⟨m', hm', hk', hp'⟩ := hup hm
    exact ⟨m', hm', hk'.trans hd, hp'.trans hr⟩

theorem release (h : N.Inv (i :: fl)) (hn : N.node i = some n) (hk : n.kind ≠ .dir) :
    ((N.setNode i { n with nlink := n.nlink - 1 }).setOrphan i (n.nlink - 1 == 0)).Inv fl := by
  refine h.relink hn hk ?_ fun j hj => (List.count_cons_of_ne (Ne.symm hj)).symm
  have hc := h.counted i n hn
  rw [wanted, if_neg hk, List.count_cons_self, Nat.cast_add, Nat.cast_one, ← add_assoc] at hc
  exact (natCast_pred hc.symm).symm

theorem retain (h : N.Inv fl) (hn : N.node i = some n) (hk : n.kind ≠ .dir) :
    ((N.setNode i { n with nlink := n.nlink + 1 }).setOrphan i false).Inv (i :: fl) := by
  refine h.relink (l := n.nlink + 1) hn hk ?_ fun j hj => List.count_cons_of_ne (Ne.symm hj)
  have hc := h.counted i n hn
  rw [wanted, if_neg hk] at hc
  rw [List.count_cons_self, Nat.cast_add, Nat.cast_one, ← add_assoc, hc, Nat.cast_add, Nat.cast_one]

theorem addNode (h : N.Inv fl) (ha : N.node i = none) (hfl : i ∉ fl)
    (hl : n.nlink = if n.kind = .dir then 2 else 1) : (N.setNode i n).Inv (i :: fl) := by
  have hup : ∀ {j m}, N.node j = some m → (N.setNode i n).node j = some m := by
    intro j m hj
    have hji : j ≠ i := by rintro rfl; rw [ha] at hj; cases hj
    exact (update_of_ne hji ..).trans hj
  refine ⟨fun k e hk => ?_, fun k e hk => ?_, fun j m hj => ?_, fun j m hj hd => ?_,
    fun j m hj hd => ?_, fun j hj => ?_, ?_⟩
  · obtain ⟨m, hm, hrest⟩ := h.target k e hk
    exact ⟨m, hup hm, hrest⟩
  · obtain ⟨m, hm, hkind⟩ := h.holder k e hk
    exact ⟨m, hup hm, hkind⟩
  · rcases some_of_update_node hj with ⟨rfl, rfl⟩ | ⟨hne, hj⟩
    · have hroot : j ≠ kRootInodeId := by
        rintro rfl
        obtain ⟨r, hr, -⟩ := h.root
        rw [ha] at hr
        cases hr
      have hlinks : (N.setNode j m).links j = ∅ := h.links_of_absent ha
      rw [hlinks, Set.encard_empty, zero_add, List.count_cons_self,
        List.count_eq_zero_of_not_mem hfl, wanted, if_neg hroot, hl]
      split <;> rfl
    · rw [List.count_cons_of_ne (Ne.symm hne)]; exact h.counted j m hj
  · rcases some_of_update_node hj with ⟨rfl, rfl⟩ | ⟨-, hj⟩
    · have hsub : (N.setNode j m).subdirs j = ∅ := h.subdirs_of_absent ha
      rw [hsub, hl, if_pos hd, Set.encard_empty, add_zero]
      rfl
    · exact h.dirLinks j m hj hd
  · rcases some_of_update_node hj with ⟨rfl, rfl⟩ | ⟨-, hj⟩
    · have hno : N.orphan j ≠ true := fun ho => by
        obtain ⟨_, hm, -⟩ := h.orphanExists j ho
        rw [ha] at hm
        cases hm
      rw [hl, if_neg hd]
      exact iff_of_false hno one_ne_zero
    · exact h.orphans j m hj hd
  · obtain ⟨m, hm, hd⟩ := h.orphanExists j hj
    exact ⟨m, hup hm, hd⟩
  · obtain ⟨m, hm, hrest⟩ := h.root
    exact ⟨m, hup hm, hrest⟩

theorem dropNode (h : N.Inv fl) (hlinks : N.links i = ∅) (hempty : ∀ name, N.entry (i, name) = none)
    (hroot : i ≠ kRootInodeId) (hfl : ∀ j, j ≠ i → fl'.count j = fl.count j) :
    ((N.eraseNode i).setOrphan i false).Inv fl' := by
  have hup : ∀ {j m}, j ≠ i → N.node j = some m → (N.eraseNode i).node j = some m :=
    fun hji hj => (update_of_ne hji ..).trans hj
  have hdown : ∀ {j m}, (N.eraseNode i).node j = some m → j ≠ i ∧ N.node j = some m := by
    intro j m hj
    by_cases hji : j = i
    · subst hji
      rw [eraseNode_node, update_self] at hj
      cases hj
    · exact ⟨hji, (update_of_ne hji ..).symm.trans hj⟩
  refine ⟨fun k e hk => ?_, fun k e hk => ?_, fun j m hj => ?_, fun j m hj hd => ?_,
    fun j m hj hd => ?_, fun j hj => ?_, ?_⟩
  · obtain ⟨m, hm, hrest⟩ := h.target k e hk
    refine ⟨m, hup (fun hi => ?_) hm, hrest⟩
    have : k ∈ N.links i := ⟨e, hk, hi⟩
    rw [hlinks] at this
    exact Set.notMem_empty _ this
  · obtain ⟨m, hm, hkind⟩ := h.holder k e hk
    refine ⟨m, hup (fun hi => ?_) hm, hkind⟩
    have := hempty k.2
    rw [← hi] at this
    cases this.symm.trans hk
  · obtain ⟨hne, hj⟩ := hdown hj
    rw [hfl j hne]
    exact h.counted j m hj
  · exact h.dirLinks j m (hdown hj).2 hd
  · obtain ⟨hne, hj⟩ := hdown hj
    simpa [hne] using h.orphans j m hj hd
  · have hji : j ≠ i := by rintro rfl; simp at hj
    obtain ⟨m, hm, hd⟩ := h.orphanExists j (by simpa [hji] using hj)
    exact ⟨m, hup hji hm, hd⟩
  · obtain ⟨m, hm, hrest⟩ := h.root
    exact ⟨m, hup (Ne.symm hroot) hm, hrest⟩

end Inv

end Namespace

end SwordFS.Metadata
