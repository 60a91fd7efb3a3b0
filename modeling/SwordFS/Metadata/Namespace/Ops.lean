import SwordFS.Metadata.Namespace.Model

/-!
# namespace の操作

基本操作を合成した、名前の付け外しと移動である。
どの操作も、前提が成り立つ namespace では浮いた inode を残さずに `Inv` を保つ。
-/

namespace SwordFS.Metadata.Namespace

open Infra Function

variable (N : Namespace)

def unname (k : EntryKey) : Namespace :=
  match N.entry k, N.node k.1 with
  | some e, some p => N.detach k e.1 p
  | _, _ => N

def name (k : EntryKey) (i : InodeID) : Namespace :=
  match N.node i, N.node k.1 with
  | some n, some p => N.attach k n.kind i p
  | _, _ => N

def adopt (i q : InodeID) : Namespace :=
  match N.node i with
  | some n => N.setNode i { n with parent := q }
  | none => N

/-- link count を減らし、無くなれば orphan にする -/
def dropLink (i : InodeID) : Namespace :=
  match N.node i with
  | some n => (N.setNode i { n with nlink := n.nlink - 1 }).setOrphan i (n.nlink - 1 == 0)
  | none => N

def takeLink (i : InodeID) : Namespace :=
  match N.node i with
  | some n => (N.setNode i { n with nlink := n.nlink + 1 }).setOrphan i false
  | none => N

def forget (i : InodeID) : Namespace := (N.eraseNode i).setOrphan i false

/-! ## 操作 -/

def create (k : EntryKey) (i : InodeID) (n : Node) : Namespace := (N.setNode i n).name k i

def link (k : EntryKey) (i : InodeID) : Namespace := (N.takeLink i).name k i

def unlink (k : EntryKey) (i : InodeID) : Namespace := (N.unname k).dropLink i

def rmdir (k : EntryKey) (i : InodeID) : Namespace := (N.unname k).forget i

def move (k k' : EntryKey) (i : InodeID) : Namespace := ((N.unname k).adopt i k'.1).name k' i

def exchange (k k' : EntryKey) (i i' : InodeID) : Namespace :=
  (((((N.unname k).unname k').adopt i k'.1).adopt i' k.1).name k' i).name k i'

/-! ## 前提が成り立つときの形 -/

variable {N} {fl : List InodeID} {k k' : EntryKey} {kind : Dt} {i i' j q : InodeID} {n p : Node}

theorem unname_eq (he : N.entry k = some (kind, i)) (hp : N.node k.1 = some p) :
    N.unname k = N.detach k kind p := by
  simp only [unname, he, hp]

theorem name_eq (hn : N.node i = some n) (hp : N.node k.1 = some p) :
    N.name k i = N.attach k n.kind i p := by
  simp only [name, hn, hp]

def shape (N : Namespace) (j : InodeID) : Option (Dt × InodeID) :=
  (N.node j).map fun n => (n.kind, n.parent)

theorem node_of_shape (h : N.shape j = some (kind, q)) :
    ∃ n, N.node j = some n ∧ n.kind = kind ∧ n.parent = q := by
  obtain ⟨n, hn, he⟩ := Option.map_eq_some_iff.mp h
  cases he
  exact ⟨n, hn, rfl, rfl⟩

theorem shape_of_node (h : N.node j = some n) : N.shape j = some (n.kind, n.parent) := by
  rw [shape, h]; rfl

/-- 種別と親を変えない node の書き換え -/
theorem shape_of_update {M : Namespace} (hn : N.node i = some n)
    (hM : M.node = update N.node i (some n')) (hs : (n'.kind, n'.parent) = (n.kind, n.parent)) :
    M.shape j = N.shape j := by
  by_cases hj : j = i
  · subst hj
    simp [shape, hM, hn, hs]
  · simp [shape, hM, hj]

@[simp] theorem shape_unname : (N.unname k).shape j = N.shape j := by
  unfold unname
  split
  · next hp => exact shape_of_update hp rfl rfl
  · rfl

@[simp] theorem shape_name : (N.name k i).shape j = N.shape j := by
  unfold name
  split
  · next hp => exact shape_of_update hp rfl rfl
  · rfl

@[simp] theorem shape_dropLink : (N.dropLink i).shape j = N.shape j := by
  unfold dropLink
  split
  · next hn => exact shape_of_update hn rfl rfl
  · rfl

@[simp] theorem shape_takeLink : (N.takeLink i).shape j = N.shape j := by
  unfold takeLink
  split
  · next hn => exact shape_of_update hn rfl rfl
  · rfl

theorem shape_adopt : (N.adopt i q).shape j =
    if j = i then (N.shape i).map fun e => (e.1, q) else N.shape j := by
  unfold adopt
  by_cases hj : j = i
  · subst hj
    split <;> next hn => simp [shape, hn]
  · split <;> simp [shape, hj]

theorem shape_forget : (N.forget i).shape j = if j = i then none else N.shape j := by
  by_cases hj : j = i
  · subst hj; simp [forget, shape]
  · simp [forget, shape, hj]

theorem unname_entry (hp : N.shape k.1 ≠ none) : (N.unname k).entry = update N.entry k none := by
  unfold unname
  split
  · rfl
  · next h =>
    cases he : N.entry k with
    | none => rw [← he, update_eq_self]
    | some e =>
      cases hn : N.node k.1 with
      | none => simp [shape, hn] at hp
      | some p => exact absurd hn (h e p he)

theorem name_entry (hn : N.shape i = some (kind, q)) (hp : N.shape k.1 ≠ none) :
    (N.name k i).entry = update N.entry k (some (kind, i)) := by
  obtain ⟨n, hni, rfl, -⟩ := node_of_shape hn
  cases hk : N.node k.1 with
  | none => simp [shape, hk] at hp
  | some p => rw [name_eq hni hk, attach_entry]

theorem adopt_entry : (N.adopt i q).entry = N.entry := by unfold adopt; split <;> rfl
theorem dropLink_entry : (N.dropLink i).entry = N.entry := by unfold dropLink; split <;> rfl
theorem takeLink_entry : (N.takeLink i).entry = N.entry := by unfold takeLink; split <;> rfl

theorem unname_orphan : (N.unname k).orphan = N.orphan := by unfold unname; split <;> rfl
theorem name_orphan : (N.name k i).orphan = N.orphan := by unfold name; split <;> rfl
theorem adopt_orphan : (N.adopt i q).orphan = N.orphan := by unfold adopt; split <;> rfl

/-! 名前を外す操作が、他の inode と entry に触れないこと -/

theorem unlink_entry (hp : N.shape k.1 ≠ none) : (N.unlink k i).entry = update N.entry k none := by
  rw [unlink, dropLink_entry, unname_entry hp]

theorem rmdir_entry (hp : N.shape k.1 ≠ none) :
    (N.rmdir k i).entry = update N.entry k none := unname_entry hp

theorem unlink_node (he : N.entry k = some (kind, i)) (hp : N.node k.1 = some p) (hj : j ≠ i) :
    (N.unlink k i).node j = (N.detach k kind p).node j := by
  rw [unlink, unname_eq he hp, dropLink]
  split
  · exact update_of_ne hj ..
  · rfl

theorem rmdir_node (he : N.entry k = some (kind, i)) (hp : N.node k.1 = some p) (hj : j ≠ i) :
    (N.rmdir k i).node j = (N.detach k kind p).node j := by
  rw [rmdir, unname_eq he hp]
  exact update_of_ne hj ..

/-! ## exchange の結果 -/

theorem adopt_node : (N.adopt i q).node =
    update N.node i ((N.node i).map fun n => { n with parent := q }) := by
  unfold adopt
  split
  · next n hn => rw [hn]; rfl
  · next hn => rw [hn, Option.map_none, ← hn, update_eq_self]

section Exchange

variable {kind' : Dt} {p₁ p' n' : Node}

/--
二つの名前を外した後の exchange。`p₁` と `p'` は外した後の二つの parent である。
同じ parent なら、後から付けた名前が先に付けた名前の上に重なる。
-/
theorem exchange_node (h : (N.unname k).unname k' = N₂) (hp : N₂.node k.1 = some p₁)
    (hp' : N₂.node k'.1 = some p') (hn : N₂.node i = some n) (hn' : N₂.node i' = some n')
    (hii : i ≠ i') (h1 : k.1 ≠ i) (h2 : k'.1 ≠ i) (h3 : k.1 ≠ i') (h4 : k'.1 ≠ i') :
    (N.exchange k k' i i').node = update (update (update
      (update N₂.node i (some { n with parent := k'.1 })) i'
        (some { n' with parent := k.1 })) k'.1 (some (p'.gain n.kind))) k.1
        (some ((if k.1 = k'.1 then p'.gain n.kind else p₁).gain n'.kind)) := by
  have hnode : ((N₂.adopt i k'.1).adopt i' k.1).node = update (update N₂.node i
      (some { n with parent := k'.1 })) i' (some { n' with parent := k.1 }) := by
    rw [adopt_node, adopt_node, update_of_ne (Ne.symm hii), hn, hn']
    rfl
  have hi : ((N₂.adopt i k'.1).adopt i' k.1).node i = some { n with parent := k'.1 } := by
    rw [hnode, update_of_ne hii, update_self]
  have hk' : ((N₂.adopt i k'.1).adopt i' k.1).node k'.1 = some p' := by
    rw [hnode, update_of_ne h4, update_of_ne h2, hp']
  rw [exchange, h, name_eq hi hk', name_eq (i := i') (n := { n' with parent := k.1 })
    (p := if k.1 = k'.1 then p'.gain n.kind else p₁), attach_node, attach_node, hnode]
  · rw [attach_node, hnode, update_of_ne (Ne.symm h4), update_self]
  · rw [attach_node, hnode]
    split
    · next hkk => rw [hkk, update_self]
    · next hkk =>
      rw [update_of_ne hkk, update_of_ne h3, update_of_ne h1, hp]

theorem exchange_orphan : (N.exchange k k' i i').orphan = N.orphan := by
  simp only [exchange, name_orphan, adopt_orphan, unname_orphan]

/-- 二つの名前を外し、指されていた inode の親を入れ替えた、exchange の途中 -/
def swapped (N : Namespace) (k k' : EntryKey) (i i' : InodeID) : Namespace :=
  (((N.unname k).unname k').adopt i k'.1).adopt i' k.1

theorem exchange_eq : N.exchange k k' i i' = ((N.swapped k k' i i').name k' i).name k i' := rfl

theorem shape_swapped (hii : i ≠ i') : (N.swapped k k' i i').shape j =
    if j = i' then (N.shape i').map fun e => (e.1, k.1)
    else if j = i then (N.shape i).map fun e => (e.1, k'.1) else N.shape j := by
  simp only [swapped, shape_adopt, shape_unname, if_neg (Ne.symm hii)]

theorem swapped_entry (hp : N.shape k.1 ≠ none) (hp' : N.shape k'.1 ≠ none) :
    (N.swapped k k' i i').entry = update (update N.entry k none) k' none := by
  rw [swapped, adopt_entry, adopt_entry, unname_entry (by rwa [shape_unname]), unname_entry hp]

theorem exchange_entry (hp : N.shape k.1 ≠ none) (hp' : N.shape k'.1 ≠ none)
    (hn : N.shape i = some (kind, q)) (hn' : N.shape i' = some (kind', j)) (hii : i ≠ i')
    (h1 : k.1 ≠ i) (h2 : k'.1 ≠ i) (h3 : k.1 ≠ i') (h4 : k'.1 ≠ i') (hkk : k ≠ k') :
    (N.exchange k k' i i').entry = update (update N.entry k (some (kind', i'))) k'
      (some (kind, i)) := by
  have hMi : (N.swapped k k' i i').shape i = some (kind, k'.1) := by simp [shape_swapped, hii, hn]
  have hMi' : ((N.swapped k k' i i').name k' i).shape i' = some (kind', k.1) := by
    simp [shape_swapped hii, hn']
  rw [exchange_eq, name_entry hMi' (by simpa [shape_swapped hii, h1, h3] using hp),
    name_entry hMi (by simpa [shape_swapped hii, h2, h4] using hp'), swapped_entry hp hp',
    update_idem, update_comm hkk, update_idem, update_comm (Ne.symm hkk)]

end Exchange

/-! ## 不変条件 -/

namespace Inv

theorem perm (h : N.Inv fl) (hp : fl.Perm fl') : N.Inv fl' :=
  { h with counted := fun i n hn => by rw [← hp.count_eq]; exact h.counted i n hn }

theorem unname (h : N.Inv fl) (he : N.entry k = some (kind, i)) : (N.unname k).Inv (i :: fl) := by
  obtain ⟨p, hp, -⟩ := h.holder k _ he
  rw [unname_eq he hp]
  exact h.detach he hp

theorem name (h : N.Inv (i :: fl)) (he : N.entry k = none) (hp : N.shape k.1 = some (.dir, j))
    (hn : N.shape i = some (kind, q)) (hpar : kind = .dir → q = k.1) : (N.name k i).Inv fl := by
  obtain ⟨p, hp, hpd, -⟩ := node_of_shape hp
  obtain ⟨n, hn, hnk, hnp⟩ := node_of_shape hn
  rw [name_eq hn hp]
  exact h.attach he hp hpd hn fun hd => hnp.trans (hpar (hnk ▸ hd))

theorem adopt (h : N.Inv (i :: fl)) (q : InodeID) : (N.adopt i q).Inv (i :: fl) := by
  unfold Namespace.adopt
  split
  · next n hn => exact h.reparent hn q
  · exact h

theorem dropLink (h : N.Inv (i :: fl)) (hn : N.shape i = some (kind, q)) (hk : kind ≠ .dir) :
    (N.dropLink i).Inv fl := by
  obtain ⟨n, hn, hnk, -⟩ := node_of_shape hn
  simp only [Namespace.dropLink, hn]
  exact h.release hn (hnk ▸ hk)

theorem takeLink (h : N.Inv fl) (hn : N.shape i = some (kind, q)) (hk : kind ≠ .dir) :
    (N.takeLink i).Inv (i :: fl) := by
  obtain ⟨n, hn, hnk, -⟩ := node_of_shape hn
  simp only [Namespace.takeLink, hn]
  exact h.retain hn (hnk ▸ hk)

theorem forgetDir (h : N.Inv (i :: fl)) (hn : N.shape i = some (.dir, q))
    (hempty : ∀ name, N.entry (i, name) = none) : (N.forget i).Inv fl := by
  obtain ⟨n, hn, hnk, -⟩ := node_of_shape hn
  obtain ⟨hlinks, hroot, -⟩ := h.links_eq_empty hn hnk
  exact h.dropNode hlinks hempty hroot fun j hj => (List.count_cons_of_ne (Ne.symm hj)).symm

theorem entry_eq_none (h : N.Inv fl) (hn : N.shape i = some (kind, q)) (hk : kind ≠ .dir)
    (name : String) : N.entry (i, name) = none := by
  rw [Option.eq_none_iff_forall_ne_some]
  intro e he
  obtain ⟨m, hm, hmk⟩ := h.holder _ _ he
  obtain ⟨n, hn, hnk, -⟩ := node_of_shape hn
  obtain rfl : m = n := Option.some.inj (hm.symm.trans hn)
  exact hk (hnk.symm.trans hmk)

theorem forgetFile (h : N.Inv []) (hn : N.node i = some n) (hk : n.kind ≠ .dir)
    (hl : n.nlink = 0) : (N.forget i).Inv [] := by
  have hc := h.counted i n hn
  rw [wanted, if_neg hk, hl] at hc
  have hroot : i ≠ kRootInodeId := by
    rintro rfl
    obtain ⟨r, hr, hrk, -⟩ := h.root
    obtain rfl : r = n := Option.some.inj (hr.symm.trans hn)
    exact hk hrk
  refine h.dropNode (Set.encard_eq_zero.mp (add_eq_zero.mp hc).1)
    (h.entry_eq_none (shape_of_node hn) hk) hroot fun _ _ => rfl

/-! 合成した操作 -/

section

variable (h : N.Inv [])
include h

theorem create (ha : N.node i = none) (he : N.entry k = none)
    (hp : N.shape k.1 = some (.dir, j)) (hl : n.nlink = if n.kind = .dir then 2 else 1)
    (hpar : n.kind = .dir → n.parent = k.1) : (N.create k i n).Inv [] := by
  have hki : k.1 ≠ i := by
    intro hki
    rw [shape, hki, ha] at hp
    cases hp
  refine (h.addNode ha (List.not_mem_nil) hl).name (j := j) he ?_
    (shape_of_node (update_self ..)) hpar
  simpa [shape, hki] using hp

theorem link (he : N.entry k = none) (hp : N.shape k.1 = some (.dir, j))
    (hn : N.shape i = some (kind, q)) (hk : kind ≠ .dir) : (N.link k i).Inv [] := by
  exact (h.takeLink hn hk).name (by rw [takeLink_entry, he]) (shape_takeLink.trans hp)
    (shape_takeLink.trans hn) fun hd => absurd hd hk

theorem unlink (he : N.entry k = some (kind, i)) (hk : kind ≠ .dir) : (N.unlink k i).Inv [] := by
  obtain ⟨n, hn, hnk, -⟩ := h.target k _ he
  have hs : (N.unname k).shape i = some (kind, n.parent) := by
    rw [shape_unname, shape_of_node hn, hnk]
  exact (h.unname he).dropLink hs hk

theorem rmdir (he : N.entry k = some (.dir, i))
    (hempty : ∀ name, N.entry (i, name) = none) : (N.rmdir k i).Inv [] := by
  obtain ⟨n, hn, hnk, -⟩ := h.target k _ he
  obtain ⟨p, hp, -⟩ := h.holder k _ he
  refine (h.unname he).forgetDir (q := n.parent) ?_ fun name => ?_
  · rw [shape_unname, shape_of_node hn, hnk]
  · rw [unname_entry (by rw [shape_of_node hp]; simp), update_apply]
    split
    · rfl
    · exact hempty name

theorem move (he : N.entry k = some (kind, i)) (he' : N.entry k' = none)
    (hp : N.shape k'.1 = some (.dir, j)) (hki : k'.1 ≠ i) : (N.move k k' i).Inv [] := by
  obtain ⟨n, hn, hnk, -⟩ := h.target k _ he
  obtain ⟨p, hpk, -⟩ := h.holder k _ he
  have hsk : ((N.unname k).adopt i k'.1).shape k'.1 = some (.dir, j) := by
    rw [shape_adopt, if_neg hki, shape_unname, hp]
  have hsi : ((N.unname k).adopt i k'.1).shape i = some (kind, k'.1) := by
    rw [shape_adopt, if_pos rfl, shape_unname, shape_of_node hn, hnk]; rfl
  refine ((h.unname he).adopt k'.1).name ?_ hsk hsi fun _ => rfl
  rw [adopt_entry, unname_entry (by rw [shape_of_node hpk]; simp), update_apply]
  split
  · rfl
  · exact he'

theorem exchange (he : N.entry k = some (kind, i)) (he' : N.entry k' = some (kind', i'))
    (hne : i ≠ i') (hki : k'.1 ≠ i) (hki' : k.1 ≠ i') (hk : kind = .dir → k.1 ≠ i)
    (hk' : kind' = .dir → k'.1 ≠ i') : (N.exchange k k' i i').Inv [] := by
  have hkk : k' ≠ k := by
    rintro rfl
    rw [he] at he'
    exact hne (congrArg Prod.snd (Option.some.inj he'))
  obtain ⟨n, hn, hnk, -⟩ := h.target k _ he
  obtain ⟨n', hn', hnk', -⟩ := h.target k' _ he'
  obtain ⟨p, hp, hpd⟩ := h.holder k _ he
  obtain ⟨p', hp', hpd'⟩ := h.holder k' _ he'
  have hsk : N.shape k.1 = some (.dir, p.parent) := by rw [shape_of_node hp, hpd]
  have hsk' : N.shape k'.1 = some (.dir, p'.parent) := by rw [shape_of_node hp', hpd']
  have hsi : N.shape i = some (kind, n.parent) := by rw [shape_of_node hn, hnk]
  have hsi' : N.shape i' = some (kind', n'.parent) := by rw [shape_of_node hn', hnk']
  -- parent は directory なので、動かす inode と一致しない
  have hpi : k.1 ≠ i := fun hc => by
    rw [← hc, hsk] at hsi
    exact hk (congrArg Prod.fst (Option.some.inj hsi)).symm hc
  have hpi' : k'.1 ≠ i' := fun hc => by
    rw [← hc, hsk'] at hsi'
    exact hk' (congrArg Prod.fst (Option.some.inj hsi')).symm hc
  have hpk : N.shape k.1 ≠ none := by simp [hsk]
  have hpk' : N.shape k'.1 ≠ none := by simp [hsk']
  have he'' : (N.unname k).entry k' = some (kind', i') := by
    rw [unname_entry hpk, update_of_ne hkk, he']
  have h1 : ((N.unname k).unname k').Inv [i', i] := (h.unname he).unname he''
  have h2 : (((N.unname k).unname k').adopt i k'.1).Inv [i', i] :=
    ((h1.perm (.swap ..)).adopt k'.1).perm (.swap ..)
  have h3 : (N.swapped k k' i i').Inv [i, i'] := (h2.adopt k.1).perm (.swap ..)
  have hsp : (N.swapped k k' i i').shape k'.1 = some (.dir, p'.parent) := by
    simp [shape_swapped hne, hpi', hki, hsk']
  have hsm : (N.swapped k k' i i').shape i = some (kind, k'.1) := by
    simp [shape_swapped hne, hne, hsi]
  have h4 := h3.name (by simp [swapped_entry hpk hpk']) hsp hsm fun _ => rfl
  rw [exchange_eq]
  refine @Inv.name _ _ _ kind' _ p.parent k.1 h4 ?_ ?_ ?_ fun _ => rfl
  · rw [name_entry hsm (by simp [hsp]), swapped_entry hpk hpk', update_of_ne (Ne.symm hkk),
      update_of_ne (Ne.symm hkk), update_self]
  · simp [shape_swapped hne, hki', hpi, hsk]
  · simp [shape_swapped hne, hsi']

end

end Inv

end SwordFS.Metadata.Namespace
