import SwordFS.Infra.Prog

/-!
# 毎動作の性質と、大きな状態への持ち上げ

rely/guarantee の証明で繰り返し使うもの。
-/

namespace SwordFS.Infra.Prog

variable {ε σ τ υ α β : Type} {E : ε → Prop}

/-! ## 毎動作の性質 -/

/-- 環境が何をしても毎動作 `G` を守り、返る値は `P` を満たす -/
def Steps (E : ε → Prop) (G : σ → σ → Prop) (P : α → Prop) : Prog ε σ α → Prop
  | .ret a => P a
  | .act upd next =>
    ∀ (s : σ) (c : Choice ε), c.Within E → G s (upd c s) ∧ Steps E G P (next c s)

section

variable {G : σ → σ → Prop} {P : α → Prop}

variable {p : Prog ε σ α}

theorem Steps.mono (h : p.Steps E G P)
    (hg : ∀ s s', G s s' → G' s s') (hp : ∀ a, P a → P' a) : p.Steps E G' P' := by
  induction p with
  | ret a => exact hp a h
  | act upd next ih => exact fun s c hc => ⟨hg _ _ (h s c hc).1, ih c s (h s c hc).2⟩

theorem steps_step
    (h : ∀ s (c : Choice ε), c.Within E → G s (f c s).2 ∧ P (f c s).1) : (step f).Steps E G P := h

theorem Steps.bind {f : α → Prog ε σ β} (h : p.Steps E G P)
    (hf : ∀ a, P a → (f a).Steps E G P') : (p.bind f).Steps E G P' := by
  induction p with
  | ret a => exact hf a h
  | act upd next ih => exact fun s c hc => ⟨(h s c hc).1, ih c s (h s c hc).2⟩

/-- 環境によらない性質は、どの rely の下でも成り立つ -/
theorem Steps.wp (h : p.Steps E G P) (R : σ → σ → Prop) (s : σ) :
    p.Wp E R G (fun a _ => P a) s := by
  induction p generalizing s with
  | ret a => exact fun _ _ => h
  | act upd next ih => exact fun s' _ c hc => ⟨(h s' c hc).1, ih c s' (h s' c hc).2 _⟩

/-- 環境と自分の動作で保たれる `I` の下では、毎動作の `G` から `G'` が出ればよい -/
theorem Steps.wp_inv {I : σ → Prop} (h : p.Steps E G P) (hI : I s)
    (hrely : ∀ s s', I s → R s s' → I s') (hstep : ∀ s s', I s → G s s' → G' s s' ∧ I s') :
    p.Wp E R G' (fun a s => I s ∧ P a) s := by
  induction p generalizing s with
  | ret a => exact fun s' hr => ⟨hrely s s' hI hr, h⟩
  | act upd next ih =>
    intro s' hr c hc
    have hs := hstep _ _ (hrely s s' hI hr) (h s' c hc).1
    exact ⟨hs.1, ih c s' (h s' c hc).2 hs.2⟩

theorem Steps.zoom {get : τ → σ} {set : σ → τ → τ} (h : p.Steps E G P) :
    (p.zoom get set).Steps E (fun t t' => ∃ a, G (get t) a ∧ t' = set a t) P := by
  induction p with
  | ret a => exact h
  | act upd next ih =>
    exact fun t c hc => ⟨⟨_, (h (get t) c hc).1, rfl⟩, ih c (get t) (h (get t) c hc).2⟩

end

/-! ## zoom の合成則 -/

section

variable {get : τ → σ} {set : σ → τ → τ}

theorem zoom_bind (p : Prog ε σ α) (f : α → Prog ε σ β) :
    (p.bind f).zoom get set = (p.zoom get set).bind fun a => (f a).zoom get set := by
  induction p with
  | ret a => rfl
  | act upd next ih =>
    simp only [Prog.bind, Prog.zoom, Prog.act.injEq, true_and]
    exact funext fun c => funext fun t => ih c (get t)

theorem zoom_zoom (p : Prog ε σ α) : (p.zoom get set).zoom get' set' =
      p.zoom (fun u => get (get' u)) fun a u => set' (set a (get' u)) u := by
  induction p with
  | ret a => rfl
  | act upd next ih =>
    simp only [Prog.zoom, Prog.act.injEq, true_and]
    exact funext fun c => funext fun u => ih c (get (get' u))

theorem zoom_parAct {kp' : Choice ε → τ → Prog ε τ β → Prog ε τ (α × β)} (q : Prog ε σ β)
    (hk : ∀ c t (r : Prog ε σ β), (kp c (get t) r).zoom get set = kp' c t (r.zoom get set)) :
    (parAct upd kp q).zoom get set =
      parAct (fun c t => set (upd c (get t)) t) kp' (q.zoom get set) := by
  induction q with
  | ret b =>
    simp only [parAct, Prog.zoom, Prog.act.injEq, true_and]
    exact funext fun c => funext fun t => hk c t (.ret b)
  | act upd' next ih =>
    simp only [parAct, Prog.zoom, Prog.act.injEq]
    constructor
    · funext c t
      split <;> rfl
    · funext c t
      split
      · exact hk _ _ _
      · exact ih _ _

theorem zoom_par (p : Prog ε σ α) (q : Prog ε σ β) :
    (p.par q).zoom get set = (p.zoom get set).par (q.zoom get set) := by
  induction p generalizing q with
  | ret a => exact zoom_bind _ _
  | act upd next ih => exact zoom_parAct q fun c t r => ih c (get t) r

theorem zoom_parAll (ps : List (Prog ε σ α)) :
    (parAll ps).zoom get set = parAll (ps.map (·.zoom get set)) := by
  induction ps with
  | nil => rfl
  | cons p ps ih =>
    simp only [parAll, List.map_cons]
    rw [zoom_bind, zoom_par, ih]
    rfl

end

/-! ## 並列合成 -/

/-- 列の対ごとに rely と guarantee が噛み合えば、並列合成の規則が使える -/
theorem wp_parAll_pairwise {ι : Type} {R G : ι → σ → σ → Prop} {p : ι → Prog ε σ α}
    {Q : ι → α → σ → Prop} {l : List ι} {s : σ} (hR : ∀ i, IsRely (R i))
    (hgr : l.Pairwise fun i j =>
      (∀ s s', G i s s' → R j s s') ∧ ∀ s s', G j s s' → R i s s')
    (h : ∀ i ∈ l, (p i).Wp E (R i) (G i) (Q i) s) :
    (parAll (l.map p)).Wp E (fun s s' => ∀ i ∈ l, R i s s') (fun s s' => ∃ i ∈ l, G i s s')
      (fun as s => List.Forall₂ (fun i a => Q i a s) l as) s := by
  induction l with
  | nil => exact fun _ _ => .nil
  | cons i l ih =>
    obtain ⟨hi, hrest⟩ := List.pairwise_cons.mp hgr
    have htail := ih hrest fun j hj => h j (List.mem_cons_of_mem _ hj)
    have htailR : IsRely fun s s' => ∀ j ∈ l, R j s s' :=
      ⟨fun s j _ => (hR j).refl s, fun h h' j hj => (hR j).trans (h j hj) (h' j hj)⟩
    have hpar := wp_par (hR i) htailR (fun s s' hs j hj => (hi j hj).1 s s' hs)
      (fun s s' ⟨j, hj, hs⟩ => (hi j hj).2 s s' hs) (h i (List.mem_cons_self ..)) htail
    refine wp_map ((hpar.weaken (fun _ => id) ?_ ?_).mono fun r s hq => .cons hq.1 hq.2)
    · exact fun s s' hs => ⟨hs i (List.mem_cons_self ..), fun j hj => hs j (List.mem_cons_of_mem _ hj)⟩
    · rintro s s' (hs | ⟨j, hj, hs⟩)
      · exact ⟨i, List.mem_cons_self .., hs⟩
      · exact ⟨j, List.mem_cons_of_mem _ hj, hs⟩

end SwordFS.Infra.Prog
