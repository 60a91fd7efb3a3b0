import Mathlib.Data.List.Basic
import Mathlib.Logic.Basic

/-!
# 割り込まれうる逐次 program とその weakest precondition

共有状態 `σ` の上で動く program を resumption として表す。
一回の `act` が一つの原子的な動作であり、動作と動作の間には他の thread が割り込める。
外界の非決定性（schedule と fault）は `Choice` として一動作ごとに一つ届く。

`Prog` は帰納型なので、どの choice の列に対しても必ず止まる。
したがって `exec` は全域関数であり、「返ってくれば正しい」ではなく「必ず返り、正しい」を述べられる。
-/

namespace SwordFS.Infra

/--
一動作ごとに外界が選ぶもの。

`pick` は並列合成のどの thread を進めるかで、入れ子の合成が一段ごとに下の bit から使う。
`ans` は動作の中の外部呼び出しへの答えである。
-/
structure Choice (ε : Type) where
  pick : Nat
  ans : Nat → ε

namespace Choice

variable {ε : Type}

/-- 合成の左を進める -/
def Left (c : Choice ε) : Prop := c.pick % 2 = 0

instance (c : Choice ε) : Decidable c.Left := inferInstanceAs (Decidable (_ = _))

/-- 一段の合成で bit を一つ使った残り -/
def inner (c : Choice ε) : Choice ε := { c with pick := c.pick / 2 }

/-- 原子的な区間の中の `n` 番目の動作に届く選択 -/
def sub (c : Choice ε) (n : Nat) : Choice ε := { pick := 0, ans := fun _ => c.ans n }

/-- 答えがすべて `E` を満たす -/
def Within (E : ε → Prop) (c : Choice ε) : Prop := ∀ n, E (c.ans n)

theorem Within.inner {c : Choice ε} (h : c.Within E) : c.inner.Within E := h

theorem Within.sub {c : Choice ε} (h : c.Within E) (n : Nat) : (c.sub n).Within E := fun _ => h n

end Choice

/-- 状態 `σ` の上の resumption。`act` の `next` は更新前の状態を読む -/
inductive Prog (ε σ α : Type) where
  | ret (a : α)
  | act (upd : Choice ε → σ → σ) (next : Choice ε → σ → Prog ε σ α)

namespace Prog

variable {ε σ τ α β γ : Type}

/-! ## 組み立て -/

protected def bind : Prog ε σ α → (α → Prog ε σ β) → Prog ε σ β
  | .ret a, f => f a
  | .act upd next, f => .act upd fun c s => (next c s).bind f

instance : Monad (Prog ε σ) where
  pure := .ret
  bind := Prog.bind

/-- 一動作の program -/
def step (f : Choice ε → σ → α × σ) : Prog ε σ α :=
  .act (fun c s => (f c s).2) fun c s => .ret (f c s).1

/-- 状態を変えずに読む一動作 -/
def gets (f : σ → α) : Prog ε σ α := step fun _ s => (f s, s)

/-- 大きな状態 `τ` の一部 `σ` の上の program を `τ` の上で走らせる -/
def zoom (get : τ → σ) (set : σ → τ → τ) : Prog ε σ α → Prog ε τ α
  | .ret a => .ret a
  | .act upd next =>
    .act (fun c t => set (upd c (get t)) t) fun c t => (next c (get t)).zoom get set

/-! ## 実行 -/

/-- choice の列 `cs` に従って最後まで走らせる -/
def exec : Prog ε σ α → (Nat → Choice ε) → σ → α × σ
  | .ret a, _, s => (a, s)
  | .act upd next, cs, s => (next (cs 0) s).exec (fun n => cs (n + 1)) (upd (cs 0) s)

/-- 区間 `p` を、割り込まれない一動作として走らせる -/
def atomic (p : Prog ε σ α) : Prog ε σ α := step fun c s => p.exec c.sub s

/-! ## 並列合成 -/

/-- `par` の左が `act` の場合。`kp` は左の続きを右と並べたもの -/
def parAct (upd : Choice ε → σ → σ)
    (kp : Choice ε → σ → Prog ε σ β → Prog ε σ (α × β)) : Prog ε σ β → Prog ε σ (α × β)
  | .ret b => .act upd fun c s => kp c s (.ret b)
  | .act upd' next =>
    .act (fun c s => if c.Left then upd c.inner s else upd' c.inner s) fun c s =>
      if c.Left then kp c.inner s (.act upd' next) else parAct upd kp (next c.inner s)

/-- 二つの program を任意の順に交互に進める -/
def par : Prog ε σ α → Prog ε σ β → Prog ε σ (α × β)
  | .ret a, q => q.bind fun b => .ret (a, b)
  | .act upd next, q => parAct upd (fun c s => (next c s).par) q

/-- program の列を並列に走らせ、結果を同じ順に集める -/
def parAll : List (Prog ε σ α) → Prog ε σ (List α)
  | [] => .ret []
  | p :: ps => (p.par (parAll ps)).bind fun r => .ret (r.1 :: r.2)

/-! ## weakest precondition -/

section Wp

variable (E : ε → Prop) (R G : σ → σ → Prop)

/--
環境が `R` の動きしかせず、答えが `E` に収まるとき、状態 `s` から走る `p` は
毎動作 `G` を守り、返った時点で `Q` が成り立つ。

環境は各動作の直前と、返った後にも動ける。
-/
def Wp : Prog ε σ α → (α → σ → Prop) → σ → Prop
  | .ret a, Q, s => ∀ s', R s s' → Q a s'
  | .act upd next, Q, s =>
    ∀ s', R s s' → ∀ c : Choice ε, c.Within E →
      G s' (upd c s') ∧ Wp (next c s') Q (upd c s')

end Wp

/-- rely として使える関係。環境は何もしなくてもよく、何度動いてもよい -/
structure IsRely (R : σ → σ → Prop) : Prop where
  refl : ∀ s, R s s
  trans : ∀ {s₁ s₂ s₃}, R s₁ s₂ → R s₂ s₃ → R s₁ s₃

variable {E : ε → Prop} {R G : σ → σ → Prop}

variable {p : Prog ε σ α} {s : σ}

theorem Wp.mono (h : p.Wp E R G Q s) (hq : ∀ a s, Q a s → Q' a s) : p.Wp E R G Q' s := by
  induction p generalizing s with
  | ret a => exact fun s' hr => hq a s' (h s' hr)
  | act upd next ih =>
    intro s' hr c hc
    exact ⟨(h s' hr c hc).1, ih c s' (h s' hr c hc).2⟩

/-- rely を強め、guarantee を弱め、答えの範囲を狭めてもよい -/
theorem Wp.weaken (h : p.Wp E R G Q s) (he : ∀ a, E' a → E a) (hr : ∀ s s', R' s s' → R s s')
    (hg : ∀ s s', G s s' → G' s s') : p.Wp E' R' G' Q s := by
  induction p generalizing s with
  | ret a => exact fun s' h' => h s' (hr _ _ h')
  | act upd next ih =>
    intro s' h' c hc
    have hs := h s' (hr _ _ h') c fun n => he _ (hc n)
    exact ⟨hg _ _ hs.1, ih c s' hs.2⟩

theorem Wp.rely (h : p.Wp E R G Q s) (hR : IsRely R) (hr : R s s') : p.Wp E R G Q s' := by
  cases p with
  | ret a => exact fun s'' hr' => h s'' (hR.trans hr hr')
  | act upd next => exact fun s'' hr' => h s'' (hR.trans hr hr')

theorem wp_bind {Q : β → σ → Prop} (hR : IsRely R)
    (h : p.Wp E R G (fun a s => (f a).Wp E R G Q s) s) : (p >>= f).Wp E R G Q s := by
  induction p generalizing s with
  | ret a => exact h s (hR.refl s)
  | act upd next ih =>
    intro s' hr c hc
    exact ⟨(h s' hr c hc).1, ih c s' (h s' hr c hc).2⟩

/-! ## 実行の健全性 -/

/-- 環境が動かないとき、`Wp` は実際の実行の結果を述べる -/
theorem Wp.exec (h : p.Wp E Eq G Q s)
    (hc : ∀ n, (cs n).Within E) : Q (p.exec cs s).1 (p.exec cs s).2 := by
  induction p generalizing s cs with
  | ret a => exact h s rfl
  | act upd next ih => exact ih (cs 0) s (h s rfl (cs 0) (hc 0)).2 fun n => hc (n + 1)

/-- 部分状態の上で示した性質を、全体の状態に移す -/
theorem Wp.zoom {get : τ → σ} {set : σ → τ → τ}
    (h : p.Wp E R G Q (get t)) (hgs : ∀ a t, get (set a t) = a)
    (hr : ∀ t t', R' t t' → R (get t) (get t')) (hg : ∀ t a, G (get t) a → G' t (set a t)) :
    (p.zoom get set).Wp E R' G' (fun a t => Q a (get t)) t := by
  induction p generalizing t with
  | ret a => exact fun t' h' => h _ (hr _ _ h')
  | act upd next ih =>
    intro t' h' c hc
    have hs := h _ (hr _ _ h') c hc
    exact ⟨hg _ _ hs.1, ih c _ ((hgs _ _).symm ▸ hs.2)⟩

/-! ## 並列合成の規則 -/

theorem wp_map {f : α → β} (h : p.Wp E R G (fun a s => Q (f a) s) s) :
    (p.bind fun a => .ret (f a)).Wp E R G Q s := by
  induction p generalizing s with
  | ret a => exact h
  | act upd next ih =>
    intro s' hr c hc
    exact ⟨(h s' hr c hc).1, ih c s' (h s' hr c hc).2⟩

/-- 環境と自分の動作の両方で保たれる `P` は、事後条件に添えられる -/
theorem Wp.frame {P : σ → Prop} (h : p.Wp E R G Q s) (hp : P s) (hr : ∀ s s', P s → R s s' → P s')
    (hg : ∀ s s', P s → G s s' → P s') : p.Wp E R G (fun a s => P s ∧ Q a s) s := by
  induction p generalizing s with
  | ret a => exact fun s' h' => ⟨hr _ _ hp h', h s' h'⟩
  | act upd next ih =>
    intro s' h' c hc
    have hs := h s' h' c hc
    exact ⟨hs.1, ih c s' hs.2 (hg _ _ (hr _ _ hp h') hs.1)⟩

/--
並列合成の規則。互いの guarantee が相手の rely に入れば、
それぞれの `Wp` から両方の事後条件が同じ状態で成り立つ。
-/
theorem wp_par {R₁ R₂ G₁ G₂ : σ → σ → Prop} {Q₂ : β → σ → Prop}
    (hR₁ : IsRely R₁) (hR₂ : IsRely R₂) (h₁₂ : ∀ s s', G₁ s s' → R₂ s s')
    (h₂₁ : ∀ s s', G₂ s s' → R₁ s s') (hp : p.Wp E R₁ G₁ Q₁ s) (hq : q.Wp E R₂ G₂ Q₂ s) :
    (p.par q).Wp E (fun s s' => R₁ s s' ∧ R₂ s s') (fun s s' => G₁ s s' ∨ G₂ s s')
      (fun r s => Q₁ r.1 s ∧ Q₂ r.2 s) s := by
  induction p generalizing q s with
  | ret a =>
    -- 終わった左の事後条件は、右の動きが左の rely に入るので保たれる
    have hq' : q.Wp E (fun s s' => R₁ s s' ∧ R₂ s s') (fun s s' => G₂ s s') Q₂ s :=
      hq.weaken (fun _ => id) (fun _ _ h => h.2) fun _ _ => id
    have hf := hq'.frame (P := fun s => ∀ s', R₁ s s' → Q₁ a s') hp
      (fun s s' hp h s'' h' => hp s'' (hR₁.trans h.1 h'))
      (fun s s' hp h s'' h' => hp s'' (hR₁.trans (h₂₁ _ _ h) h'))
    refine wp_map ((hf.weaken (fun _ => id) (fun _ _ => id) fun _ _ => .inr).mono ?_)
    exact fun b s h => ⟨h.1 s (hR₁.refl s), h.2⟩
  | act upd next ihp =>
    -- 左の続きについては ihp、右の続きについては内側の帰納法
    induction q generalizing s with
    | ret b =>
      intro s' h' c hc
      have hs := hp s' h'.1 c hc
      exact ⟨.inl hs.1, ihp c s' hs.2 ((hq.rely hR₂ h'.2).rely hR₂ (h₁₂ _ _ hs.1))⟩
    | act upd' next' ihq =>
      intro s' h' c hc
      have hp' := hp.rely hR₁ h'.1
      have hq' := hq.rely hR₂ h'.2
      by_cases hpick : c.Left
      · have hs := hp s' h'.1 c.inner hc.inner
        simp only [hpick, if_true]
        exact ⟨.inl hs.1, ihp c.inner s' hs.2 (hq'.rely hR₂ (h₁₂ _ _ hs.1))⟩
      · have hs := hq s' h'.2 c.inner hc.inner
        simp only [hpick, if_false]
        exact ⟨.inr hs.1, ihq c.inner s' (hp'.rely hR₁ (h₂₁ _ _ hs.1)) hs.2⟩

end Prog

end SwordFS.Infra
