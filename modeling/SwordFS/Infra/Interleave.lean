import SwordFS.Infra.Prog

/-!
# 環境と交互に進む program

一つの program `Prog` と、共有状態を動かす環境とが、任意の順に一歩ずつ進む様子を表す。
-/

namespace SwordFS.Infra

variable {ε σ α β κ : Type}

/-- 実行中の program と共有状態 -/
structure Running (ε σ α : Type) where
  state : σ
  prog : Prog ε σ α

/-- 環境が `e` だけ動くか、program が選択 `c` で一動作進む -/
inductive Move (ε κ : Type) where
  | env (e : κ)
  | call (c : Choice ε)

namespace Running

/-- 一歩進める。`f` は環境の動き。返り終えた program は動かない -/
def step (f : σ → κ → σ) (r : Running ε σ α) : Move ε κ → Running ε σ α
  | .env e => { r with state := f r.state e }
  | .call c =>
    match r.prog with
    | .ret _ => r
    | .act upd next => ⟨upd c r.state, next c r.state⟩

def run (f : σ → κ → σ) (r : Running ε σ α) (ms : List (Move ε κ)) : Running ε σ α :=
  ms.foldl (step f) r

@[simp] theorem run_nil (f : σ → κ → σ) (r : Running ε σ α) : r.run f [] = r := rfl

theorem run_append (f : σ → κ → σ) (r : Running ε σ α) (ms ms' : List (Move ε κ)) :
    r.run f (ms ++ ms') = (r.run f ms).run f ms' := List.foldl_append ..

end Running

namespace Prog

/-- どの動作も状態を `G` の範囲で動かす -/
def Guarantees (G : σ → σ → Prop) : Prog ε σ α → Prop
  | .ret _ => True
  | .act upd next => ∀ c s, G s (upd c s) ∧ (next c s).Guarantees G

/-- `P` の成り立つ状態を通らない限り、返り値は `Q` を満たす。状態は常に `I` を満たしている -/
def Avoids (I P : σ → Prop) (Q : α → Prop) : Prog ε σ α → Prop
  | .ret a => Q a
  | .act upd next => ∀ c s, I s → ¬ P s → ¬ P (upd c s) → (next c s).Avoids I P Q

variable {G : σ → σ → Prop} {I P : σ → Prop} {Q : β → Prop}

theorem Guarantees.bind {f : α → Prog ε σ β} (hp : p.Guarantees G)
    (hf : ∀ a, (f a).Guarantees G) : (p >>= f).Guarantees G := by
  induction p with
  | ret a => exact hf a
  | act upd next ih => exact fun c s => ⟨(hp c s).1, ih c s (hp c s).2⟩

theorem guarantees_step {f : Choice ε → σ → α × σ} (h : ∀ c s, G s (f c s).2) :
    (step f).Guarantees G := fun c s => ⟨h c s, trivial⟩

theorem Avoids.bind {p : Prog ε σ α}
    (hp : p.Avoids I P Q') (hf : ∀ a, Q' a → (f a).Avoids I P Q) : (p >>= f).Avoids I P Q := by
  induction p with
  | ret a => exact hf a hp
  | act upd next ih => exact fun c s hs h h' => ih c s (hp c s hs h h')

theorem avoids_step
    (h : ∀ c s, I s → ¬ P s → ¬ P (f c s).2 → Q (f c s).1) : (step f).Avoids I P Q := h

end Prog

namespace Running

variable {f : σ → κ → σ} {G : σ → σ → Prop} {I P : σ → Prop} {Q : α → Prop}
  {r : Running ε σ α}

/-- 環境も program も `G` の範囲で状態を動かす -/
structure Within (f : σ → κ → σ) (G : σ → σ → Prop) (r : Running ε σ α) : Prop where
  refl : ∀ s, G s s
  env : ∀ s e, G s (f s e)
  prog : r.prog.Guarantees G

theorem Within.step (h : r.Within f G) (m : Move ε κ) :
    G r.state (r.step f m).state ∧ (r.step f m).Within f G := by
  cases m with
  | env e => exact ⟨h.env _ e, h.refl, h.env, h.prog⟩
  | call c =>
    obtain ⟨s, p⟩ := r
    cases p with
    | ret a => exact ⟨h.refl s, h⟩
    | act upd next => exact ⟨(h.prog c s).1, h.refl, h.env, (h.prog c s).2⟩

theorem Within.run (h : r.Within f G) (ms : List (Move ε κ)) : (r.run f ms).Within f G := by
  induction ms generalizing r with
  | nil => exact h
  | cons m ms ih => exact ih (h.step m).2

theorem Within.invariant (h : r.Within f G) (hI : ∀ s s', I s → G s s' → I s') (hr : I r.state)
    (ms : List (Move ε κ)) : I (r.run f ms).state := by
  induction ms generalizing r with
  | nil => exact hr
  | cons m ms ih => exact ih (h.step m).2 (hI _ _ hr (h.step m).1)

/-- `Q` を満たさない値を返した run は、途中で `P` の成り立つ状態を通っている -/
theorem Within.exists_of_ret (h : r.Within f G) (hI : ∀ s s', I s → G s s' → I s') (hr : I r.state)
    (ha : r.prog.Avoids I P Q) (hret : (r.run f ms).prog = .ret a) (hq : ¬ Q a) :
    ∃ ms', ms' <+: ms ∧ P (r.run f ms').state := by
  induction ms generalizing r with
  | nil =>
    rw [run_nil] at hret
    rw [hret] at ha
    exact absurd ha hq
  | cons m ms ih =>
    by_cases hp : P r.state
    · exact ⟨[], List.nil_prefix, hp⟩
    by_cases hp' : P (r.step f m).state
    · exact ⟨[m], List.prefix_append [m] ms, hp'⟩
    -- まだ `P` を通っていないので、残りの program についても `Avoids` が成り立つ
    have ha' : (r.step f m).prog.Avoids I P Q := by
      cases m with
      | env e => exact ha
      | call c =>
        obtain ⟨s, p⟩ := r
        cases p with
        | ret b => exact ha
        | act upd next => exact ha c s hr hp hp'
    obtain ⟨ms', hpre, hP⟩ := ih (h.step m).2 (hI _ _ hr (h.step m).1) ha' hret
    exact ⟨m :: ms', List.cons_prefix_cons.mpr ⟨rfl, hpre⟩, hP⟩

end Running

end SwordFS.Infra
