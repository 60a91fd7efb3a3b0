import Mathlib.Data.List.Basic

/-!
# thread の列

進行中の呼び出しを program counter の列として持つ system の、共通の道具。
-/

namespace SwordFS.Infra

/-- 実行の中の一手 -/
structure Taken (σ ω γ : Type) where
  before : σ
  /-- その前までに溜めたもの -/
  seen : γ
  label : ω
  after : σ

section

variable {σ ε ω γ : Type} (step : σ → ε → Option (ω × σ)) (watch : γ → σ → ω → γ)

/-- 実行の途中で見たことを `watch` で溜めながら進める。進めない一手は何もしない -/
def runWith : σ × γ → List ε → σ × γ
  | x, [] => x
  | (S, g), ev :: evs => match step S ev with
    | none => runWith (S, g) evs
    | some (label, S') => runWith (S', watch g S label) evs

def steps : σ × γ → List ε → List (Taken σ ω γ)
  | _, [] => []
  | (S, g), ev :: evs => match step S ev with
    | none => steps (S, g) evs
    | some (label, S') => ⟨S, g, label, S'⟩ :: steps (S', watch g S label) evs

theorem runWith_append (x : σ × γ) (evs evs' : List ε) :
    runWith step watch x (evs ++ evs') = runWith step watch (runWith step watch x evs) evs' := by
  induction evs generalizing x with
  | nil => rfl
  | cons ev evs ih =>
    obtain ⟨S, g⟩ := x
    rw [List.cons_append, runWith, runWith]
    split
    next => exact ih (S, g)
    next label S' _ => exact ih (S', watch g S label)

theorem runWith_invariant {I : σ → γ → Prop} {P : ε → Prop}
    (hstep : ∀ S g ev label S', P ev → I S g → step S ev = some (label, S') →
      I S' (watch g S label)) (hev : ∀ ev ∈ evs, P ev)
    (h : I S g) : I (runWith step watch (S, g) evs).1 (runWith step watch (S, g) evs).2 := by
  induction evs generalizing S g with
  | nil => exact h
  | cons ev evs ih =>
    have hrest := fun e he => hev e (List.mem_cons_of_mem _ he)
    rw [runWith]
    split
    next => exact ih hrest h
    next label S' hs => exact ih hrest (hstep S g ev label S' (hev ev List.mem_cons_self) h hs)

/-- 実行の中で起きた一手がどれも保つ性質は、実行の全体で成り立つ -/
theorem runWith_of_steps {I : σ → γ → Prop} {P : Taken σ ω γ → Prop}
    (hstep : ∀ S g ev label S', P ⟨S, g, label, S'⟩ → I S g → step S ev = some (label, S') →
      I S' (watch g S label)) (evs : List ε)
    (hP : ∀ t ∈ steps step watch (S, g) evs, P t) (h : I S g) :
    I (runWith step watch (S, g) evs).1 (runWith step watch (S, g) evs).2 := by
  induction evs generalizing S g with
  | nil => exact h
  | cons ev evs ih =>
    rw [steps] at hP
    rw [runWith]
    split
    next hnone => exact ih (by simpa only [hnone] using hP) h
    next label S' hs =>
      simp only [hs, List.forall_mem_cons] at hP
      exact ih hP.2 (hstep S g ev label S' hP.1 h hs)

theorem runWith_always {I : σ → γ → Prop}
    (hstep : ∀ S g ev label S', I S g → step S ev = some (label, S') → I S' (watch g S label))
    (evs : List ε) (h : I S g) :
    I (runWith step watch (S, g) evs).1 (runWith step watch (S, g) evs).2 := by
  have hevs : ∀ ev ∈ evs, (fun _ => True) ev := fun _ _ => trivial
  exact runWith_invariant step watch (fun S g ev label S' _ => hstep S g ev label S') hevs h

end

/-- すべての thread が満たす性質 -/
def AllThreads {π : Type} (ts : List π) (P : Nat → π → Prop) : Prop :=
  ∀ i p, ts[i]? = some p → P i p

namespace AllThreads

variable {π : Type} {ts : List π} {P Q : Nat → π → Prop}

theorem nil : AllThreads ([] : List π) P := by
  intro i p hi
  simp at hi

theorem append (h : AllThreads ts P) (hold : ∀ i p, ts[i]? = some p → P i p → Q i p)
    (hnew : Q ts.length new) : AllThreads (ts ++ [new]) Q := by
  intro i p hi
  rw [List.getElem?_append] at hi
  split at hi
  next => exact hold i p hi (h i p hi)
  next hge =>
    obtain ⟨hlt, rfl⟩ := List.getElem?_eq_some_iff.mp hi
    have hlen : i = ts.length := by simp at hlt; omega
    subst hlen
    simpa using hnew

theorem set (h : AllThreads ts P) (hold : ∀ j q, j ≠ i → ts[j]? = some q → P j q → Q j q)
    (hnew : Q i new) : AllThreads (ts.set i new) Q := by
  intro j q hj
  rw [List.getElem?_set] at hj
  split at hj
  next he =>
    subst he
    split at hj <;> cases hj
    exact hnew
  next hne => exact hold j q (Ne.symm hne) hj (h j q hj)

end AllThreads

end SwordFS.Infra
