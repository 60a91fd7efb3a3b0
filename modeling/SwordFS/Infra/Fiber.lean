import Mathlib.Data.Set.Card

/-!
# 部分写像の fiber の大きさ

部分写像 `f` の値のうち条件 `P` を満たすものの key の集合を数える。
一点を書き換えたとき、集合の大きさは高々一つしか動かない。
-/

namespace SwordFS.Infra

open Function

theorem natCast_pred {l : ℕ} {c : ℕ∞} (h : (l : ℕ∞) = c + 1) : ((l - 1 : ℕ) : ℕ∞) = c := by
  cases l with
  | zero => exact absurd (add_eq_zero.mp h.symm).2 one_ne_zero
  | succ m =>
    rw [Nat.cast_succ] at h
    exact ENat.add_left_injective_of_ne_top ENat.one_ne_top h

variable {κ ν : Type} {f : κ → Option ν} {P : κ → ν → Prop} {k : κ} {v : ν}

/-- 値が条件を満たす key の集合 -/
def fiber (f : κ → Option ν) (P : κ → ν → Prop) : Set κ := {k | ∃ v, f k = some v ∧ P k v}

variable [DecidableEq κ]

theorem mem_fiber_update {o : Option ν} {j : κ} :
    j ∈ fiber (update f k o) P ↔
      (j = k ∧ ∃ v, o = some v ∧ P k v) ∨ (j ≠ k ∧ j ∈ fiber f P) := by
  by_cases h : j = k
  · subst h
    simp [fiber]
  · simp [fiber, h]

theorem encard_fiber_erase (hf : f k = some v) (hP : P k v) :
    (fiber (update f k none) P).encard + 1 = (fiber f P).encard := by
  have hk : k ∈ fiber f P := ⟨v, hf, hP⟩
  have he : fiber (update f k none) P = fiber f P \ {k} := by
    ext j
    rw [mem_fiber_update]
    simp [and_comm]
  rw [he, Set.encard_sdiff_singleton_add_one hk]

theorem fiber_erase_of_not (hf : f k = some v) (hP : ¬ P k v) :
    fiber (update f k none) P = fiber f P := by
  ext j
  rw [mem_fiber_update]
  constructor
  · rintro (⟨-, _, h, -⟩ | ⟨-, h⟩)
    · cases h
    · exact h
  · intro h
    refine .inr ⟨?_, h⟩
    rintro rfl
    obtain ⟨w, hw, hPw⟩ := h
    rw [hf] at hw
    cases hw
    exact hP hPw

theorem encard_fiber_insert (hf : f k = none) (hP : P k v) :
    (fiber (update f k (some v)) P).encard = (fiber f P).encard + 1 := by
  have hk : k ∉ fiber f P := by
    rintro ⟨w, hw, -⟩
    rw [hf] at hw
    cases hw
  have he : fiber (update f k (some v)) P = insert k (fiber f P) := by
    ext j
    rw [mem_fiber_update, Set.mem_insert_iff]
    by_cases hj : j = k <;> simp [hj, hP]
  rw [he, Set.encard_insert_of_notMem hk]

theorem fiber_insert_of_not (hf : f k = none) (hP : ¬ P k v) :
    fiber (update f k (some v)) P = fiber f P := by
  ext j
  rw [mem_fiber_update]
  constructor
  · rintro (⟨-, _, h, hw⟩ | ⟨-, h⟩)
    · cases h; exact absurd hw hP
    · exact h
  · intro h
    refine .inr ⟨?_, h⟩
    rintro rfl
    obtain ⟨w, hw, -⟩ := h
    rw [hf] at hw
    cases hw

end SwordFS.Infra
