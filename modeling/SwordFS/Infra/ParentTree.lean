import Mathlib.Logic.Function.Iterate

/-!
# 親への写像が作る木

点ごとに親を一つ与える写像 `par` と根 `r` について、親を辿って根に着くことを扱う。
根の親は根自身である。親の付け替えは、付け替えた点を通らない鎖を変えない。
-/

namespace SwordFS.Infra

open Function

variable {α : Type} {par par' : α → α} {r a b : α} {S : Set α}

/-- `a` から親を辿ると根に着く -/
inductive Reaches (par : α → α) (r : α) : α → Prop
  | root : Reaches par r r
  | step {a : α} (h : Reaches par r (par a)) : Reaches par r a

/-- 親を替えた点を通らない鎖は、替えた後も同じ点を通る -/
theorem iterate_eq_of_avoids (heq : ∀ x, x ∉ S → par' x = par x) (hav : ∀ n, par^[n] a ∉ S) :
    ∀ n, par'^[n] a = par^[n] a
  | 0 => rfl
  | n + 1 => by
    rw [iterate_succ_apply', iterate_succ_apply', iterate_eq_of_avoids heq hav n, heq _ (hav n)]

namespace Reaches

theorem exists_iterate (h : Reaches par r a) : ∃ n, par^[n] a = r := by
  induction h with
  | root => exact ⟨0, rfl⟩
  | step _ ih =>
    obtain ⟨n, hn⟩ := ih
    exact ⟨n + 1, hn⟩

theorem iterate_ne_self (hr : par r = r) (h : Reaches par r a) (ha : a ≠ r) (n : Nat) :
    par^[n + 1] a ≠ a := by
  intro hc
  obtain ⟨m, hm⟩ := h.exists_iterate
  -- 周期を重ねて、根に着いた後まで進める
  have hper : ∀ j, par^[(n + 1) * j] a = a := by
    intro j
    induction j with
    | zero => rfl
    | succ j ih => rw [Nat.mul_succ, iterate_add_apply, hc, ih]
  have hle : (n + 1) * m = ((n + 1) * m - m) + m :=
    (Nat.sub_add_cancel (Nat.le_mul_of_pos_left m (Nat.succ_pos n))).symm
  have := hper m
  rw [hle, iterate_add_apply, hm, iterate_fixed hr] at this
  exact ha this.symm

/--
親を付け替えた点 `S` が新しい親から根に着くなら、他の点も根に着く。
`D` は親について閉じた点の範囲で、その外は問わない。
-/
theorem of_moved {D : α → Prop} (hD : ∀ x, D x → D (par x))
    (heq : ∀ x, D x → x ∉ S → par' x = par x) (hS : ∀ x, D x → x ∈ S → Reaches par' r (par' x))
    (h : Reaches par r a) : D a → Reaches par' r a := by
  induction h with
  | root => exact fun _ => .root
  | @step a _ ih =>
    intro ha
    by_cases haS : a ∈ S
    · exact .step (hS a ha haS)
    · exact .step (by rw [heq a ha haS]; exact ih (hD a ha))

theorem of_avoids (heq : ∀ x, x ∉ S → par' x = par x) (h : Reaches par r a)
    (hav : ∀ n, par^[n] a ∉ S) : Reaches par' r a :=
  h.of_moved (D := fun x => ∀ n, par^[n] x ∉ S) (fun _ hx n => hx (n + 1))
    (fun x _ hx => heq x hx) (fun _ hx hxS => absurd hxS (hx 0)) hav

end Reaches

end SwordFS.Infra
