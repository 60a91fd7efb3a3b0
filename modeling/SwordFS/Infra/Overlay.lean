import Mathlib.Data.List.Basic
import Mathlib.Tactic.Common

/-!
# 重ね合わせ

位置から値への部分関数を古い順に並べ、後のものが前のものを隠すとして読む。
-/

namespace SwordFS.Infra

variable {α : Type}

/-- 古い順の層を重ねたときの位置 `q` の値 -/
def overlay : List (Nat → Option α) → Nat → Option α
  | [], _ => none
  | l :: ls, q => (overlay ls q).or (l q)

@[simp] theorem overlay_nil (q : Nat) : overlay ([] : List (Nat → Option α)) q = none := rfl

theorem overlay_cons (l : Nat → Option α) (ls : List (Nat → Option α)) (q : Nat) :
    overlay (l :: ls) q = (overlay ls q).or (l q) := rfl

theorem overlay_append (ls ms : List (Nat → Option α)) (q : Nat) :
    overlay (ls ++ ms) q = (overlay ms q).or (overlay ls q) := by
  induction ls with
  | nil => simp
  | cons l ls ih => rw [List.cons_append, overlay_cons, ih, overlay_cons, Option.or_assoc]

theorem overlay_singleton (l : Nat → Option α) (q : Nat) : overlay [l] q = l q := by
  simp [overlay]

end SwordFS.Infra
