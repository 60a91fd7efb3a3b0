import Mathlib.Data.List.Basic
import Mathlib.Tactic.Common

/-!
# 回転する cursor

列を円環と見て、cursor の位置から幅 `width` の窓を取り、cursor を幅だけ進める。
-/

namespace SwordFS.Infra

variable {α β : Type}

/-- 反復子から `n` 個を取る。終わりに来たら先頭に戻る -/
def walk (l : List α) : List α → Nat → List α
  | _, 0 => []
  | x :: rest, n + 1 => x :: walk l rest n
  | [], n + 1 =>
    match l with
    | [] => []
    | x :: rest => x :: walk l rest n

/-- cursor の位置から始まる窓 -/
def window (l : List α) (start width : Nat) : List α := walk l (l.drop (start % l.length)) width

theorem walk_map (f : α → β) (l : List α) (n : Nat) :
    ∀ it : List α, (walk l it n).map f = walk (l.map f) (it.map f) n := by
  induction n with
  | zero =>
    intro it
    cases it <;> rfl
  | succ n ih =>
    intro it
    cases it with
    | cons x rest => exact congrArg (f x :: ·) (ih rest)
    | nil =>
      cases l with
      | nil => rfl
      | cons x rest => exact congrArg (f x :: ·) (ih rest)

theorem window_map (f : α → β) (l : List α) (start width : Nat) :
    (window l start width).map f = window (l.map f) start width := by
  unfold window
  rw [walk_map, List.map_drop, List.length_map]

variable {l : List α}

theorem length_window (h : l ≠ []) (start width : Nat) : (window l start width).length = width := by
  have hwalk : ∀ (n : Nat) (it : List α), (walk l it n).length = n := by
    intro n
    induction n with
    | zero =>
      intro it
      cases it <;> rfl
    | succ n ih =>
      intro it
      cases it with
      | cons x rest => exact congrArg (· + 1) (ih rest)
      | nil =>
        cases l with
        | nil => exact absurd rfl h
        | cons x rest => exact congrArg (· + 1) (ih rest)
  exact hwalk width _

theorem walk_subset : ∀ {it : List α}, (∀ b ∈ it, b ∈ l) → a ∈ walk l it n → a ∈ l := by
  induction n with
  | zero =>
    intro it _ ha
    cases it <;> cases ha
  | succ n ih =>
    intro it hit ha
    cases it with
    | cons x rest =>
      rcases List.mem_cons.mp ha with rfl | hrest
      · exact hit _ List.mem_cons_self
      · exact ih (fun b hb => hit b (List.mem_cons_of_mem _ hb)) hrest
    | nil =>
      cases l with
      | nil => cases ha
      | cons x rest =>
        rcases List.mem_cons.mp ha with rfl | hrest
        · exact List.mem_cons_self
        · exact ih (fun b hb => List.mem_cons_of_mem _ hb) hrest

theorem window_subset (h : a ∈ window l start width) : a ∈ l :=
  walk_subset (fun _ hb => List.mem_of_mem_drop hb) h

theorem mem_walk (hs : s ≤ l.length) (hi : i < n)
    (ha : l[(s + i) % l.length]? = some a) : a ∈ walk l (l.drop s) n := by
  induction n generalizing s i with
  | zero => exact absurd hi (Nat.not_lt_zero i)
  | succ n ih =>
    rcases Nat.lt_or_ge s l.length with hlt | hge
    · rw [List.drop_eq_getElem_cons hlt]
      cases i with
      | zero =>
        rw [Nat.add_zero, Nat.mod_eq_of_lt hlt, List.getElem?_eq_getElem hlt] at ha
        cases ha
        exact List.mem_cons_self
      | succ i =>
        refine List.mem_cons_of_mem _ (ih hlt (Nat.lt_of_succ_lt_succ hi) ?_)
        rw [show s + 1 + i = s + (i + 1) by omega]
        exact ha
    · -- 終わりに来た反復子は先頭に戻る
      obtain rfl : s = l.length := Nat.le_antisymm hs hge
      rw [Nat.add_mod_left] at ha
      cases l with
      | nil => simp at ha
      | cons x rest =>
        rw [List.drop_length]
        cases i with
        | zero =>
          rw [Nat.zero_mod] at ha
          cases ha
          exact List.mem_cons_self
        | succ i =>
          refine List.mem_cons_of_mem _ ?_
          have hrest := ih (s := 1) (i := i) (Nat.succ_pos _) (Nat.lt_of_succ_lt_succ hi)
            (by rw [Nat.add_comm 1 i]; exact ha)
          exact hrest

/-- 幅の合計が列の長さに達すれば、続いた窓はすべての要素を含む -/
theorem windows_cover (hlen : l.length ≤ width * count)
    (ha : a ∈ l) : ∃ j < count, a ∈ window l (start + width * j) width := by
  obtain ⟨p, hp, rfl⟩ := List.mem_iff_getElem.mp ha
  have hpos : 0 < l.length := Nat.lt_of_le_of_lt (Nat.zero_le p) hp
  -- 位置 `p` は cursor の `d` だけ先にある
  let d := (p + l.length - start % l.length) % l.length
  have hd : d < l.length := Nat.mod_lt _ hpos
  have hwidth : 0 < width := by
    rcases Nat.eq_zero_or_pos width with rfl | h
    · rw [Nat.zero_mul] at hlen
      omega
    · exact h
  have hmeet : (start + d) % l.length = p := by
    have hlt : start % l.length < l.length := Nat.mod_lt start hpos
    have hsum : start + (p + l.length - start % l.length)
        = p + l.length * (start / l.length + 1) := by
      have hdiv := Nat.div_add_mod start l.length
      rw [Nat.mul_add, Nat.mul_one]
      omega
    rw [Nat.add_mod_mod, hsum, Nat.add_mul_mod_self_left, Nat.mod_eq_of_lt hp]
  refine ⟨d / width, Nat.div_lt_of_lt_mul (Nat.lt_of_lt_of_le hd hlen), ?_⟩
  refine mem_walk (i := d % width) (Nat.le_of_lt (Nat.mod_lt _ hpos)) (Nat.mod_lt _ hwidth) ?_
  rw [Nat.mod_add_mod, Nat.add_assoc, Nat.div_add_mod, hmeet]
  exact List.getElem?_eq_getElem hp

end SwordFS.Infra
