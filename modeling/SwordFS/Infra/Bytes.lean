import Mathlib.Data.List.Basic
import Mathlib.Tactic.Common

/-!
# byte 列の部分更新

memcpy と部分読み出しを list の上で表し、位置ごとの値で特徴づける。
範囲の外は既定値と読む（`getD`）ので、長さの場合分けは値の等式に現れない。
-/

namespace SwordFS.Infra

variable {α : Type}

/-- `buf` の `start` からを `bs` で置き換える。`start` は `buf` の中か末尾にある -/
def overwrite (buf : List α) (start : Nat) (bs : List α) : List α :=
  buf.take start ++ bs ++ buf.drop (start + bs.length)

/-- `buf` の `off` から高々 `len` 個 -/
def slice (buf : List α) (off len : Nat) : List α := (buf.drop off).take len

/-- 長さ `n` に満たなければ `z` で埋める -/
def padTo (z : α) (n : Nat) (buf : List α) : List α := buf ++ List.replicate (n - buf.length) z

variable {buf bs : List α} {start : Nat}

theorem overwrite_getElem? (h : start ≤ buf.length) (i : Nat) :
    (overwrite buf start bs)[i]? =
      if start ≤ i ∧ i < start + bs.length then bs[i - start]? else buf[i]? := by
  unfold overwrite
  have hlen : (buf.take start).length = start := List.length_take_of_le h
  split
  · next hi =>
    rw [List.append_assoc, List.getElem?_append_right (by omega), hlen,
      List.getElem?_append_left (by omega)]
  · next hi =>
    by_cases hlt : i < start
    · rw [List.append_assoc, List.getElem?_append_left (by omega), List.getElem?_take, if_pos hlt]
    · have hge : start + bs.length ≤ i := by omega
      rw [List.getElem?_append_right (by simp [hlen]; omega), List.getElem?_drop]
      congr 1
      simp only [List.length_append, hlen]
      omega

theorem overwrite_length (h : start ≤ buf.length) :
    (overwrite buf start bs).length = max buf.length (start + bs.length) := by
  simp only [overwrite, List.length_append, List.length_take, List.length_drop]
  omega

theorem overwrite_length_of_le (h : start + bs.length ≤ buf.length) :
    (overwrite buf start bs).length = buf.length := by
  rw [overwrite_length (by omega)]
  omega

theorem overwrite_getD (h : start ≤ buf.length) (i : Nat) (z : α) :
    (overwrite buf start bs).getD i z =
      if start ≤ i ∧ i < start + bs.length then bs.getD (i - start) z else buf.getD i z := by
  simp only [List.getD_eq_getElem?_getD, overwrite_getElem? h]
  split <;> rfl

theorem slice_getElem? (buf : List α) (off len i : Nat) :
    (slice buf off len)[i]? = if i < len then buf[off + i]? else none := by
  rw [slice, List.getElem?_take]
  split
  · rw [List.getElem?_drop]
  · rfl

@[simp] theorem slice_length (buf : List α) (off len : Nat) :
    (slice buf off len).length = min len (buf.length - off) := by
  simp [slice]

theorem slice_getD (buf : List α) (off len i : Nat) (z : α) :
    (slice buf off len).getD i z = if i < len then buf.getD (off + i) z else z := by
  simp only [List.getD_eq_getElem?_getD, slice_getElem?]
  split <;> rfl

@[simp] theorem padTo_length (z : α) (n : Nat) (buf : List α) :
    (padTo z n buf).length = max buf.length n := by
  simp only [padTo, List.length_append, List.length_replicate]
  omega

theorem padTo_getD (z : α) (n : Nat) (buf : List α) (i : Nat) :
    (padTo z n buf).getD i z = buf.getD i z := by
  simp only [padTo, List.getD_eq_getElem?_getD, List.getElem?_append]
  split
  · rfl
  · next h =>
    rw [List.getElem?_eq_none (Nat.le_of_not_lt h), List.getElem?_replicate]
    split <;> rfl

theorem ext_getD {xs ys : List α} (z : α) (hl : xs.length = ys.length)
    (h : ∀ i, i < xs.length → xs.getD i z = ys.getD i z) : xs = ys := by
  refine List.ext_getElem hl fun i h₁ h₂ => ?_
  have hi := h i h₁
  simpa only [List.getD_eq_getElem?_getD, List.getElem?_eq_getElem h₁, List.getElem?_eq_getElem h₂,
    Option.getD_some] using hi

end SwordFS.Infra
