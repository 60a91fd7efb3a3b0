import Mathlib.Data.List.Basic

/-!
# 十進の text

保存された値の text を読むための道具。text は文字の列で表す。

十進の読みも区切りも、書いた text を読み戻す補題を持つ。
-/

namespace SwordFS.Infra

/-- `std::to_string` が書く十進の数字 -/
def decimal (n : Nat) : List Char := Nat.toDigits 10 n

theorem toList_toString (n : Nat) : (toString n).toList = decimal n := by
  rw [Nat.toString_eq_ofList_toDigits, String.toList_ofList]
  rfl

variable {n limit : Nat}

theorem isDigit_of_mem_decimal (h : c ∈ decimal n) : c.isDigit = true :=
  Nat.isDigit_of_mem_toDigits (by decide) (by decide) h

theorem not_mem_decimal (hc : c.isDigit = false) : c ∉ decimal n := by
  intro h
  rw [isDigit_of_mem_decimal h] at hc
  cases hc

/-- 十進の text を `limit` 未満の数として読む -/
def parseDecimal (limit : Nat) (text : List Char) : Option Nat :=
  if text ≠ [] ∧ text.all Char.isDigit then
    let value := Nat.ofDigitChars 10 text 0
    if value < limit then some value else none
  else none

theorem parseDecimal_decimal (h : n < limit) : parseDecimal limit (decimal n) = some n := by
  have hdigits : decimal n ≠ [] ∧ (decimal n).all Char.isDigit = true :=
    ⟨Nat.toDigits_ne_nil, List.all_eq_true.mpr fun _ => isDigit_of_mem_decimal⟩
  have hvalue : Nat.ofDigitChars 10 (decimal n) 0 = n := Nat.ofDigitChars_ten_toDigits
  rw [parseDecimal, if_pos hdigits]
  dsimp only
  rw [hvalue, if_pos h]

theorem parseDecimal_lt (h : parseDecimal limit text = some n) : n < limit := by
  unfold parseDecimal at h
  split at h
  next =>
    dsimp only at h
    split at h
    next hlt =>
      cases h
      exact hlt
    next => cases h
  next => cases h

theorem decimal_injective : Function.Injective decimal := by
  intro m n h
  have hn : Nat.ofDigitChars 10 (decimal n) 0 = n := Nat.ofDigitChars_ten_toDigits
  rw [← h] at hn
  exact Nat.ofDigitChars_ten_toDigits.symm.trans hn

/-- 最初の `sep` で分ける。`sep` が無ければ後ろは空になる -/
def splitOnce (sep : Char) : List Char → List Char × List Char
  | [] => ([], [])
  | c :: rest => if c = sep then ([], rest) else ((splitOnce sep rest).map (c :: ·) id)

variable {xs : List Char}

theorem splitOnce_append (ys : List Char) (h : sep ∉ xs) :
    splitOnce sep (xs ++ sep :: ys) = (xs, ys) := by
  induction xs with
  | nil => rw [List.nil_append, splitOnce, if_pos rfl]
  | cons x xs ih =>
    obtain ⟨hx, hxs⟩ := List.ne_and_not_mem_of_not_mem_cons h
    rw [List.cons_append, splitOnce, if_neg (Ne.symm hx), ih hxs]
    rfl

theorem splitOnce_of_not_mem (h : sep ∉ xs) : splitOnce sep xs = (xs, []) := by
  induction xs with
  | nil => rfl
  | cons x xs ih =>
    obtain ⟨hx, hxs⟩ := List.ne_and_not_mem_of_not_mem_cons h
    rw [splitOnce, if_neg (Ne.symm hx), ih hxs]
    rfl

theorem length_splitOnce_snd (h : xs ≠ []) : (splitOnce sep xs).2.length < xs.length := by
  induction xs with
  | nil => exact absurd rfl h
  | cons x xs ih =>
    rw [splitOnce]
    split
    next => exact Nat.lt_succ_self _
    next =>
      show (splitOnce sep xs).2.length < xs.length + 1
      by_cases hxs : xs = []
      · rw [hxs]
        exact Nat.zero_lt_one
      · exact Nat.lt_succ_of_lt (ih hxs)

end SwordFS.Infra
