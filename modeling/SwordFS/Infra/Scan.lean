import Mathlib.Data.List.Nodup

/-!
# 変わらない hash の走査

cursor で続きを指す走査（HSCAN）の約束を表す。走査の間に hash が変わらなければ、cursor ごとに
そこから先に返る要素の列が定まる。一回の呼び出しは、その列の先頭の何個かを頁として返す。
頁の大きさは呼び出しごとに異なってよく、空でもよい。cursor が 0 に戻れば走査は終わる。
-/

namespace SwordFS.Infra

/-- 変わらない hash の走査。`scan n cursor count` は `n` 番目の呼び出しの応答 -/
structure HashScan (ε α : Type) where
  /-- cursor から先に返る要素。0 からはすべてが返る -/
  rest : Nat → List α
  /-- 走査の終わりまでの残り。呼び出すたびに減るので、走査は終わる -/
  rank : Nat → Nat
  scan : (call cursor count : Nat) → Except ε (List α × Nat)
  legal : ∀ {n c count page next}, scan n c count = .ok (page, next) →
    rest c = page ++ if next = 0 then [] else rest next
  shrinks : ∀ {n c count page next}, scan n c count = .ok (page, next) → next ≠ 0 →
    rank next < rank c
  nodup : (rest 0).Nodup

namespace HashScan

variable {ε α : Type} (h : HashScan ε α)

/-- hash の要素。走査が返す順に並ぶ -/
def items : List α := h.rest 0

/-- 返された cursor から先に残る要素 -/
def after (next : Nat) : List α := if next = 0 then [] else h.rest next

@[simp]
theorem after_zero : h.after 0 = [] := rfl

theorem after_of_ne {next : Nat} (hne : next ≠ 0) : h.after next = h.rest next := if_neg hne

variable {h}

theorem rest_eq {n c count next : Nat} {page : List α} (hs : h.scan n c count = .ok (page, next)) :
    h.rest c = page ++ h.after next :=
  h.legal hs

/-- cursor が頁の番号である走査。失敗は無い -/
def ofPages (pages : List (List α)) (nodup : pages.flatten.Nodup) : HashScan ε α where
  rest c := (pages.drop c).flatten
  rank c := pages.length - c
  scan _ c _ := .ok ((pages[c]?).getD [], if c + 1 < pages.length then c + 1 else 0)
  legal := by
    rintro - c - page next ⟨⟩
    by_cases hc : c < pages.length
    · rw [List.drop_eq_getElem_cons hc, List.flatten_cons, List.getElem?_eq_getElem hc,
        Option.getD_some]
      congr 1
      split
      next => rfl
      next hlast => rw [if_pos rfl, List.drop_of_length_le (by omega), List.flatten_nil]
    · rw [List.drop_of_length_le (by omega), List.getElem?_eq_none (by omega),
        if_neg (by omega : ¬ c + 1 < pages.length)]
      rfl
  shrinks := by
    rintro - c - page next ⟨⟩ hne
    split at hne
    next hlt =>
      rw [if_pos hlt]
      omega
    next => exact absurd rfl hne
  nodup := nodup

end HashScan

end SwordFS.Infra
