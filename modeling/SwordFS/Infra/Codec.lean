import SwordFS.Utils.Status

/-!
# 前から読む binary 形式

`Codec` は、値を byte の列に書く関数と、列の先頭から値を読む関数の組である。読みは、書けるものだけを、
書いた長さだけ読む。組み合わせはこの二つの規則を保つので、形式の全体についての事実は
`parse_eq_some_iff` と `eq_of_append` から従う。
-/

namespace SwordFS.Infra

structure Codec (α : Type) where
  /-- 書ける値 -/
  Valid : α → Prop
  encode : α → List UInt8
  decode : List UInt8 → Option (α × List UInt8)
  decode_encode : ∀ {a}, Valid a → ∀ rest, decode (encode a ++ rest) = some (a, rest)
  sound : ∀ {bs a rest}, decode bs = some (a, rest) → Valid a ∧ bs = encode a ++ rest

namespace Codec

variable {α β : Type} (c : Codec α)

/-- 列の全体を一つの値として読む -/
def parse (bs : List UInt8) : Option α :=
  match c.decode bs with
  | some (a, []) => some a
  | _ => none

theorem parse_eq_some_iff : c.parse bs = some a ↔ c.Valid a ∧ bs = c.encode a := by
  unfold parse
  constructor
  · intro h
    split at h
    next b hd =>
      cases h
      simpa using c.sound hd
    next => cases h
  · rintro ⟨hv, rfl⟩
    have hd := c.decode_encode hv []
    rw [List.append_nil] at hd
    rw [hd]

theorem eq_of_append (ha : c.Valid a) (hb : c.Valid b)
    (h : c.encode a ++ r = c.encode b ++ s) : a = b ∧ r = s := by
  have hd := c.decode_encode ha r
  rw [h, c.decode_encode hb] at hd
  cases hd
  exact ⟨rfl, rfl⟩

/-! ## 組み合わせ -/

/-- 読んだ値を条件で絞る -/
def restrict (p : α → Prop) [DecidablePred p] : Codec α where
  Valid a := c.Valid a ∧ p a
  encode := c.encode
  decode bs := (c.decode bs).filter fun x => p x.1
  decode_encode h rest := by simp [c.decode_encode h.1, Option.filter, h.2]
  sound h := by
    obtain ⟨hd, hp⟩ := Option.filter_eq_some_iff.mp h
    obtain ⟨hv, hbs⟩ := c.sound hd
    exact ⟨⟨hv, by simpa using hp⟩, hbs⟩

/-- 値を言い換える -/
def map (f : α → β) (g : β → α) (hf : ∀ b, f (g b) = b) (hg : ∀ a, c.Valid a → g (f a) = a) :
    Codec β where
  Valid b := c.Valid (g b)
  encode b := c.encode (g b)
  decode bs := (c.decode bs).map fun x => (f x.1, x.2)
  decode_encode h rest := by simp [c.decode_encode h, hf]
  sound h := by
    obtain ⟨⟨a, rest⟩, hd, he⟩ := Option.map_eq_some_iff.mp h
    cases he
    obtain ⟨hv, hbs⟩ := c.sound hd
    rw [hg a hv]
    exact ⟨hv, hbs⟩

/-- 続けて書く。後ろの形式は前の値で決めてよい -/
def seq (d : α → Codec β) : Codec (α × β) where
  Valid x := c.Valid x.1 ∧ (d x.1).Valid x.2
  encode x := c.encode x.1 ++ (d x.1).encode x.2
  decode bs := (c.decode bs).bind fun x =>
    ((d x.1).decode x.2).map fun y => ((x.1, y.1), y.2)
  decode_encode h rest := by
    rw [List.append_assoc, c.decode_encode h.1]
    simp [(d _).decode_encode h.2]
  sound h := by
    obtain ⟨⟨a, rest⟩, hd, h⟩ := Option.bind_eq_some_iff.mp h
    obtain ⟨⟨b, rest'⟩, hd', he⟩ := Option.map_eq_some_iff.mp h
    cases he
    obtain ⟨hv, rfl⟩ := c.sound hd
    obtain ⟨hv', hrest⟩ := (d a).sound hd'
    exact ⟨⟨hv, hv'⟩, by rw [List.append_assoc, ← hrest]⟩

def encodeLe : Nat → Nat → List UInt8
  | 0, _ => []
  | n + 1, v => UInt8.ofNat v :: encodeLe n (v / 256)

def decodeLe : Nat → List UInt8 → Option (Nat × List UInt8)
  | 0, bs => some (0, bs)
  | _ + 1, [] => none
  | n + 1, b :: bs => (decodeLe n bs).map fun x => (b.toNat + 256 * x.1, x.2)

/-- `n` byte の little endian -/
def le (n : Nat) : Codec Nat where
  Valid v := v < 256 ^ n
  encode := encodeLe n
  decode := decodeLe n
  decode_encode {v} h rest := by
    induction n generalizing v with
    | zero => simp_all [encodeLe, decodeLe]
    | succ n ih =>
      have hdiv : v / 256 < 256 ^ n := Nat.div_lt_of_lt_mul (by rwa [← Nat.pow_succ'])
      simp [encodeLe, decodeLe, ih hdiv, Nat.mod_add_div]
  sound {bs v rest} h := by
    induction n generalizing bs v with
    | zero => cases h; simp [encodeLe]
    | succ n ih =>
      cases bs with
      | nil => cases h
      | cons b bs =>
        obtain ⟨⟨v, rest⟩, hd, he⟩ := Option.map_eq_some_iff.mp h
        cases he
        obtain ⟨hv, rfl⟩ := ih hd
        have hb := b.toNat_lt
        have hdiv : (b.toNat + 256 * v) / 256 = v := by omega
        refine ⟨?_, by simp [encodeLe, hdiv]⟩
        rw [Nat.pow_succ]
        omega

/-- ちょうど `n` byte -/
def bytes (n : Nat) : Codec (List UInt8) where
  Valid l := l.length = n
  encode l := l
  decode bs := if n ≤ bs.length then some (bs.take n, bs.drop n) else none
  decode_encode h rest := by simp [← h]
  sound h := by
    split at h <;> cases h
    simp [*]

def decodeMany : Nat → List UInt8 → Option (List α × List UInt8)
  | 0, bs => some ([], bs)
  | n + 1, bs => (c.decode bs).bind fun x => (decodeMany n x.2).map fun y => (x.1 :: y.1, y.2)

/-- `n` 個の値 -/
def many (n : Nat) : Codec (List α) where
  Valid l := l.length = n ∧ ∀ a ∈ l, c.Valid a
  encode l := l.flatMap c.encode
  decode := c.decodeMany n
  decode_encode {l} h rest := by
    induction l generalizing n with
    | nil =>
      cases h.1
      rfl
    | cons a l ih =>
      cases h.1
      rw [List.flatMap_cons, List.append_assoc, List.length_cons, decodeMany,
        c.decode_encode (h.2 a (.head _))]
      have hl := ih _ ⟨rfl, fun b hb => h.2 b (.tail _ hb)⟩
      simp [hl]
  sound {bs l rest} h := by
    induction n generalizing bs l with
    | zero => cases h; simp
    | succ n ih =>
      obtain ⟨⟨a, bs'⟩, hd, h⟩ := Option.bind_eq_some_iff.mp h
      obtain ⟨⟨l, rest'⟩, hd', he⟩ := Option.map_eq_some_iff.mp h
      cases he
      obtain ⟨hv, rfl⟩ := c.sound hd
      obtain ⟨hl, rfl⟩ := ih hd'
      simp_all

/-- 個数を前に書く -/
def counted (d : Nat → Codec (List α)) (hd : ∀ {n l}, (d n).Valid l → l.length = n) :
    Codec (List α) :=
  ((le 8).seq d).map Prod.snd (fun l => (l.length, l)) (fun _ => rfl) fun x h => by
    rw [hd h.2]

/-- 決まった値だけを認める -/
def expect [DecidableEq α] (a : α) : Codec Unit :=
  (c.restrict (· = a)).map (fun _ => ()) (fun _ => a) (fun _ => rfl) fun _ h => h.2.symm

end Codec

end SwordFS.Infra
