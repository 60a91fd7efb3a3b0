import Mathlib.Logic.Function.Basic
import Mathlib.Data.List.Basic

/-!
# 型付き key-value store と楽観的 transaction

key `k` ごとに値の型 `V k` が決まる store の上の transaction を表す。
transaction は読みながら進み、書きは溜めておいて最後にまとめて適用する。
途中で失敗した transaction は何も書かない。
-/

namespace SwordFS.Infra

/-- key ごとに型の決まる store -/
abbrev Store (K : Type) (V : K → Type) := (k : K) → V k

/-- 値を読みながら分岐する計算 -/
inductive ReadTree (K : Type) (V : K → Type) (α : Type) where
  | ret (a : α)
  | read (k : K) (next : V k → ReadTree K V α)

namespace ReadTree

variable {K : Type} {V : K → Type} {α β : Type}

protected def bind : ReadTree K V α → (α → ReadTree K V β) → ReadTree K V β
  | .ret a, f => f a
  | .read k next, f => .read k fun v => (next v).bind f

/-- store `s` の上での結果 -/
def eval (s : Store K V) : ReadTree K V α → α
  | .ret a => a
  | .read k next => (next (s k)).eval s

@[simp] theorem eval_bind (s : Store K V) (t : ReadTree K V α) (f : α → ReadTree K V β) :
    (t.bind f).eval s = (f (t.eval s)).eval s := by
  induction t with
  | ret a => rfl
  | read k next ih => exact ih (s k)

end ReadTree

/--
書き込み command。`dirties` は key を変更したと数えられるかであり、
数えられない command は値を変えない。
-/
structure Cmd (K : Type) (V : K → Type) where
  key : K
  run : V key → V key
  dirties : V key → Bool
  clean : ∀ v, dirties v = false → run v = v

namespace Cmd

variable {K : Type} {V : K → Type} [DecidableEq K]

/-- command を store に適用する -/
def apply (c : Cmd K V) (s : Store K V) : Store K V :=
  Function.update s c.key (c.run (s c.key))

@[simp] theorem apply_key (c : Cmd K V) (s : Store K V) : c.apply s c.key = c.run (s c.key) :=
  Function.update_self ..

theorem apply_of_ne (c : Cmd K V) (s : Store K V) (h : k ≠ c.key) : c.apply s k = s k :=
  Function.update_of_ne h ..

@[simp] theorem apply_of_key_eq_false (c : Cmd K V) (s : Store K V)
    (h : (c.key = k) = False) : c.apply s k = s k :=
  c.apply_of_ne s fun he => h ▸ he.symm

/-- command の列を順に適用する -/
def applyAll (cs : List (Cmd K V)) (s : Store K V) : Store K V :=
  cs.foldl (fun s c => c.apply s) s

@[simp] theorem applyAll_nil (s : Store K V) : applyAll [] s = s := rfl

@[simp] theorem applyAll_cons (c : Cmd K V) (cs : List (Cmd K V)) (s : Store K V) :
    applyAll (c :: cs) s = applyAll cs (c.apply s) := rfl

@[simp] theorem applyAll_append (cs ds : List (Cmd K V)) (s : Store K V) :
    applyAll (cs ++ ds) s = applyAll ds (applyAll cs s) := List.foldl_append ..

theorem applyAll_of_ne (h : ∀ c ∈ cs, k ≠ c.key) (s : Store K V) : applyAll cs s k = s k := by
  induction cs generalizing s with
  | nil => rfl
  | cons c cs ih =>
    obtain ⟨hc, hcs⟩ := List.forall_mem_cons.mp h
    rw [applyAll_cons, ih hcs, apply_of_ne c s hc]

end Cmd

/-- 溜めた書き込みを受け取り、結果と書き込みを返す transaction。失敗は `ε` -/
def Txn (K : Type) (V : K → Type) (ε α : Type) :=
  List (Cmd K V) → ReadTree K V (Except ε (α × List (Cmd K V)))

namespace Txn

variable {K : Type} {V : K → Type} {ε α β : Type}

instance : Monad (Txn K V ε) where
  pure a := fun ws => .ret (.ok (a, ws))
  bind t f := fun ws => (t ws).bind fun
    | .error e => .ret (.error e)
    | .ok (a, ws') => f a ws'

/-- 失敗する -/
def throw (e : ε) : Txn K V ε α := fun _ => .ret (.error e)

/-- `Except` の結果を取り込む -/
def ofExcept : Except ε α → Txn K V ε α
  | .error e => throw e
  | .ok a => pure a

/-- `c` が成り立てば `e` で失敗する -/
def failIf (c : Prop) [Decidable c] (e : ε) : Txn K V ε Unit := if c then throw e else pure ()

/-- key を watch して読む。書き込みを溜めた後の読みは `late` で失敗する -/
def read (late : ε) (k : K) : Txn K V ε (V k) := fun ws =>
  if ws.isEmpty then .read k fun v => .ret (.ok (v, ws)) else .ret (.error late)

/-- 書き込みを一つ溜める -/
def write (c : Cmd K V) : Txn K V ε Unit := fun ws => .ret (.ok ((), ws ++ [c]))

/-- store `s` を固定し、`ws` を溜めた所から走らせた結果 -/
def eval (t : Txn K V ε α) (s : Store K V) (ws : List (Cmd K V)) :
    Except ε (α × List (Cmd K V)) := (t ws).eval s

variable {s : Store K V} {ws ws' : List (Cmd K V)}

@[simp] theorem eval_pure (a : α) : (pure a : Txn K V ε α).eval s ws = .ok (a, ws) := rfl

@[simp] theorem eval_throw (e : ε) : (throw e : Txn K V ε α).eval s ws = .error e := rfl

@[simp] theorem eval_write (c : Cmd K V) :
    (write c : Txn K V ε Unit).eval s ws = .ok ((), ws ++ [c]) := rfl

@[simp] theorem eval_read (late : ε) (k : K) :
    (read late k : Txn K V ε (V k)).eval s ws =
      if ws.isEmpty then .ok (s k, ws) else .error late := by
  cases ws <;> rfl

theorem eval_bind (t : Txn K V ε α) (f : α → Txn K V ε β) :
    (t >>= f).eval s ws = (t.eval s ws).bind fun r => (f r.1).eval s r.2 := by
  show ((t ws).bind _).eval s = ((t ws).eval s).bind _
  rw [ReadTree.eval_bind]
  cases (t ws).eval s <;> rfl

/-! 成功した実行だけを述べる形。transaction の仕様はこの形の連鎖で得る -/

theorem eval_bind_ok {t : Txn K V ε α} : (t >>= f).eval s ws = .ok (b, ws'') ↔
      ∃ a ws', t.eval s ws = .ok (a, ws') ∧ (f a).eval s ws' = .ok (b, ws'') := by
  rw [eval_bind]
  cases t.eval s ws with
  | error e => simp [Except.bind]
  | ok p =>
    obtain ⟨a, ws'⟩ := p
    simp only [Except.bind]
    constructor
    · exact fun h => ⟨a, ws', rfl, h⟩
    · rintro ⟨_, _, ⟨⟩, h⟩; exact h

theorem eval_pure_ok : (pure a : Txn K V ε α).eval s ws = .ok (b, ws') ↔ b = a ∧ ws' = ws := by
  rw [eval_pure]
  exact ⟨fun h => by cases h; exact ⟨rfl, rfl⟩, fun ⟨h, h'⟩ => by rw [h, h']⟩

theorem eval_ofExcept_ok :
    (ofExcept r : Txn K V ε α).eval s ws = .ok (a, ws') ↔ r = .ok a ∧ ws' = ws := by
  cases r with
  | error e => exact ⟨(nomatch ·), (nomatch ·.1)⟩
  | ok b =>
    refine eval_pure_ok.trans (and_congr_left fun _ => ?_)
    exact ⟨fun h => by rw [h], fun h => by cases h; rfl⟩

theorem eval_failIf_ok [Decidable c] :
    (failIf c e : Txn K V ε Unit).eval s ws = .ok (u, ws') ↔ ¬ c ∧ ws' = ws := by
  unfold failIf
  split
  · next h => exact ⟨(nomatch ·), fun h' => absurd h h'.1⟩
  · next h => exact eval_pure_ok.trans (and_congr_left fun _ => ⟨fun _ => h, fun _ => rfl⟩)

/-- 読みは、まだ何も書いていないときに限り成功する -/
theorem eval_read_ok :
    (read late k : Txn K V ε (V k)).eval s ws = .ok (v, ws') ↔ v = s k ∧ ws = [] ∧ ws' = [] := by
  cases ws with
  | nil =>
    refine (eval_pure_ok (s := s) (a := s k)).trans (and_congr_right fun _ => ?_)
    exact ⟨fun h => ⟨rfl, h⟩, fun h => h.2⟩
  | cons c cs => exact ⟨(nomatch ·), (nomatch ·.2.1)⟩

theorem eval_write_ok : (write c : Txn K V ε Unit).eval s ws = .ok (u, ws') ↔ ws' = ws ++ [c] := by
  rw [eval_write]
  exact ⟨fun h => by cases h; rfl, fun h => by rw [h]⟩

/-! 失敗した実行を述べる形 -/

theorem eval_bind_error {t : Txn K V ε α} : (t >>= f).eval s ws = .error e ↔
      t.eval s ws = .error e ∨
        ∃ a ws', t.eval s ws = .ok (a, ws') ∧ (f a).eval s ws' = .error e := by
  rw [eval_bind]
  cases t.eval s ws with
  | error e' => simp [Except.bind]
  | ok p =>
    rcases p with ⟨a, ws'⟩
    simp [Except.bind]

theorem eval_ofExcept_error : (ofExcept r : Txn K V ε α).eval s ws = .error e ↔ r = .error e := by
  cases r with
  | error e' => exact ⟨fun h => by cases h; rfl, fun h => by cases h; rfl⟩
  | ok a => exact ⟨(nomatch ·), (nomatch ·)⟩

theorem eval_failIf_error [Decidable c] :
    (failIf c e : Txn K V ε Unit).eval s ws = .error e' ↔ c ∧ e = e' := by
  unfold failIf
  split
  · next h => exact ⟨fun h' => by cases h'; exact ⟨h, rfl⟩, fun h' => by rw [h'.2]; rfl⟩
  · next h => exact ⟨(nomatch ·), fun h' => absurd h'.1 h⟩

/-! 溜める書き込みについての性質。transaction の形だけから決まる -/

/-- 成功したとき、新しく溜める書き込みはすべて `W` を満たす -/
def Writes (W : Cmd K V → Prop) (t : Txn K V ε α) : Prop :=
  ∀ s ws a ws', t.eval s ws = .ok (a, ws') → (∀ w ∈ ws, W w) → ∀ w ∈ ws', W w

section

variable {W : Cmd K V → Prop}

protected theorem Writes.pure (a : α) : Writes W (pure a : Txn K V ε α) := by
  intro s ws b ws' h hws
  obtain ⟨-, rfl⟩ := eval_pure_ok.mp h
  exact hws

protected theorem Writes.throw (e : ε) : Writes W (throw e : Txn K V ε α) := nofun

theorem writes_ofExcept (r : Except ε α) : Writes W (ofExcept r : Txn K V ε α) := by
  intro s ws b ws' h hws
  obtain ⟨-, rfl⟩ := eval_ofExcept_ok.mp h
  exact hws

theorem writes_failIf (c : Prop) [Decidable c] (e : ε) :
    Writes W (failIf c e : Txn K V ε Unit) := by
  intro s ws b ws' h hws
  obtain ⟨-, rfl⟩ := eval_failIf_ok.mp h
  exact hws

theorem writes_read (late : ε) (k : K) : Writes W (read late k : Txn K V ε (V k)) := by
  intro s ws b ws' h hws
  obtain ⟨-, -, rfl⟩ := eval_read_ok.mp h
  exact fun _ hw => (nomatch hw)

theorem writes_write (hc : W c) : Writes W (write c : Txn K V ε Unit) := by
  intro s ws b ws' h hws
  rw [eval_write_ok.mp h]
  exact List.forall_mem_append.mpr ⟨hws, List.forall_mem_singleton.mpr hc⟩

theorem Writes.bind (ht : Writes W t) (hf : ∀ a, Writes W (f a)) : Writes W (t >>= f) := by
  intro s ws b ws'' h hws
  obtain ⟨a, ws', h₁, h₂⟩ := eval_bind_ok.mp h
  exact hf a s ws' b ws'' h₂ (ht s ws a ws' h₁ hws)

protected theorem Writes.failIf [Decidable c]
    (h : ∀ u, Writes W (f u)) : Writes W (failIf c e >>= f) := (writes_failIf c e).bind h

protected theorem Writes.ofExcept (h : ∀ a, Writes W (f a)) :
    Writes W (ofExcept r >>= f) := (writes_ofExcept r).bind h

end

section Commit

variable [DecidableEq K]

/-- 原子的に一度実行する。失敗した transaction は store を変えない -/
def commit (t : Txn K V ε α) (s : Store K V) : Except ε α × Store K V :=
  match t.eval s [] with
  | .error e => (.error e, s)
  | .ok (a, ws) => (.ok a, Cmd.applyAll ws s)

variable {t : Txn K V ε α}

theorem commit_error (h : (t.commit s).1 = .error e) : (t.commit s).2 = s := by
  unfold commit at h ⊢
  cases he : t.eval s [] with
  | error e' => rfl
  | ok p => rw [he] at h; cases h

/-- 成功した transaction は、溜めた書き込みを順に適用した store を残す -/
theorem commit_ok_iff :
    t.commit s = (.ok a, s') ↔ ∃ ws, t.eval s [] = .ok (a, ws) ∧ s' = Cmd.applyAll ws s := by
  unfold commit
  cases he : t.eval s [] with
  | error e => simp
  | ok p =>
    obtain ⟨b, ws⟩ := p
    constructor
    · rintro ⟨⟩; exact ⟨ws, rfl, rfl⟩
    · rintro ⟨ws', ⟨⟩, rfl⟩; rfl

/-- store の性質は、成功した transaction について確かめればよい -/
theorem commit_inv {I : Store K V → Prop} (hs : I s)
    (h : ∀ a ws, t.eval s [] = .ok (a, ws) → I (Cmd.applyAll ws s)) : I (t.commit s).2 := by
  unfold commit
  split
  · exact hs
  · next a ws he => exact h a ws he

end Commit

end Txn

end SwordFS.Infra
