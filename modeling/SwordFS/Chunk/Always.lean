import SwordFS.Infra.Steps
import SwordFS.Chunk.Mechanism

/-!
# 割り込まれうる計算の毎動作の性質

他の mount が動いている間の計算については、返り値よりも、毎動作が外部状態に何をするかを述べる。
`Always G p` は、環境が何をしてもどの答えが届いても、`p` の毎動作が `G` を守ることを言う。
-/

namespace SwordFS.Chunk

open Infra Metadata Prog

abbrev AnyAnswer : Answer → Prop := fun _ => True

section

variable {σ α β : Type} {G : σ → σ → Prop}

/-- 環境とどの答えの下でも、毎動作 `G` を守る -/
def Always (G : σ → σ → Prop) (p : Io σ α) : Prop := Prog.Steps AnyAnswer G (fun _ => True) p

variable {p : Io σ α}

theorem Always.mono (h : Always G p) (hg : ∀ s s', G s s' → G' s s') :
    Always G' p := Prog.Steps.mono h hg fun _ => id

theorem Always.wp (h : Always G p) (R : σ → σ → Prop) (s : σ) :
    Prog.Wp AnyAnswer R G p (fun _ _ => True) s := Prog.Steps.wp h R s

theorem Always.bind (hp : Always G p) (hk : ∀ a, Always G (k a)) : Always G (p >>= k) := by
  refine Prog.Steps.bind hp fun r _ => ?_
  cases r with
  | ok a => exact hk a
  | error e => exact trivial

theorem Always.attempt (hp : Always G p) : Always G (attempt p) :=
  Prog.Steps.bind hp fun _ _ => trivial

/-- `Always` で、成功して返る値は `P` を満たす -/
def AlwaysOk (G : σ → σ → Prop) (P : α → Prop) (p : Io σ α) : Prop :=
  Prog.Steps AnyAnswer G (fun r => ∀ a, r = .ok a → P a) p

section

variable {P : α → Prop}

variable {p : Io σ α}

theorem Always.ok (h : Always G p) : AlwaysOk G (fun _ => True) p :=
  Prog.Steps.mono h (fun _ _ => id) fun _ _ _ _ => trivial

theorem AlwaysOk.mono (h : AlwaysOk G P p) (hg : ∀ s s', G s s' → G' s s') :
    AlwaysOk G' P p := Prog.Steps.mono h hg fun _ => id

theorem AlwaysOk.always (h : AlwaysOk G P p) : Always G p :=
  Prog.Steps.mono h (fun _ _ => id) fun _ _ => trivial

theorem AlwaysOk.bind (hp : AlwaysOk G P p)
    (hk : ∀ a, P a → AlwaysOk G P' (k a)) : AlwaysOk G P' (p >>= k) := by
  refine Prog.Steps.bind hp fun r hr => ?_
  cases r with
  | ok a => exact hk a (hr a rfl)
  | error e => exact fun _ h => nomatch h

theorem AlwaysOk.bind_always (hp : AlwaysOk G P p) (hk : ∀ a, P a → Always G (k a)) :
    Always G (p >>= k) :=
  (hp.bind fun a ha => (hk a ha).ok).always

theorem alwaysOk_pure (h : P a) : AlwaysOk G P (pure a) := by
  rintro _ ⟨⟩
  exact h

end

protected theorem Always.pure (a : α) : Always G (pure a) := trivial

protected theorem Always.throw (e : Status) : Always G (throw e : Io σ α) := trivial

theorem always_ofResult (r : Result α) : Always G (ofResult r) := trivial

theorem always_failIf (c : Prop) [Decidable c] (e : Status) : Always G (failIf c e) := by
  unfold failIf
  split
  · exact .throw e
  · exact .pure ()

protected theorem Always.failIf [Decidable c]
    (h : ∀ u, Always G (k u)) : Always G (failIf c e >>= k) := (always_failIf c e).bind h

protected theorem Always.ofResult (h : ∀ a, Always G (k a)) :
    Always G (ofResult r >>= k) := (always_ofResult r).bind h

theorem always_forEach (h : ∀ x, Always G (f x)) (xs : List β) : Always G (forEach f xs) := by
  induction xs with
  | nil => exact .pure ()
  | cons x xs ih => exact (h x).bind fun _ => ih

end

/-! ## 一動作の呼び出し -/

section

variable {α : Type} {S : Backend → Result α → Backend → Prop}

/-- 一動作の計算で、動作の前の状態、返り値、後の状態は `S` の関係にある -/
def OneStep (S : Backend → Result α → Backend → Prop) (p : Io Backend α) : Prop :=
  ∃ f : Choice Answer → Backend → Result α × Backend,
    p = step f ∧ ∀ c b, S b (f c b).1 (f c b).2

/-- 効果 `f` は、成功した返事と共に、または失敗した返事と共に現れる -/
theorem oneStep_call (hf : ∀ now b, S b (f now b).1 (f now b).2)
    (hlost : ∀ now b e, S b (.error e) (f now b).2) (herr : ∀ b e, S b (.error e) b)
    (htorn : ∀ now took b e, S b (.error e) (torn now took b)) : OneStep S (call f torn) := by
  refine ⟨_, rfl, fun c b => ?_⟩
  obtain ⟨fault, now⟩ := c.ans 0
  rcases fault with _ | st | (_ | _) | ⟨took, (_ | _)⟩
  · exact hf now b
  · exact herr b _
  · exact herr b _
  · exact hlost now b _
  · exact htorn now took b _
  · exact htorn now took b _

theorem tookEffect_subset (took : List Bool) (ws : List KvCmd) : tookEffect took ws ⊆ ws := by
  intro w hw
  obtain ⟨p, hp, rfl⟩ := List.mem_map.mp hw
  exact (List.of_mem_zip (List.mem_of_mem_filter hp)).1

theorem oneStep_transact (hok : ∀ (now : Int) (b : Backend) (a : α) (ws : List KvCmd),
      (t { cx with now := now }).eval b.redis [] = .ok (a, ws) →
        S b (.ok a) { b with redis := Cmd.applyAll ws b.redis })
    (hlost : ∀ (now : Int) (b : Backend) (a : α) (ws ws' : List KvCmd) (e : Status),
      (t { cx with now := now }).eval b.redis [] = .ok (a, ws) → ws' ⊆ ws →
        S b (.error e) { b with redis := Cmd.applyAll ws' b.redis })
    (herr : ∀ b e, S b (.error e) b) : OneStep S (transact cx t) := by
  refine oneStep_call (fun now b => ?_) (fun now b e => ?_) herr fun now took b e => ?_
  · dsimp only [Txn.commit]
    cases he : (t { cx with now := now }).eval b.redis [] with
    | error e => exact herr b e
    | ok p => exact hok now b p.1 p.2 he
  · dsimp only [Txn.commit]
    cases he : (t { cx with now := now }).eval b.redis [] with
    | error _ => exact herr b e
    | ok p => exact hlost now b p.1 p.2 p.2 e he (List.Subset.refl _)
  · dsimp only [tornCommit]
    cases he : (t { cx with now := now }).eval b.redis [] with
    | error _ => exact herr b e
    | ok p => exact hlost now b p.1 p.2 _ e he (tookEffect_subset took p.2)

section

variable {G : Backend → Backend → Prop}

theorem OneStep.always (h : OneStep (fun b _ b' => G b b') p) : Always G p := by
  obtain ⟨f, rfl, hf⟩ := h
  exact steps_step fun b c _ => ⟨hf c b, trivial⟩

theorem always_query (hrefl : ∀ b, G b b) (f : Backend → Result α) : Always G (query f) :=
  steps_step fun s _ _ => ⟨hrefl s, trivial⟩

theorem always_call {f : Int → Backend → Result α × Backend} (hrefl : ∀ b, G b b)
    (hf : ∀ now b, G b (f now b).2) (htorn : ∀ now took b, G b (torn now took b)) :
    Always G (call f torn) :=
  (oneStep_call hf (fun now b _ => hf now b) (fun b _ => hrefl b)
    fun now took b _ => htorn now took b).always

theorem always_transact (hrefl : ∀ b, G b b)
    (h : ∀ (now : Int) (b : Backend) (a : α) (ws ws' : List KvCmd),
      (t { cx with now := now }).eval b.redis [] = .ok (a, ws) → ws' ⊆ ws →
        G b { b with redis := Cmd.applyAll ws' b.redis }) :
    Always G (transact cx t) :=
  (oneStep_transact (fun now b a ws he => h now b a ws ws he (List.Subset.refl _))
    (fun now b a ws ws' _ he hs => h now b a ws ws' he hs) fun b _ => hrefl b).always

end

end

section

variable {χ α : Type}

theorem AlwaysOk.onBackend (h : AlwaysOk G P p) :
    AlwaysOk (fun s s' : χ × Backend => s'.1 = s.1 ∧ G s.2 s'.2) P (onBackend p) := by
  refine Prog.Steps.mono (Prog.Steps.zoom h) ?_ fun _ => id
  rintro s s' ⟨b, hb, rfl⟩
  exact ⟨rfl, hb⟩

theorem Always.onBackend (h : Always G p) :
    Always (fun s s' : χ × Backend => s'.1 = s.1 ∧ G s.2 s'.2) (onBackend p) :=
  h.ok.onBackend.always

theorem always_getSession (hrefl : ∀ s, G s s) :
    Always G (getSession : SessionIo χ χ) := steps_step fun s _ _ => ⟨hrefl s, trivial⟩

theorem always_modifySession {f : χ → α × χ}
    (h : ∀ c b, G (c, b) ((f c).2, b)) : Always G (modifySession f) :=
  steps_step fun s _ _ => ⟨h s.1 s.2, trivial⟩

end

/-! ## 失敗しうる計算の続き -/

section

variable {σ α β : Type} {E : Answer → Prop} {R G : σ → σ → Prop} {s : σ}

theorem wp_io_bind (hR : Prog.IsRely R) {k : α → Io σ β}
    (h : Prog.Wp E R G p (fun r s => match r with
      | .ok a => Prog.Wp E R G (k a) Q s
      | .error e => ∀ s', R s s' → Q (.error e) s') s) :
    Prog.Wp E R G (p >>= k : Io σ β) Q s := by
  refine wp_bind (f := ExceptT.bindCont k) hR (h.mono fun r s hr => ?_)
  cases r with
  | ok a => exact hr
  | error e => exact hr

end

/-! ## 大きな状態の上で走らせた計算 -/

section

variable {σ τ α β : Type} {E : Answer → Prop} {get : τ → σ} {set : σ → τ → τ}
  {R G : τ → τ → Prop} {t : τ}

theorem wp_zoom_bind (hR : Prog.IsRely R) {k : α → Io σ β}
    (h : Prog.Wp E R G (zoom get set p) (fun r t => match r with
      | .ok a => Prog.Wp E R G (zoom get set (k a)) Q t
      | .error e => ∀ t', R t t' → Q (.error e) t') t) :
    Prog.Wp E R G (zoom get set (p >>= k : Io σ β)) Q t := by
  have hbind : zoom get set (p >>= k : Io σ β) = (zoom get set p).bind fun r =>
      zoom get set (ExceptT.bindCont k r) := zoom_bind _ _
  rw [hbind]
  refine wp_bind hR (h.mono fun r t hr => ?_)
  cases r with
  | ok a => exact hr
  | error e => exact hr

theorem wp_zoom_failIf [Decidable c] (herr : ∀ t', R t t' → Q (.error e) t')
    (h : ¬c → Prog.Wp E R G (zoom get set (k ())) Q t) :
    Prog.Wp E R G (zoom get set (failIf c e >>= k : Io σ β)) Q t := by
  unfold failIf
  split
  · exact herr
  · next hc => exact h hc

theorem wp_zoom_attempt {Q : Result (Result α) → τ → Prop}
    (h : Prog.Wp E R G (zoom get set p) (fun r t => Q (.ok r) t) t) :
    Prog.Wp E R G (zoom get set (attempt p)) Q t := by
  have hbind : zoom get set (attempt p) = (zoom get set p).bind fun r =>
      .ret (.ok r) := zoom_bind _ _
  rw [hbind]
  exact wp_map h

/-- 毎動作の性質だけで足りる計算。環境と自分の動作で保たれる `P` を添えられる -/
theorem Always.wp_zoom {P : τ → Prop} (h : Always G₀ p)
    (hP : P t) (hrely : ∀ t t', P t → R t t' → P t')
    (hstep : ∀ t a, P t → G₀ (get t) a → G t (set a t) ∧ P (set a t)) :
    Prog.Wp AnyAnswer R G (zoom get set p) (fun _ t => P t) t := by
  have hsteps : Prog.Steps AnyAnswer (fun t t' => ∃ a, G₀ (get t) a ∧ t' = set a t)
      (fun _ => True) (zoom get set p) := Prog.Steps.zoom h
  refine (hsteps.wp_inv hP hrely ?_).mono fun _ _ hq => hq.1
  rintro t _ hp ⟨a, ha, rfl⟩
  exact hstep t a hp ha

theorem OneStep.wp_zoom {χ : Type} {get : τ → χ × Backend} {set : χ × Backend → τ → τ}
    {S : Backend → Result α → Backend → Prop} {p : Io Backend α} {Q : Result α → τ → Prop}
    (h : OneStep S p)
    (hstep : ∀ t₁, R t t₁ → ∀ r b, S (get t₁).2 r b → G t₁ (set ((get t₁).1, b) t₁) ∧
      ∀ t₂, R (set ((get t₁).1, b) t₁) t₂ → Q r t₂) :
    Prog.Wp E R G (zoom get set (onBackend p)) Q t := by
  obtain ⟨f, rfl, hf⟩ := h
  exact fun t₁ hr c _ => hstep t₁ hr _ _ (hf c (get t₁).2)

end

end SwordFS.Chunk
