import SwordFS.Chunk.Mechanism

/-!
# 一つの mount だけが動くときの規則

他の誰も動かないとき、`Io` の計算の weakest precondition は命令ごとに読み下せる。
`Alone E p Q s` は、答えが `E` に収まるなら `s` から走らせた `p` が `Q` を満たして返ることを言う。
-/

namespace SwordFS.Infra.Prog

variable {ε σ τ α β : Type} {E : ε → Prop}

theorem wp_eq_bind_iff {p : Prog ε σ α} : (p.bind f).Wp E Eq (fun _ _ => True) Q s ↔
      p.Wp E Eq (fun _ _ => True) (fun a s => (f a).Wp E Eq (fun _ _ => True) Q s) s := by
  induction p generalizing s with
  | ret a => exact ⟨fun h s' hs => hs ▸ h, fun h => h s rfl⟩
  | act upd next ih =>
    refine forall₄_congr fun s' hs c hc => ?_
    exact and_congr_right fun _ => ih c s'

theorem wp_eq_ret_iff : (ret a : Prog ε σ α).Wp E Eq (fun _ _ => True) Q s ↔ Q a s :=
  ⟨fun h => h s rfl, fun h _ hs => hs ▸ h⟩

theorem wp_eq_step_iff : (step f).Wp E Eq (fun _ _ => True) Q s ↔
      ∀ c : Choice ε, c.Within E → Q (f c s).1 (f c s).2 := by
  constructor
  · exact fun h c hc => (h s rfl c hc).2 _ rfl
  · rintro h s' rfl c hc
    exact ⟨trivial, fun s'' hs => hs ▸ h c hc⟩

theorem wp_eq_zoom {get : τ → σ} {set : σ → τ → τ} {p : Prog ε σ α} {I : σ → τ → Prop}
    (hset : ∀ s t, I (get t) t → I s (set s t) ∧ get (set s t) = s) (hI : I (get t) t)
    (h : p.Wp E Eq (fun _ _ => True) (fun a s => ∀ t, get t = s → I s t → Q a t) (get t)) :
    (p.zoom get set).Wp E Eq (fun _ _ => True) Q t := by
  induction p generalizing t with
  | ret a => exact wp_eq_ret_iff.mpr (h _ rfl _ rfl hI)
  | act upd next ih =>
    rintro t' rfl c hc
    obtain ⟨hI', hget⟩ := hset (upd c (get t)) t hI
    refine ⟨trivial, ih c (get t) (by rw [hget]; exact hI') ?_⟩
    rw [hget]
    exact (h _ rfl c hc).2

end SwordFS.Infra.Prog

namespace SwordFS.Chunk

open Infra Prog

section

variable {σ α β : Type} {E : Answer → Prop} {s : σ}

/-- 他の誰も動かないときの weakest precondition -/
def Alone (E : Answer → Prop) (p : Io σ α) (Q : Result α → σ → Prop) (s : σ) : Prop :=
  Prog.Wp E Eq (fun _ _ => True) p Q s

/-- 成功したときは `K` を、失敗したときは `Q` をその場で要求する -/
def Next (K : α → σ → Prop) (Q : Result β → σ → Prop) : Result α → σ → Prop
  | .ok a, s => K a s
  | .error e, s => Q (.error e) s

@[simp] theorem next_ok : Next K Q (.ok a) s = K a s := rfl

@[simp] theorem next_error : Next K Q (.error e) s = Q (.error e) s := rfl

variable {p : Io σ α}

theorem Alone.exec (h : Alone E p Q s) (hc : ∀ n, (cs n).Within E) :
    Q (exec p cs s).1 (exec p cs s).2 := Prog.Wp.exec h hc

theorem Alone.mono (h : Alone E p Q s) (hq : ∀ r s, Q r s → Q' r s) :
    Alone E p Q' s := Prog.Wp.mono h hq

theorem Alone.weaken (h : Alone E p Q s) (he : ∀ a, E' a → E a) : Alone E' p Q s :=
  Prog.Wp.weaken h he (fun _ _ => id) fun _ _ => id

theorem alone_bind_iff :
    Alone E (p >>= f) Q s ↔ Alone E p (Next (fun a => Alone E (f a) Q) Q) s := by
  refine wp_eq_bind_iff.trans (iff_of_eq (congrArg (Prog.Wp E Eq _ p · s) ?_))
  funext r s
  cases r with
  | ok a => rfl
  | error e => exact propext wp_eq_ret_iff

@[simp] theorem alone_pure_iff : Alone E (pure a) Q s ↔ Q (.ok a) s := wp_eq_ret_iff

@[simp] theorem alone_throw_iff : Alone E (throw e) Q s ↔ Q (.error e) s := wp_eq_ret_iff

@[simp] theorem alone_ofResult_iff : Alone E (ofResult r) Q s ↔ Q r s := wp_eq_ret_iff

theorem alone_attempt_iff : Alone E (attempt p) Q s ↔ Alone E p (fun r => Q (.ok r)) s := by
  refine wp_eq_bind_iff.trans (iff_of_eq (congrArg (Prog.Wp E Eq _ p · s) ?_))
  funext r s
  exact propext wp_eq_ret_iff

theorem alone_failIf_iff [Decidable c] :
    Alone E (failIf c e) Q s ↔ (c → Q (.error e) s) ∧ (¬ c → Q (.ok ()) s) := by
  unfold failIf
  split
  · next h => simp [h]
  · next h => simp [h]

/-! 導入の規則 -/

protected theorem Alone.bind
    (h : Alone E p (Next (fun a => Alone E (f a) Q) Q) s) : Alone E (p >>= f) Q s :=
  alone_bind_iff.mpr h

section

variable {Q : Result α → σ → Prop}

protected theorem Alone.pure (h : Q (.ok a) s) : Alone E (pure a) Q s := alone_pure_iff.mpr h

protected theorem Alone.throw (h : Q (.error e) s) : Alone E (throw e) Q s :=
  alone_throw_iff.mpr h

protected theorem Alone.ofResult (h : Q r s) : Alone E (ofResult r) Q s :=
  alone_ofResult_iff.mpr h

protected theorem Alone.attempt {Q : Result (Result α) → σ → Prop}
    (h : Alone E p (fun r => Q (.ok r)) s) : Alone E (attempt p) Q s := alone_attempt_iff.mpr h

protected theorem Alone.failIf [Decidable c] {Q : Result Unit → σ → Prop}
    (h : (c → Q (.error e) s) ∧ (¬ c → Q (.ok ()) s)) : Alone E (failIf c e) Q s :=
  alone_failIf_iff.mpr h

end

theorem Alone.atomic (h : Alone E p Q s) : Alone E (atomic p) Q s :=
  wp_eq_step_iff.mpr fun _ hc => h.exec fun n => hc.sub n

/-- どの答えに対しても `f` の値を変えない計算 -/
def Keeps {κ : Type} (f : σ → κ) (p : Io σ α) : Prop :=
  ∀ s, Alone (fun _ => True) p (fun _ s' => f s' = f s) s

section

variable {κ : Type} {f : σ → κ}

theorem Keeps.bind (hp : Keeps f p) (hk : ∀ a, Keeps f (k a)) : Keeps f (p >>= k) := by
  refine fun s => alone_bind_iff.mpr ((hp s).mono ?_)
  rintro (e | a) s' hs'
  · exact hs'
  · exact (hk a s').mono fun _ _ h => h.trans hs'

theorem Keeps.attempt (hp : Keeps f p) : Keeps f (attempt p) :=
  fun s => alone_attempt_iff.mpr (hp s)

theorem keeps_pure (a : α) : Keeps f (pure a) := fun _ => alone_pure_iff.mpr rfl

theorem keeps_throw (e : Status) : Keeps f (throw e : Io σ α) := fun _ => alone_throw_iff.mpr rfl

theorem keeps_failIf (c : Prop) [Decidable c] (e : Status) : Keeps f (failIf c e) :=
  fun _ => alone_failIf_iff.mpr ⟨fun _ => rfl, fun _ => rfl⟩

end

end

section

variable {α : Type} {E : Answer → Prop} {b : Backend}

theorem forall_choice_iff {P : Answer → Prop} :
    (∀ c : Choice Answer, c.Within E → P (c.ans 0)) ↔ ∀ a, E a → P a :=
  ⟨fun h a ha => h ⟨0, fun _ => a⟩ fun _ => ha, fun h _ hc => h _ (hc 0)⟩

variable {f : Int → Backend → Result α × Backend} {torn : Int → List Bool → Backend → Backend}

theorem alone_call_iff {Q : Result α → Backend → Prop} :
    Alone E (call f torn) Q b ↔ ∀ a, E a → Q (a.call f torn b).1 (a.call f torn b).2 :=
  wp_eq_step_iff.trans 
    (forall_choice_iff (P := fun a => Q (a.call f torn b).1 (a.call f torn b).2))

theorem alone_query_iff {f : Backend → Result α} :
    Alone E (query f) Q b ↔ ∀ a, E a → Q (a.query f b) b :=
  wp_eq_step_iff.trans (forall_choice_iff (P := fun a => Q (a.query f b) b))

theorem alone_query {f : Backend → Result α} (h : ∀ r, Q r b) : Alone E (query f) Q b :=
  alone_query_iff.mpr fun _ _ => h _

theorem keeps_query (f : Backend → Result α) : Keeps g (query f) :=
  fun _ => alone_query_iff.mpr fun _ _ => rfl

/-! 失敗が起きないときの規則 -/

theorem exists_noFault : ∃ a : Answer, a.NoFault := ⟨⟨.none, 0⟩, rfl⟩

theorem alone_query_noFault_iff {f : Backend → Result α} :
    Alone Answer.NoFault (query f) Q b ↔ Q (f b) b := by
  rw [alone_query_iff]
  constructor
  · exact fun h => h ⟨.none, 0⟩ rfl
  · rintro h ⟨_, now⟩ rfl
    exact h

protected theorem Alone.query {f : Backend → Result α}
    (h : Q (f b) b) : Alone Answer.NoFault (query f) Q b := alone_query_noFault_iff.mpr h

theorem alone_call_noFault_iff :
    Alone Answer.NoFault (call f torn) Q b ↔ ∀ now, Q (f now b).1 (f now b).2 := by
  rw [alone_call_iff]
  constructor
  · exact fun h now => h ⟨.none, now⟩ rfl
  · rintro h ⟨_, now⟩ rfl
    exact h now

theorem alone_transact_noFault_iff
    :
    Alone Answer.NoFault (transact cx t) Q b ↔
      ∀ now, Q ((t { cx with now := now }).commit b.redis).1
        { b with redis := ((t { cx with now := now }).commit b.redis).2 } :=
  alone_call_noFault_iff

theorem alone_put_iff
    :
    Alone Answer.NoFault (put key bytes) Q b ↔
      Q (.ok ()) { b with objects := Function.update b.objects key (some bytes) } := by
  simp [put, alone_call_noFault_iff]

theorem alone_allocateChunkID_iff :
    Alone Answer.NoFault (allocateChunkID i) Q b ↔
      (if Metadata.kMaxChunkIDValue ≤ b.nextChunkID then
        Q (.error (.malformed "SliceID counter is invalid or exhausted")) b
      else Q (.ok (b.nextChunkID + 1)) { b with
        nextChunkID := b.nextChunkID + 1
        chunkOwner := Function.update b.chunkOwner (b.nextChunkID + 1) (some i) }) := by
  simp only [allocateChunkID, alone_call_noFault_iff, increment]
  by_cases h : Metadata.kMaxChunkIDValue ≤ b.nextChunkID <;> simp [h]

theorem alone_allocateSliceID_iff :
    Alone Answer.NoFault (allocateSliceID i) Q b ↔
      (if Metadata.kMaxChunkIDValue ≤ b.nextSliceID then
        Q (.error (.malformed "SliceID counter is invalid or exhausted")) b
      else Q (.ok (b.nextSliceID + 1)) { b with
        nextSliceID := b.nextSliceID + 1
        sliceOwner := Function.update b.sliceOwner (b.nextSliceID + 1) (some i) }) := by
  simp only [allocateSliceID, alone_call_noFault_iff, increment]
  by_cases h : Metadata.kMaxChunkIDValue ≤ b.nextSliceID <;> simp [h]

/-- 失敗しなければ、`b` から必ず `r` を返し、何も変えない -/
def Reads (p : Io Backend α) (b : Backend) (r : Result α) : Prop :=
  Alone Answer.NoFault p (fun r' b' => r' = r ∧ b' = b) b

section

variable {β : Type}

variable {p : Io Backend α}

theorem Reads.mono (h : Reads p b r) (hq : Q r b) : Alone Answer.NoFault p Q b :=
  Alone.mono h fun _ _ ⟨hr, hb⟩ => hr ▸ hb ▸ hq

theorem Reads.bind (hp : Reads p b (.ok a)) (hk : Reads (k a) b r) : Reads (p >>= k) b r :=
  alone_bind_iff.mpr (hp.mono hk)

theorem Reads.bind_error (h : Reads p b (.error e)) :
    Reads (p >>= k) b (.error e) := alone_bind_iff.mpr (h.mono ⟨rfl, rfl⟩)

theorem reads_pure (a : α) : Reads (pure a) b (.ok a) := alone_pure_iff.mpr ⟨rfl, rfl⟩

theorem reads_ofResult (r : Result α) : Reads (ofResult r) b r := alone_ofResult_iff.mpr ⟨rfl, rfl⟩

theorem reads_query (f : Backend → Result α) : Reads (query f) b (f b) :=
  alone_query_noFault_iff.mpr ⟨rfl, rfl⟩

theorem reads_failIf [Decidable c] (h : ¬ c) : Reads (failIf c e) b (.ok ()) :=
  alone_failIf_iff.mpr ⟨fun hc => absurd hc h, fun _ => ⟨rfl, rfl⟩⟩

theorem Reads.attempt (h : Reads p b r) : Reads (attempt p) b (.ok r) :=
  alone_attempt_iff.mpr (h.mono ⟨rfl, rfl⟩)

end

theorem keeps_call (hf : ∀ now b, g (f now b).2 = g b)
    (htorn : ∀ now took b, g (torn now took b) = g b) : Keeps g (call f torn) := by
  refine fun b => alone_call_iff.mpr ?_
  rintro ⟨fault, now⟩ -
  rcases fault with _ | st | (_ | _) | ⟨took, (_ | _)⟩
  · exact hf now b
  · rfl
  · rfl
  · exact hf now b
  · exact htorn now took b
  · exact htorn now took b

end

section

variable {χ α : Type} {E : Answer → Prop} {s : χ × Backend}

theorem exists_answer : ∃ a : Answer, (fun _ => True) a := ⟨⟨.none, 0⟩, trivial⟩

theorem alone_getSession_iff (hE : ∃ a, E a) : Alone E getSession Q s ↔ Q (.ok s.1) s := by
  obtain ⟨a, ha⟩ := hE
  exact wp_eq_step_iff.trans ⟨fun h => h ⟨0, fun _ => a⟩ fun _ => ha, fun h _ _ => h⟩

theorem alone_modifySession_iff (hE : ∃ a, E a) :
    Alone E (modifySession f) Q s ↔ Q (.ok (f s.1).1) ((f s.1).2, s.2) := by
  obtain ⟨a, ha⟩ := hE
  exact wp_eq_step_iff.trans ⟨fun h => h ⟨0, fun _ => a⟩ fun _ => ha, fun h _ _ => h⟩

protected theorem Alone.getSession (h : Q (.ok s.1) s) :
    Alone E getSession Q s := wp_eq_step_iff.mpr fun _ _ => h

protected theorem Alone.modifySession
    (h : Q (.ok (f s.1).1) ((f s.1).2, s.2)) : Alone E (modifySession f) Q s :=
  wp_eq_step_iff.mpr fun _ _ => h

theorem alone_onBackend_iff :
    Alone E (onBackend p) Q s ↔ Alone E p (fun r b => Q r (s.1, b)) s.2 := by
  obtain ⟨c, b⟩ := s
  show Prog.Wp E Eq _ (zoom _ _ p) Q (c, b) ↔ Prog.Wp E Eq _ p _ b
  induction p generalizing b with
  | ret a => rw [zoom, wp_eq_ret_iff, wp_eq_ret_iff]
  | act upd next ih =>
    constructor
    · rintro h b' rfl ch hc
      exact ⟨trivial, (ih ch b (upd ch b)).mp (h (c, b) rfl ch hc).2⟩
    · rintro h _ rfl ch hc
      exact ⟨trivial, (ih ch b (upd ch b)).mpr (h b rfl ch hc).2⟩

protected theorem Alone.onBackend
    (h : Alone E p (fun r b => Q r (s.1, b)) s.2) : Alone E (onBackend p) Q s :=
  alone_onBackend_iff.mpr h

theorem keeps_modifySession {κ : Type} {f : χ × Backend → κ} {g : χ → α × χ}
    (h : ∀ c b, f ((g c).2, b) = f (c, b)) : Keeps f (modifySession g) :=
  fun s => (alone_modifySession_iff exists_answer).mpr (h s.1 s.2)

end

end SwordFS.Chunk
