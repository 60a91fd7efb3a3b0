import SwordFS.Chunk.Properties.Attachment

/-!
# session が取り付ける ChunkID

他の mount が動いている間の Flush が取り付けるのは、その Flush の中で自分が割り当てた ChunkID か、
session が覚えている ChunkID に限る。COW の session は何も覚えず、
Slice の session は公開を待つ候補ごとに、作った ChunkID を覚える。

割り当てた ChunkID を他の誰も取り付けないこと（`AttachWorld` の `Mine`）は、
volume 全体の不変条件から得る。ここでは、それを仮定した一つの session の動きを述べる。
-/

namespace SwordFS.Chunk

open Infra Metadata

/-- session の位置、Flush の途中か、取り付けるつもりで覚えている ChunkID -/
structure Holding (χ : Type) where
  index : χ → Nat
  flushing : χ → Bool
  held : χ → ChunkID → Prop

def Holding.mark {χ : Type} (H : Holding χ) (c : χ) : Nat × Bool := (H.index c, H.flushing c)

/-- 取り付けも割り当てもせず、新しく覚えもしない、Flush の途中の動作 -/
structure SessionCalm {χ : Type} (H : Holding χ) (s s' : χ × Backend) : Prop where
  backend : Calm s.2 s'.2
  mark : H.mark s'.1 = H.mark s.1
  held : ∀ id, H.held s'.1 id → H.held s.1 id

/-- さらに、覚えている ChunkID を忘れもしない動作 -/
structure SessionRetains {χ : Type} (H : Holding χ) (s s' : χ × Backend) : Prop
    extends SessionCalm H s s' where
  kept : ∀ id, H.held s.1 id → H.held s'.1 id

section

variable {χ τ α β : Type} {H : Holding χ}

theorem SessionCalm.refl (s : χ × Backend) : SessionCalm H s s :=
  ⟨.refl _, rfl, fun _ => id⟩

theorem SessionCalm.index (h : SessionCalm H s s') :
    H.index s'.1 = H.index s.1 := congrArg Prod.fst h.mark

theorem SessionCalm.flushing (h : SessionCalm H s s') :
    H.flushing s'.1 = H.flushing s.1 := congrArg Prod.snd h.mark

theorem SessionRetains.refl (s : χ × Backend) : SessionRetains H s s :=
  ⟨.refl s, fun _ => id⟩

theorem Always.calm (h : Always (SessionRetains H) p) :
    Always (SessionCalm H) p := h.mono fun _ _ h => h.toSessionCalm

theorem retains_onBackend (h : Always Calm p) : Always (SessionRetains H) (onBackend p) :=
  h.onBackend.mono fun _ _ ⟨hc, hb⟩ => ⟨⟨hb, by rw [hc], fun _ => hc ▸ id⟩, fun _ => hc ▸ id⟩

theorem retains_getSession : Always (SessionRetains H) (getSession : SessionIo χ χ) :=
  always_getSession SessionRetains.refl

theorem retains_modifySession {f : χ → α × χ} (hi : ∀ c, H.mark (f c).2 = H.mark c)
    (hh : ∀ c id, H.held (f c).2 id ↔ H.held c id) : Always (SessionRetains H) (modifySession f) :=
  always_modifySession fun c b => ⟨⟨.refl b, hi c, fun id => (hh c id).mp⟩, fun id => (hh c id).mpr⟩

theorem calm_modifySession {f : χ → α × χ} (hi : ∀ c, H.mark (f c).2 = H.mark c)
    (hh : ∀ c id, H.held (f c).2 id → H.held c id) : Always (SessionCalm H) (modifySession f) :=
  always_modifySession fun c b => ⟨.refl b, hi c, hh c⟩

/--
位置 `(ino, i)` の session から見た全体の状態。

`get` と `set` は全体の状態の中の session と外部状態、`R` は他の者の動き、`G` は許される動き、
`At` は全体の不変条件である。
`Mine id` は、`id` を自分が割り当て、まだ誰も取り付けていないことを言う。
-/
structure AttachWorld (H : Holding χ) (ino : InodeID) (i : Nat) (get : τ → χ × Backend)
    (set : χ × Backend → τ → τ) (R G : τ → τ → Prop) (At : τ → Prop) (Mine : ChunkID → τ → Prop) :
    Prop where
  rely : Prog.IsRely R
  get_set : ∀ a t, get (set a t) = a
  index : ∀ t, At t → H.index (get t).1 = i
  session : ∀ t t', At t → R t t' → (get t').1 = (get t).1
  at_rely : ∀ t t', At t → R t t' → At t'
  mine_rely : ∀ id t t', At t → R t t' → Mine id t → Mine id t'
  calm : ∀ t a, At t → SessionCalm H (get t) a → G t (set a t) ∧ At (set a t)
  mine_calm : ∀ id t a, At t → SessionCalm H (get t) a → Mine id t → Mine id (set a t)
  alloc : ∀ t t', At t → t' = set ((get t).1, (get t).2.allocated i) t →
    G t t' ∧ At t' ∧ Mine ((get t).2.nextChunkID + 1) t'
  hold : ∀ id t t' c, At t → Mine id t → H.mark c = H.mark (get t).1 →
    (∀ x, H.held c x → H.held (get t).1 x ∨ x = id) → t' = set (c, (get t).2) t →
    G t t' ∧ At t' ∧ Mine id t'
  attach : ∀ id t b, At t → Mine id t ∨ H.flushing (get t).1 = true ∧ H.held (get t).1 id →
    Attaches ino i id (get t).2 b → G t (set ((get t).1, b) t) ∧ At (set ((get t).1, b) t)

/-- Flush の始めと終わりの印を付け外しできる、全体の状態 -/
structure FlushWorld (H : Holding χ) (ino : InodeID) (i : Nat) (get : τ → χ × Backend)
    (set : χ × Backend → τ → τ) (R G : τ → τ → Prop) (At : τ → Prop) (Mine : ChunkID → τ → Prop) :
    Prop extends AttachWorld H ino i get set R G At Mine where
  toggle : ∀ t c, At t → H.index c = H.index (get t).1 →
    (∀ x, H.held c x → H.held (get t).1 x) →
    G t (set (c, (get t).2) t) ∧ At (set (c, (get t).2) t)

namespace AttachWorld

variable {ino : InodeID} {i : Nat} {get : τ → χ × Backend} {set : χ × Backend → τ → τ}
  {R G : τ → τ → Prop} {At : τ → Prop} {Mine : ChunkID → τ → Prop} {t : τ} {id : ChunkID}

def Ready (H : Holding χ) (get : τ → χ × Backend) (Mine : ChunkID → τ → Prop) (id : ChunkID)
    (t : τ) : Prop := Mine id t ∨ H.flushing (get t).1 = true ∧ H.held (get t).1 id

variable (w : AttachWorld H ino i get set R G At Mine)

/-- 全体の状態の中で走らせた session の計算 -/
abbrev Runs (_ : AttachWorld H ino i get set R G At Mine) (p : SessionIo χ α)
    (Q : Result α → τ → Prop) (t : τ) : Prop := Prog.Wp AnyAnswer R G (Prog.zoom get set p) Q t

abbrev Keeps (p : SessionIo χ α) (t : τ) : Prop := w.Runs p (fun _ t => At t) t

include w

theorem ready_rely (ha : At t) (hr : R t t') (h : Ready H get Mine id t) : Ready H get Mine id t' :=
  h.imp (w.mine_rely id t t' ha hr) fun h => (w.session t t' ha hr).symm ▸ h

theorem ready_retains (ha : At t)
    (hk : SessionRetains H (get t) a) (h : Ready H get Mine id t) : Ready H get Mine id (set a t) :=
  h.imp (w.mine_calm id t a ha hk.toSessionCalm) fun h => by
    rw [w.get_set]
    exact ⟨hk.flushing.trans h.1, hk.kept id h.2⟩

variable {p : SessionIo χ α}

theorem wp_calm (h : Always (SessionCalm H) p) (ha : At t) : w.Keeps p t :=
  h.wp_zoom ha w.at_rely w.calm

/-- 覚えている ChunkID を忘れない計算の間、取り付けてよい番号は取り付けてよいまま -/
theorem wp_retains (h : Always (SessionRetains H) p) (ha : At t) (hm : b → Ready H get Mine id t) :
    w.Runs p
      (fun _ t => At t ∧ (b → Ready H get Mine id t)) t := by
  refine h.wp_zoom (P := fun t => At t ∧ (b → Ready H get Mine id t)) ⟨ha, hm⟩ ?_ ?_
  · rintro t t' ⟨ha, hm⟩ hr
    exact ⟨w.at_rely t t' ha hr, fun hb => w.ready_rely ha hr (hm hb)⟩
  · rintro t a ⟨ha, hm⟩ hk
    obtain ⟨hg, ha'⟩ := w.calm t a ha hk.toSessionCalm
    exact ⟨hg, ha', fun hb => w.ready_retains ha hk (hm hb)⟩

variable {k : α → SessionIo χ β}

theorem wp_calm_bind (h : Always (SessionCalm H) p)
    (ha : At t)
    (hk : ∀ a t, At t → w.Keeps (k a) t) :
    w.Keeps (p >>= k : SessionIo χ β) t := by
  refine wp_zoom_bind w.rely ((w.wp_calm h ha).mono fun r t ha => ?_)
  cases r with
  | ok a => exact hk a t ha
  | error e => exact fun t' hr => w.at_rely t t' ha hr

theorem wp_retains_bind (h : Always (SessionRetains H) p) (ha : At t)
    (hm : b → Ready H get Mine id t)
    (hk : ∀ a t, At t → (b → Ready H get Mine id t) →
      w.Keeps (k a) t) :
    w.Keeps (p >>= k : SessionIo χ β) t := by
  refine wp_zoom_bind w.rely ((w.wp_retains h ha hm).mono fun r t ⟨ha, hm⟩ => ?_)
  cases r with
  | ok a => exact hk a t ha hm
  | error e => exact fun t' hr => w.at_rely t t' ha hr

theorem wp_bind
    (h : w.Runs p (fun r t => At t ∧ ∀ a, r = .ok a →
      w.Keeps (k a) t) t) :
    w.Keeps (p >>= k : SessionIo χ β) t := by
  refine wp_zoom_bind w.rely (h.mono fun r t ⟨ha, hk⟩ => ?_)
  cases r with
  | ok a => exact hk a rfl
  | error e => exact fun t' hr => w.at_rely t t' ha hr

theorem wp_allocate (ha : At t) :
    w.Runs (onBackend (allocateChunkID i))
      (fun r t => At t ∧ ∀ id, r = .ok id → Mine id t) t := by
  refine (oneStep_allocateChunkID i).wp_zoom fun t₁ hr r b hb => ?_
  have ha₁ := w.at_rely t t₁ ha hr
  have hcalm := w.calm t₁ _ ha₁ (SessionCalm.refl _)
  obtain ⟨hg, ha₂, hm⟩ := w.alloc t₁ _ ha₁ rfl
  rcases hb with ⟨rfl, rfl⟩ | ⟨⟨e, rfl⟩, rfl | rfl⟩
  · refine ⟨hg, fun t₂ hr₂ => ⟨w.at_rely _ t₂ ha₂ hr₂, ?_⟩⟩
    rintro _ ⟨⟩
    exact w.mine_rely _ _ _ ha₂ hr₂ hm
  · exact ⟨hcalm.1, fun t₂ hr₂ => ⟨w.at_rely _ t₂ hcalm.2 hr₂, fun _ h => nomatch h⟩⟩
  · exact ⟨hg, fun t₂ hr₂ => ⟨w.at_rely _ t₂ ha₂ hr₂, fun _ h => nomatch h⟩⟩

/-- 取り付け。`Mine` の番号か、session の覚えている番号に限る -/
theorem wp_attach {p : Io Backend α} (h : OneStep (fun b _ b' => Attaches ino i id b b') p)
    (ha : At t) (hm : Ready H get Mine id t) : w.Keeps (onBackend p) t := by
  refine h.wp_zoom fun t₁ hr r b hb => ?_
  have ha₁ := w.at_rely t t₁ ha hr
  obtain ⟨hg, ha₂⟩ := w.attach id t₁ b ha₁ (w.ready_rely ha hr hm) hb
  exact ⟨hg, fun t₂ hr₂ => w.at_rely _ t₂ ha₂ hr₂⟩

theorem wp_getSession (ha : At t) :
    w.Runs (getSession : SessionIo χ χ)
      (fun r t => At t ∧ ∀ c, r = .ok c → c = (get t).1) t := by
  intro t₁ hr c _
  have ha₁ := w.at_rely t t₁ ha hr
  obtain ⟨hg, ha₂⟩ := w.calm t₁ _ ha₁ (SessionCalm.refl _)
  refine ⟨hg, fun t₂ hr₂ => ⟨w.at_rely _ t₂ ha₂ hr₂, ?_⟩⟩
  rintro _ ⟨⟩
  rw [w.session _ t₂ ha₂ hr₂, w.get_set]

theorem wp_modify {Q : Result α → τ → Prop} (ha : At t)
    (h : ∀ t, At t → (G t (set ((f (get t).1).2, (get t).2) t) ∧
      At (set ((f (get t).1).2, (get t).2) t)) ∧
      ∀ t', At t' → R (set ((f (get t).1).2, (get t).2) t) t' → Q (.ok (f (get t).1).1) t') :
    w.Runs (modifySession f) Q t := by
  intro t₁ hr c _
  obtain ⟨⟨hg, ha₂⟩, hq⟩ := h t₁ (w.at_rely t t₁ ha hr)
  exact ⟨hg, fun t₂ hr₂ => hq t₂ (w.at_rely _ t₂ ha₂ hr₂) hr₂⟩

theorem wp_hold {f : χ → α × χ} (ha : At t) (hm : Mine id t) (hi : ∀ c, H.mark (f c).2 = H.mark c)
    (hh : ∀ c x, H.held (f c).2 x → H.held c x ∨ x = id) :
    w.Runs (modifySession f) (fun _ t => At t ∧ Mine id t) t := by
  intro t₁ hr c _
  have ha₁ := w.at_rely t t₁ ha hr
  obtain ⟨hg, ha₂, hm₂⟩ := w.hold id t₁ _ (f (get t₁).1).2 ha₁ (w.mine_rely id t t₁ ha hr hm)
    (hi _) (hh _) rfl
  exact ⟨hg, fun t₂ hr₂ => ⟨w.at_rely _ t₂ ha₂ hr₂, w.mine_rely id _ t₂ ha₂ hr₂ hm₂⟩⟩

/-- Flush の途中に限った全体の状態 -/
theorem flushing : AttachWorld H ino i get set R G
    (fun t => At t ∧ H.flushing (get t).1 = true) Mine where
  rely := w.rely
  get_set := w.get_set
  index t h := w.index t h.1
  session t t' h := w.session t t' h.1
  at_rely t t' h hr := ⟨w.at_rely t t' h.1 hr, by rw [w.session t t' h.1 hr]; exact h.2⟩
  mine_rely id t t' h := w.mine_rely id t t' h.1
  calm t a h ha := by
    obtain ⟨hg, hat⟩ := w.calm t a h.1 ha
    exact ⟨hg, hat, by rw [w.get_set, ha.flushing]; exact h.2⟩
  mine_calm id t a h := w.mine_calm id t a h.1
  alloc t t' h he := by
    obtain ⟨hg, hat, hm⟩ := w.alloc t t' h.1 he
    exact ⟨hg, ⟨hat, by rw [he, w.get_set]; exact h.2⟩, hm⟩
  hold id t t' c h hm hmark hheld he := by
    obtain ⟨hg, hat, hm⟩ := w.hold id t t' c h.1 hm hmark hheld he
    refine ⟨hg, ⟨hat, ?_⟩, hm⟩
    rw [he, w.get_set]
    exact (congrArg Prod.snd hmark).trans h.2
  attach id t b h hm hb := by
    obtain ⟨hg, hat⟩ := w.attach id t b h.1 hm hb
    exact ⟨hg, hat, by rw [w.get_set]; exact h.2⟩

end AttachWorld

namespace FlushWorld

variable {ino : InodeID} {i : Nat} {get : τ → χ × Backend} {set : χ × Backend → τ → τ}
  {R G : τ → τ → Prop} {At : τ → Prop} {Mine : ChunkID → τ → Prop} {t : τ}

theorem wp_toggle (w : FlushWorld H ino i get set R G At Mine) {f : χ → α × χ} (ha : At t)
    (hi : ∀ c, H.index (f c).2 = H.index c) (hh : ∀ c id, H.held (f c).2 id → H.held c id) :
    w.Runs (modifySession f) (fun r t => At t ∧ ∃ c, r = .ok (f c).1 ∧ (get t).1 = (f c).2) t := by
  refine w.wp_modify ha fun t ha => ⟨w.toggle t _ ha (hi _) (hh _), fun t' ha' hr => ⟨ha', _, rfl, ?_⟩⟩
  have hset := (w.toggle t _ ha (hi (get t).1) (hh _)).2
  rw [w.session _ t' hset hr, w.get_set]

end FlushWorld

end

/--
chunk の方式 `M` が取り付けについて守ること。

Flush の他の操作は取り付けも割り当てもせず、開いたばかりの session は何も覚えていない。
-/
structure AttachOnce {χ : Type} (H : Holding χ) (ino : InodeID) (M : Mechanism χ) : Prop where
  openSession : ∀ idx create, AlwaysOk Calm
    (fun r => ∀ c, r = some c → H.index c = idx ∧ ∀ id, ¬H.held c id) (M.openSession idx create)
  read : ∀ c off len, Always Calm (M.read c off len)
  write : ∀ off bytes, Always (SessionCalm H) (M.write off bytes)
  truncateLocal : ∀ size, Always (SessionCalm H) (M.truncateLocal size)
  clampPublishedPrefix : ∀ p, Always (SessionCalm H) (M.clampPublishedPrefix p)
  sanitizeBoundary : ∀ b, Always Calm (M.sanitizeBoundary b)
  flush : ∀ {τ : Type} {i : Nat} {get : τ → χ × Backend} {set : χ × Backend → τ → τ}
    {R G : τ → τ → Prop} {At : τ → Prop} {Mine : ChunkID → τ → Prop},
    FlushWorld H ino i get set R G At Mine → ∀ t, At t →
      Prog.Wp AnyAnswer R G (Prog.zoom get set M.flush) (fun _ t => At t) t

end SwordFS.Chunk
