import SwordFS.Chunk.Properties.CommittedRange

/-!
# 誰にも邪魔されない Slice の Flush

失敗が起きず他の誰も動かないとき、`SliceChunk::Flush` が成功する条件と、そのときの結果を求める。
Flush は、書き込みを凍結し、同じ window に入る候補を併合し、object を上げ、候補を順に公開する。
-/

namespace SwordFS.Chunk.Slice

open List Infra Metadata Function

variable {cx : MetaContext} {ino : InodeID} {i : Nat} {sc : SliceChunk} {b : Backend}

/-! ## object の準備 -/

def FrozenSlice.NeedsObject (c : FrozenSlice) : Prop := c.visibleLen ≠ 0 ∧ c.preparedId = none

instance (c : FrozenSlice) : Decidable c.NeedsObject := inferInstanceAs (Decidable (_ ∧ _))

/-- `n` の次から順に SliceID を割り当てた候補 -/
def assignIDs : List FrozenSlice → Nat → List FrozenSlice
  | [], _ => []
  | c :: cs, n =>
    if c.NeedsObject then { c with preparedId := some (n + 1) } :: assignIDs cs (n + 1)
    else c :: assignIDs cs n

def Preparable : List FrozenSlice → Nat → Prop
  | [], _ => True
  | c :: cs, n =>
    if c.NeedsObject then
      (c.payload ≠ [] ∧ c.payload.length ≤ kMaxU32 ∧ n < kMaxChunkIDValue) ∧ Preparable cs (n + 1)
    else Preparable cs n

/-- `b` から候補 `cs` の object を上げたのが `b'` -/
structure ObjectsPrepared (cs : List FrozenSlice) (b b' : Backend) : Prop where
  redis : b'.redis = b.redis
  sliceIndex : b'.sliceIndex = b.sliceIndex
  nextChunkID : b'.nextChunkID = b.nextChunkID
  kept : ∀ key, (∀ id, key = .slice id → id ≤ b.nextSliceID) → b'.objects key = b.objects key
  put : List.Forall₂ (fun c c' => c.NeedsObject →
      b'.objects (.slice (c'.preparedId.getD 0)) = some c.payload)
    cs (assignIDs cs b.nextSliceID)

theorem modify_append_length {α : Type} (done rest : List α) (x : α) (f : α → α) :
    (done ++ x :: rest).modify done.length f = done ++ f x :: rest := by
  induction done with
  | nil => rfl
  | cons y ys ih => simp [ih]

section

variable {done rest : List FrozenSlice} {c : FrozenSlice} {E : Answer → Prop}

theorem alone_candidate_iff (hE : ∃ a, E a) :
    Alone E (candidate k) Q (sc, b) ↔ Q (.ok sc.frozen[k]?) (sc, b) :=
  alone_bind_iff.trans ((alone_getSession_iff hE).trans alone_pure_iff)

/-- SliceID を割り当てて object を上げた外部状態 -/
def withObject (i : Nat) (c : FrozenSlice) (b : Backend) : Backend :=
  { b with
    nextSliceID := b.nextSliceID + 1
    sliceOwner := update b.sliceOwner (b.nextSliceID + 1) (some i)
    objects := update b.objects (.slice (b.nextSliceID + 1)) (some c.payload) }

theorem prepareObject_alone (hfrozen : sc.frozen = done ++ c :: rest) (hneeds : c.NeedsObject)
    (hok : c.payload ≠ [] ∧ c.payload.length ≤ kMaxU32 ∧ b.nextSliceID < kMaxChunkIDValue →
      Q (.ok ()) ({ sc with
        frozen := done ++ { c with preparedId := some (b.nextSliceID + 1) } :: rest },
        withObject i c b))
    (herr : ∀ e s, ¬ (c.payload ≠ [] ∧ c.payload.length ≤ kMaxU32 ∧
      b.nextSliceID < kMaxChunkIDValue) → Q (.error e) s) :
    Alone Answer.NoFault (prepareObject i done.length) Q (sc, b) := by
  have hget : sc.frozen[done.length]? = some c := by simp [hfrozen]
  have hskip : ¬ (c.visibleLen = 0 ∨ c.preparedId.isSome = true) := by
    rw [hneeds.2]
    simpa using hneeds.1
  refine .bind ((alone_candidate_iff exists_noFault).mpr ?_)
  simp only [next_ok, hget, if_neg hskip]
  refine .bind (.failIf ⟨fun hbad => herr _ _ ?_, fun hgood => ?_⟩)
  · rintro ⟨h1, h2, -⟩
    rcases hbad with h | h
    · exact h1 h
    · omega
  rw [not_or] at hgood
  refine .bind (.onBackend (alone_allocateSliceID_iff.mpr ?_))
  split
  · next hmax => exact herr _ _ fun h => Nat.not_lt.mpr hmax h.2.2
  next hmax =>
  have hlt : b.nextSliceID < kMaxChunkIDValue := Nat.lt_of_not_le hmax
  refine .bind (.failIf ⟨fun h => ?_, fun _ => ?_⟩)
  · rcases h with h | h
    · exact absurd h (Nat.succ_ne_zero _)
    · exact absurd hlt (Nat.not_lt.mpr (Nat.le_of_lt_succ h))
  refine .bind (.onBackend (alone_put_iff.mpr ?_))
  refine (alone_modifyCandidate_iff exists_noFault).mpr ?_
  rw [hfrozen, modify_append_length, if_pos hneeds.1]
  exact hok ⟨hgood.1, Nat.le_of_not_lt hgood.2, hlt⟩

theorem prepareObject_skip (hfrozen : sc.frozen = done ++ c :: rest) (hneeds : ¬ c.NeedsObject)
    (hok : Q (.ok ()) (sc, b)) : Alone Answer.NoFault (prepareObject i done.length) Q (sc, b) := by
  have hget : sc.frozen[done.length]? = some c := by simp [hfrozen]
  have hskip : c.visibleLen = 0 ∨ c.preparedId.isSome = true := by
    by_contra h
    rw [not_or, Option.not_isSome_iff_eq_none] at h
    exact hneeds h
  refine .bind ((alone_candidate_iff exists_noFault).mpr ?_)
  simp only [next_ok, hget, if_pos hskip]
  exact .pure hok

theorem ObjectsPrepared.cons (hneeds : c.NeedsObject)
    (h : ObjectsPrepared rest (withObject i c b) b') : ObjectsPrepared (c :: rest) b b' := by
  refine ⟨h.redis, h.sliceIndex, h.nextChunkID, fun key hkey => ?_, ?_⟩
  · rw [h.kept key fun id hid => (hkey id hid).trans (Nat.le_succ _)]
    refine update_of_ne ?_ _ _
    rintro rfl
    exact absurd (hkey _ rfl) (Nat.not_succ_le_self _)
  · rw [assignIDs, if_pos hneeds]
    refine .cons (fun _ => ?_) h.put
    have hkept := h.kept (.slice (b.nextSliceID + 1)) fun id hid => by
      cases hid
      exact le_rfl
    exact hkept.trans (update_self ..)

theorem ObjectsPrepared.skip (hneeds : ¬ c.NeedsObject)
    (h : ObjectsPrepared rest b b') : ObjectsPrepared (c :: rest) b b' := by
  refine ⟨h.redis, h.sliceIndex, h.nextChunkID, h.kept, ?_⟩
  rw [assignIDs, if_neg hneeds]
  exact .cons (fun h => absurd h hneeds) h.put

theorem prepareObjects_alone (hfrozen : sc.frozen = done ++ rest)
    (hok : ∀ b', Preparable rest b.nextSliceID → ObjectsPrepared rest b b' →
      Q (.ok ()) ({ sc with frozen := done ++ assignIDs rest b.nextSliceID }, b'))
    (herr : ∀ e s, ¬ Preparable rest b.nextSliceID → Q (.error e) s) :
    Alone Answer.NoFault (forEach (prepareObject i) (List.range' done.length rest.length)) Q
      (sc, b) := by
  induction rest generalizing done sc b with
  | nil =>
    have hsc : { sc with frozen := done ++ [] } = sc := by rw [← hfrozen]
    have h := hok b trivial ⟨rfl, rfl, rfl, fun _ _ => rfl, .nil⟩
    rw [assignIDs, hsc] at h
    exact .pure h
  | cons c rest ih =>
    rw [length_cons, range'_succ]
    by_cases hneeds : c.NeedsObject
    · rw [Preparable, if_pos hneeds] at hok herr
      rw [assignIDs, if_pos hneeds] at hok
      refine .bind (prepareObject_alone hfrozen hneeds ?_ ?_)
      · intro hpay
        have hlen : done.length + 1 =
            (done ++ [{ c with preparedId := some (b.nextSliceID + 1) }]).length := by simp
        simp only [next_ok]
        rw [hlen]
        refine ih (by simp) ?_ ?_
        · intro b' hprep hobj
          have h := hok b' ⟨hpay, hprep⟩ (hobj.cons hneeds)
          rw [append_assoc]
          exact h
        · exact fun e s hprep => herr e s fun h => hprep h.2
      · exact fun e s hpay => herr e s fun h => hpay h.1
    · rw [Preparable, if_neg hneeds] at hok herr
      rw [assignIDs, if_neg hneeds] at hok
      refine .bind (prepareObject_skip hfrozen hneeds ?_)
      have hlen : done.length + 1 = (done ++ [c]).length := by simp
      simp only [next_ok]
      rw [hlen]
      refine ih (by simp [hfrozen]) ?_ herr
      intro b' hprep hobj
      have h := hok b' hprep (hobj.skip hneeds)
      rw [append_assoc]
      exact h

end

/-! ## 候補を順に公開する -/

def publishedView : List FrozenSlice → PublishView → PublishView
  | [], v => v
  | c :: cs, v => publishedView cs (if c.visibleLen = 0 then v else c.after v)

/-- 見える候補が、順番が来たときに公開できる -/
def AllAccepted (chunkSize : Nat) : List FrozenSlice → PublishView → Prop
  | [], _ => True
  | c :: cs, v =>
    if c.visibleLen = 0 then AllAccepted chunkSize cs v
    else c.Accepted chunkSize v ∧ AllAccepted chunkSize cs (c.after v)

/-- 見える候補が全て公開できる条件 -/
structure AllPublishable (cx : MetaContext) (ino : InodeID) (i : Nat) (cs : List FrozenSlice)
    (b : Backend) : Prop where
  file : (∃ c ∈ cs, c.visibleLen ≠ 0) → FileWritable cx ino i b.redis
  present : ∀ c ∈ cs, c.visibleLen ≠ 0 → c.Presentable cx.chunkSize i
  accepted : AllAccepted cx.chunkSize cs (publishView ino i b)

/-- `b` から見える候補を全て公開したのが `b'` -/
structure AllPublished (cx : MetaContext) (ino : InodeID) (i : Nat) (cs : List FrozenSlice)
    (b b' : Backend) : Prop where
  view : publishView ino i b' = publishedView cs (publishView ino i b)
  eof : ∀ c ∈ cs, c.visibleLen ≠ 0 → ∃ n, eofOf b'.redis ino = some n ∧ c.endOff cx.chunkSize i ≤ n
  grows : ∀ n, eofOf b.redis ino = some n → ∃ n', eofOf b'.redis ino = some n' ∧ n ≤ n'
  objects : b'.objects = b.objects

section

variable {c : FrozenSlice} {cs : List FrozenSlice} {b' b'' : Backend}

theorem CandidatePublished.eofOf_eq (h : CandidatePublished cx ino i c b b')
    (hn : eofOf b.redis ino = some n) :
    eofOf b'.redis ino = some (max n (c.endOff cx.chunkSize i)) := by
  obtain ⟨m, m', hm, hm', -, -, -, hsize⟩ := h.file.inode
  obtain rfl : m.attr.size = n := by simpa [eofOf, hm] using hn
  simp [eofOf, hm', hsize]

theorem Publishable.writable_after (h : Publishable cx ino i c b)
    (hpub : CandidatePublished cx ino i c b b') : FileWritable cx ino i b'.redis := by
  obtain ⟨file, hsnap, hp⟩ := h.file
  have hw := (validateWrite_iff h.present.record h.present.inFile).mpr
    ⟨h.accepted.valid, h.present.extends_⟩
  obtain ⟨file', hsnap', hp'⟩ := hsnap.published hw hpub.file
  exact ⟨file', hsnap', hp'.trans hp⟩

theorem allPublishable_cons_of_visible (hvis : c.visibleLen ≠ 0)
    (hpub : CandidatePublished cx ino i c b b') (h : Publishable cx ino i c b) :
    AllPublishable cx ino i (c :: cs) b ↔ AllPublishable cx ino i cs b' := by
  constructor
  · intro hall
    have hacc := hall.accepted
    rw [AllAccepted, if_neg hvis] at hacc
    exact ⟨fun _ => h.writable_after hpub, fun c' hc' => hall.present c' (.tail _ hc'),
      hpub.view ▸ hacc.2⟩
  · intro hall
    refine ⟨fun _ => h.file, fun c' hc' hv => ?_, ?_⟩
    · rcases mem_cons.mp hc' with rfl | hc'
      · exact h.present
      · exact hall.present c' hc' hv
    · rw [AllAccepted, if_neg hvis]
      exact ⟨h.accepted, hpub.view ▸ hall.accepted⟩

theorem AllPublishable.head (hvis : c.visibleLen ≠ 0)
    (h : AllPublishable cx ino i (c :: cs) b) : Publishable cx ino i c b := by
  have hacc := h.accepted
  rw [AllAccepted, if_neg hvis] at hacc
  exact ⟨h.file ⟨c, .head _, hvis⟩, h.present c (.head _) hvis, hacc.1⟩

theorem allPublishable_cons_of_invisible (hinv : c.visibleLen = 0) :
    AllPublishable cx ino i (c :: cs) b ↔ AllPublishable cx ino i cs b := by
  constructor
  · intro h
    have hacc := h.accepted
    rw [AllAccepted, if_pos hinv] at hacc
    exact ⟨fun ⟨c', hc', hv⟩ => h.file ⟨c', .tail _ hc', hv⟩,
      fun c' hc' => h.present c' (.tail _ hc'), hacc⟩
  · intro h
    refine ⟨fun ⟨c', hc', hv⟩ => ?_, fun c' hc' hv => ?_, ?_⟩
    · rcases mem_cons.mp hc' with rfl | hc'
      · exact absurd hinv hv
      · exact h.file ⟨c', hc', hv⟩
    · rcases mem_cons.mp hc' with rfl | hc'
      · exact absurd hinv hv
      · exact h.present c' hc' hv
    · rw [AllAccepted, if_pos hinv]
      exact h.accepted

theorem AllPublished.cons_visible (hvis : c.visibleLen ≠ 0)
    (hpub : CandidatePublished cx ino i c b b') (h : AllPublished cx ino i cs b' b'') :
    AllPublished cx ino i (c :: cs) b b'' := by
  have hgrows : ∀ n, eofOf b.redis ino = some n → ∃ n', eofOf b''.redis ino = some n' ∧
      max n (c.endOff cx.chunkSize i) ≤ n' := fun n hn => h.grows _ (hpub.eofOf_eq hn)
  refine ⟨?_, fun c' hc' hv => ?_, fun n hn => ?_, h.objects.trans hpub.objects⟩
  · rw [publishedView, if_neg hvis, h.view, hpub.view]
  · rcases mem_cons.mp hc' with rfl | hc'
    · obtain ⟨m, -, hm, -⟩ := hpub.file.inode
      obtain ⟨n', hn', hle⟩ := hgrows m.attr.size (by simp [eofOf, hm])
      exact ⟨n', hn', (le_max_right _ _).trans hle⟩
    · exact h.eof c' hc' hv
  · obtain ⟨n', hn', hle⟩ := hgrows n hn
    exact ⟨n', hn', (le_max_left _ _).trans hle⟩

theorem AllPublished.cons_invisible (hinv : c.visibleLen = 0)
    (h : AllPublished cx ino i cs b b') : AllPublished cx ino i (c :: cs) b b' := by
  refine ⟨?_, fun c' hc' hv => ?_, h.grows, h.objects⟩
  · rw [publishedView, if_pos hinv, h.view]
  · rcases mem_cons.mp hc' with rfl | hc'
    · exact absurd hinv hv
    · exact h.eof c' hc' hv

end

section

variable {c : FrozenSlice} {done rest : List FrozenSlice} {committed : List Nat}

/-- 公開し終えたもの以外に、見える候補は無い -/
def OnlyCommitted (done : List FrozenSlice) (committed : List Nat) : Prop :=
  ∀ p ∈ done.zipIdx, p.2 ∉ committed → p.1.visibleLen = 0

theorem OnlyCommitted.retire (h : OnlyCommitted sc.frozen committed) :
    ∀ c ∈ (sc.retire committed).frozen, c.visibleLen = 0 := by
  unfold SliceChunk.retire
  split
  · next hnil =>
    subst hnil
    intro c hc
    obtain ⟨k, hk, rfl⟩ := mem_iff_getElem.mp hc
    exact h (sc.frozen[k], k) (mk_mem_zipIdx_iff_getElem?.mpr (by simp [hk])) (by simp)
  · intro c hc
    obtain ⟨p, hp, rfl⟩ := mem_map.mp hc
    obtain ⟨hp, hno⟩ := mem_filter.mp hp
    exact h p hp (by simpa using hno)

theorem OnlyCommitted.append_committed (h : OnlyCommitted done committed) (c : FrozenSlice) :
    OnlyCommitted (done ++ [c]) (committed ++ [done.length]) := by
  intro p hp hno
  rw [zipIdx_append, mem_append] at hp
  simp only [mem_append, mem_singleton, not_or] at hno
  rcases hp with hp | hp
  · exact h p hp hno.1
  · simp only [Nat.zero_add, zipIdx_cons, zipIdx_nil, mem_singleton] at hp
    subst hp
    exact absurd rfl hno.2

theorem OnlyCommitted.append_invisible (h : OnlyCommitted done committed)
    (hc : c.visibleLen = 0) : OnlyCommitted (done ++ [c]) committed := by
  intro p hp hno
  rw [zipIdx_append, mem_append] at hp
  rcases hp with hp | hp
  · exact h p hp hno
  · simp only [Nat.zero_add, zipIdx_cons, zipIdx_nil, mem_singleton] at hp
    subst hp
    exact hc

def PublishAllOutcome (cx : MetaContext) (ino : InodeID) (i : Nat) (cs : List FrozenSlice)
    (b : Backend) : Result Unit → SliceChunk × Backend → Prop
  | .ok (), s => AllPublishable cx ino i cs b ∧ AllPublished cx ino i cs b s.2 ∧
      ∀ c ∈ s.1.frozen, c.visibleLen = 0
  | .error _, _ => ¬ AllPublishable cx ino i cs b

theorem publishAll_alone (hfrozen : sc.frozen = done ++ rest)
    (hdone : OnlyCommitted done committed) :
    Alone Answer.NoFault
      (publishAll cx ino .exclusive i (List.range' done.length rest.length) committed)
      (PublishAllOutcome cx ino i rest b) (sc, b) := by
  induction rest generalizing done sc b committed with
  | nil =>
    rw [append_nil] at hfrozen
    refine .modifySession ⟨⟨?_, by simp, trivial⟩, ?_, ?_⟩
    · rintro ⟨c, hc, -⟩
      cases hc
    · exact ⟨rfl, by simp, fun n hn => ⟨n, hn, le_rfl⟩, rfl⟩
    · exact OnlyCommitted.retire (hfrozen ▸ hdone)
  | cons c rest ih =>
    have hget : sc.frozen[done.length]? = some c := by simp [hfrozen]
    rw [length_cons, range'_succ]
    refine .bind ((alone_candidate_iff exists_noFault).mpr ?_)
    simp only [next_ok, hget]
    split
    · next hinv =>
      have hlen : done.length + 1 = (done ++ [c]).length := by simp
      rw [hlen]
      refine (ih (by simp [hfrozen]) (hdone.append_invisible hinv)).mono ?_
      rintro (e | ⟨⟩) s h
      · exact fun h' => h ((allPublishable_cons_of_invisible hinv).mp h')
      · exact ⟨(allPublishable_cons_of_invisible hinv).mpr h.1, h.2.1.cons_invisible hinv, h.2.2⟩
    · next hvis =>
      refine .bind (.attempt
        ((publishFrozen_alone hget hvis).atomic.mono ?_))
      rintro (e | ⟨⟩) ⟨sc', b'⟩ h
      · refine .bind (.modifySession
          (.throw fun h' => h (h'.head hvis)))
      · obtain ⟨hok, ⟨f, rfl⟩, hpub⟩ := h
        have hlen : done.length + 1 = (done ++ [f c]).length := by simp
        simp only [next_ok]
        rw [hlen]
        refine (ih ?_ (hdone.append_committed (f c))).mono ?_
        · simp [hfrozen, modify_append_length]
        · rintro (e | ⟨⟩) s h
          · exact fun h' => h ((allPublishable_cons_of_visible hvis hpub hok).mp h')
          · exact ⟨(allPublishable_cons_of_visible hvis hpub hok).mpr h.1,
              h.2.1.cons_visible hvis hpub, h.2.2⟩

/-! ## 公開された record -/

theorem FrozenSlice.prefix_recordedIndex (c : FrozenSlice) (id id' : ChunkID)
    (index : ChunkID → List SliceRecord) : index id' <+: c.recordedIndex id index id' := by
  unfold FrozenSlice.recordedIndex
  split
  · by_cases h : id' = id
    · subst h
      rw [update_self]
      exact prefix_append _ _
    · exact (update_of_ne h _ index).symm ▸ prefix_rfl
  · exact prefix_rfl

variable {v : PublishView}

/-- 取り付けられた ChunkID は、続く公開でも変わらず、その index は伸びるだけ -/
theorem publishedView_attached {id : ChunkID} (cs : List FrozenSlice) (h : v.attached = some id) :
    (publishedView cs v).attached = some id ∧ v.index id <+: (publishedView cs v).index id := by
  induction cs generalizing v with
  | nil => exact ⟨h, prefix_rfl⟩
  | cons c cs ih =>
    rw [publishedView]
    split
    · exact ih h
    · have htarget : c.target v = id := by simp [FrozenSlice.target, h]
      have hafter : (c.after v).attached = some id := by simp [FrozenSlice.after, htarget]
      exact ⟨(ih hafter).1, (c.prefix_recordedIndex _ _ _).trans (ih hafter).2⟩

theorem FrozenSlice.Accepted.recorded_after (h : c.Accepted chunkSize v) :
    c.recordedChunkId = some (c.target v) ∨ c.prepared ∈ (c.after v).index (c.target v) := by
  rcases h.record with h | ⟨hunc, -, hmem⟩ | ⟨hunw, -⟩
  · exact .inl h
  · exact .inr ((c.prefix_recordedIndex _ _ _).subset hmem)
  · refine .inr ?_
    simp [FrozenSlice.after, FrozenSlice.recordedIndex, if_pos hunw]

/-- 見える候補の record は、最後に取り付けられている ChunkID の index にある -/
theorem publishedView_record
    (hacc : AllAccepted chunkSize cs v) (hc : c ∈ cs) (hvis : c.visibleLen ≠ 0) :
    ∃ id, (publishedView cs v).attached = some id ∧
      (c.recordedChunkId = some id ∨ c.prepared ∈ (publishedView cs v).index id) := by
  induction cs generalizing v with
  | nil => cases hc
  | cons c' cs ih =>
    rw [AllAccepted] at hacc
    rw [publishedView]
    split at hacc
    · next hinv =>
      rcases mem_cons.mp hc with rfl | hc
      · exact absurd hinv hvis
      · rw [if_pos hinv]
        exact ih hacc hc
    · next hvis' =>
      rw [if_neg hvis']
      rcases mem_cons.mp hc with rfl | hc
      · have hafter : (c.after v).attached = some (c.target v) := rfl
        obtain ⟨hatt, hpre⟩ := publishedView_attached cs hafter
        refine ⟨_, hatt, hacc.1.recorded_after.imp_right fun hmem => hpre.subset hmem⟩
      · exact ih hacc.2 hc

/-- 取り付けられた ChunkID の index の後ろに、まだ書いていない候補の record が順に並ぶ -/
theorem publishedView_index {id : ChunkID} (h : (publishedView cs v).attached = some id) :
    (publishedView cs v).index id = v.index id ++
      (cs.filter fun c => c.visibleLen ≠ 0 ∧ c.Unwritten id).map (·.prepared) := by
  induction cs generalizing v with
  | nil => simp [publishedView]
  | cons c cs ih =>
    rw [publishedView] at h ⊢
    split at h
    · next hinv =>
      rw [if_pos hinv, ih h]
      simp [hinv]
    · next hvis =>
      have hafter : (c.after v).attached = some (c.target v) := rfl
      obtain rfl : c.target v = id :=
        Option.some.inj ((publishedView_attached cs hafter).1.symm.trans h)
      rw [if_neg hvis, ih h]
      by_cases hunw : c.Unwritten (c.target v)
      · simp [FrozenSlice.after, FrozenSlice.recordedIndex, hunw, hvis]
      · simp [FrozenSlice.after, FrozenSlice.recordedIndex, hunw]

theorem AllPublished.index_eq {b' : Backend} {id : ChunkID}
    (h : AllPublished cx ino i cs b b') (hatt : attachedAt b'.redis ino i = some id) :
    b'.sliceIndex id = b.sliceIndex id ++
      (cs.filter fun c => c.visibleLen ≠ 0 ∧ c.Unwritten id).map (·.prepared) := by
  have hfinal : (publishedView cs (publishView ino i b)).attached = some id := by
    rw [← h.view]
    exact hatt
  have hindex := publishedView_index hfinal
  rw [← h.view] at hindex
  exact hindex

/-! ## Flush -/

/-- Flush が公開する候補：併合し、SliceID を割り当てたもの -/
def flushedCandidates (cx : MetaContext) (ino : InodeID) (sc : SliceChunk) (b : Backend) :
    List FrozenSlice :=
  assignIDs (coalesced (committedByte cx ino sc b) sc.frozen) b.nextSliceID

/-- 候補が全て公開できる条件。併合に要る範囲が読め、併合した候補が準備でき、順に公開できる -/
structure CandidatesReady (cx : MetaContext) (ino : InodeID) (i : Nat) (sc : SliceChunk)
    (b : Backend) : Prop where
  readable : WindowsReadable cx ino sc b
  preparable : Preparable (coalesced (committedByte cx ino sc b) sc.frozen) b.nextSliceID
  publishable : AllPublishable cx ino i (flushedCandidates cx ino sc b) b

def SliceChunk.flushing₀ (sc : SliceChunk) : SliceChunk := { sc with flushing := true }.freezeActive

/-- 邪魔されない Flush が成功する条件 -/
structure FlushReady (cx : MetaContext) (ino : InodeID) (sc : SliceChunk) (b : Backend) :
    Prop where
  chunkSize : cx.chunkSize ≤ kMaxU32
  candidates : CandidatesReady cx ino sc.index sc.flushing₀ b

/-- `r` は、候補の見える byte を、上げた object の先頭から指す -/
def FrozenSlice.RecordedAs (c : FrozenSlice) (r : SliceRecord) : Prop :=
  r.pos = c.pos ∧ c.preparedId = some r.id ∧ r.off = 0 ∧ c.visibleLen ≤ r.len

/-- 候補が上げたと覚えている object と、書いたと覚えている record が、今も在る -/
structure FrozenSlice.Remembers (c : FrozenSlice) (b : Backend) : Prop where
  stored : c.visibleLen ≤ c.payload.length
  object : ∀ id, c.preparedId = some id →
    id ≤ b.nextSliceID ∧ b.objects (.slice id) = some c.payload
  record : ∀ id, c.recordedChunkId = some id → ∃ r ∈ b.sliceIndex id, c.RecordedAs r

/-- 候補 `c` は公開された：object は `c` の byte で、取り付けられた index の record がそれを指す -/
structure CandidateFlushed (ino : InodeID) (i : Nat) (c : FrozenSlice) (b' : Backend) : Prop where
  object : ∃ id, c.preparedId = some id ∧ b'.objects (.slice id) = some c.payload
  record : ∃ id, attachedAt b'.redis ino i = some id ∧ ∃ r ∈ b'.sliceIndex id, c.RecordedAs r

/--
候補の列 `pending` を公開した。公開された列 `frozen` は、公開済みの内容 `view` に重ねれば `pending` を
重ねたものに等しく、まだ書かれていなかった record は index の後ろに順に並ぶ。
-/
structure Published (cx : MetaContext) (ino : InodeID) (i : Nat) (view : Nat → UInt8)
    (pending frozen : List FrozenSlice) (b b' : Backend) : Prop where
  bytes : ∀ p, overlayAt frozen p (view p) = overlayAt pending p (view p)
  flushed : ∀ c ∈ frozen, c.visibleLen ≠ 0 → CandidateFlushed ino i c b'
  index : ∀ id, attachedAt b'.redis ino i = some id → b'.sliceIndex id = b.sliceIndex id ++
    (frozen.filter fun c => c.visibleLen ≠ 0 ∧ c.Unwritten id).map (·.prepared)
  eof : ∀ c ∈ pending, c.visibleLen ≠ 0 →
    ∃ n, eofOf b'.redis ino = some n ∧ c.endOff cx.chunkSize i ≤ n

/-- 邪魔されない Flush の結果 -/
structure Flushed (cx : MetaContext) (ino : InodeID) (sc : SliceChunk) (b : Backend)
    (sc' : SliceChunk) (b' : Backend) : Prop where
  nothingPending : ∀ c ∈ sc'.frozen, c.visibleLen = 0
  idle : sc'.flushing = false
  published : (∀ c ∈ sc.frozen, c.Remembers b) → ∃ frozen,
    Published cx ino sc.index (committedByte cx ino sc b) sc.flushing₀.frozen frozen b b'

theorem assignIDs_shape (cs : List FrozenSlice) (n : Nat) :
    List.Forall₂ (fun c c' => c' ∈ assignIDs cs n ∧
      (c.NeedsObject ∧ (∃ id, c' = { c with preparedId := some id }) ∨ ¬ c.NeedsObject ∧ c' = c))
      cs (assignIDs cs n) := by
  induction cs generalizing n with
  | nil => exact .nil
  | cons c cs ih =>
    rw [assignIDs]
    split
    · next hneeds =>
      exact .cons ⟨.head _, .inl ⟨hneeds, _, rfl⟩⟩
        ((ih (n + 1)).imp fun _ _ h => ⟨.tail _ h.1, h.2⟩)
    · next hneeds =>
      exact .cons ⟨.head _, .inr ⟨hneeds, rfl⟩⟩ ((ih n).imp fun _ _ h => ⟨.tail _ h.1, h.2⟩)

theorem assignIDs_length (cs : List FrozenSlice) (n : Nat) :
    (assignIDs cs n).length = cs.length := (assignIDs_shape cs n).length_eq.symm

theorem overlayAt_assignIDs (cs : List FrozenSlice) (n p : Nat) (v : UInt8) :
    overlayAt (assignIDs cs n) p v = overlayAt cs p v := by
  induction cs generalizing n v with
  | nil => rfl
  | cons c cs ih =>
    rw [assignIDs]
    split
    · exact ih (n + 1) _
    · exact ih n _

def FlushOutcome (cx : MetaContext) (ino : InodeID) (sc : SliceChunk) (b : Backend) :
    Result Unit → SliceChunk × Backend → Prop
  | .ok (), s => FlushReady cx ino sc b ∧ Flushed cx ino sc b s.1 s.2
  | .error _, _ => ¬ FlushReady cx ino sc b

section

variable {frozen : List FrozenSlice} {b₁ b₂ : Backend}

/-- 公開された候補は、上げたばかりの object か、覚えている object を持つ -/
theorem candidatesFlushed (hobj : ObjectsPrepared frozen b b₁)
    (hacc : AllPublishable cx ino i (assignIDs frozen b.nextSliceID) b₁)
    (hpub : AllPublished cx ino i (assignIDs frozen b.nextSliceID) b₁ b₂)
    (hrem : ∀ c ∈ frozen, c.preparedId = none ∧ c.recordedChunkId = none ∨ c.Remembers b) :
    ∀ c ∈ assignIDs frozen b.nextSliceID, c.visibleLen ≠ 0 → CandidateFlushed ino i c b₂ := by
  intro c' hc' hvis
  obtain ⟨c, hc, hput, -, hshape⟩ := exists_of_forall₂
    (List.Forall₂.mp (fun _ _ h h' => And.intro h h') hobj.put (assignIDs_shape frozen _)) hc'
  obtain ⟨id, hatt, hrec⟩ := publishedView_record hacc.accepted hc' hvis
  rw [← hpub.view] at hatt hrec
  -- 覚えている record は、公開の前から index にある
  have hold : ∀ r ∈ b.sliceIndex id, r ∈ b₂.sliceIndex id := by
    intro r hr
    rw [hpub.index_eq hatt, hobj.sliceIndex]
    exact mem_append_left _ hr
  rcases hshape with ⟨hneeds, sid, rfl⟩ | ⟨hneeds, rfl⟩
  · refine ⟨⟨sid, rfl, hpub.objects ▸ hput hneeds⟩, id, hatt, ?_⟩
    rcases hrec with hrec | hrec
    · rcases hrem c hc with ⟨-, hnone⟩ | hrem
      · exact absurd (hrec.symm.trans hnone) (by simp)
      · obtain ⟨r, -, -, hprep, -⟩ := hrem.record id hrec
        exact absurd (hprep.symm.trans hneeds.2) (by simp)
    · exact ⟨_, hrec, rfl, rfl, rfl, le_rfl⟩
  · obtain ⟨sid, hsid⟩ : ∃ sid, c'.preparedId = some sid :=
      Option.ne_none_iff_exists'.mp fun h => hneeds ⟨hvis, h⟩
    have hrem : c'.Remembers b := (hrem c' hc).resolve_left fun h => by simp [hsid] at h
    obtain ⟨hle, hbytes⟩ := hrem.object sid hsid
    have hkept := hobj.kept (.slice sid) fun id hid => by
      cases hid
      exact hle
    refine ⟨⟨sid, hsid, hpub.objects ▸ hkept.trans hbytes⟩, id, hatt, ?_⟩
    rcases hrec with hrec | hrec
    · obtain ⟨r, hr, has⟩ := hrem.record id hrec
      exact ⟨r, hold r hr, has⟩
    · exact ⟨_, hrec, rfl, by simp [FrozenSlice.prepared, FrozenSlice.record, hsid], rfl, le_rfl⟩

theorem published_of_remembers
    (hobj : ObjectsPrepared (coalesced (committedByte cx ino sc b) sc.frozen) b b₁)
    (hacc : AllPublishable cx ino i (flushedCandidates cx ino sc b) b₁)
    (hpub : AllPublished cx ino i (flushedCandidates cx ino sc b) b₁ b₂)
    (hrem : ∀ c ∈ sc.frozen, c.Remembers b) :
    Published cx ino i (committedByte cx ino sc b) sc.frozen (flushedCandidates cx ino sc b)
      b b₂ where
  bytes p := by
    rw [flushedCandidates, overlayAt_assignIDs]
    exact overlayAt_coalesced _ (fun c hc => (hrem c hc).stored) p
  flushed := candidatesFlushed hobj hacc hpub fun c hc => (mem_coalesced hc).symm.imp_right (hrem c)
  index id hatt := hobj.sliceIndex ▸ hpub.index_eq hatt
  eof c hc hvis := by
    obtain ⟨d, hd, hle, hdvis⟩ := exists_coalesced (committedByte cx ino sc b)
      (fun c hc => (hrem c hc).stored) hc
    obtain ⟨d', hd', hmem, hshape⟩ := exists_of_forall₂ (assignIDs_shape _ b.nextSliceID).flip hd
    have hsame : d'.visibleLen = d.visibleLen ∧ d'.acceptedEnd = d.acceptedEnd := by
      rcases hshape with ⟨-, id, rfl⟩ | ⟨-, rfl⟩ <;> exact ⟨rfl, rfl⟩
    obtain ⟨n, hn, hend⟩ := hpub.eof d' hmem (hsame.1.symm ▸ hdvis hvis)
    refine ⟨n, hn, ?_⟩
    have hd : d'.endOff cx.chunkSize i = i * cx.chunkSize + d'.acceptedEnd := Nat.add_assoc ..
    have hc : c.endOff cx.chunkSize i = i * cx.chunkSize + c.acceptedEnd := Nat.add_assoc ..
    omega

end

theorem ObjectsPrepared.allPublishable_iff (h : ObjectsPrepared frozen b b') :
    AllPublishable cx ino i cs b' ↔ AllPublishable cx ino i cs b := by
  have hview : publishView ino i b' = publishView ino i b := by
    simp [publishView, h.redis, h.sliceIndex, h.nextChunkID]
  constructor
  · rintro ⟨h1, h2, h3⟩
    exact ⟨h.redis ▸ h1, h2, hview ▸ h3⟩
  · rintro ⟨h1, h2, h3⟩
    exact ⟨h.redis.symm ▸ h1, h2, hview.symm ▸ h3⟩

theorem flushCandidates_alone (hu32 : cx.chunkSize ≤ kMaxU32)
    (hok : ∀ sc' b', CandidatesReady cx ino i sc b →
      ((∀ c ∈ sc.frozen, c.Remembers b) → Published cx ino i (committedByte cx ino sc b) sc.frozen
        (flushedCandidates cx ino sc b) b b') →
      (∀ c ∈ sc'.frozen, c.visibleLen = 0) → Q (.ok ()) (sc', b'))
    (herr : ∀ e s, ¬ CandidatesReady cx ino i sc b → Q (.error e) s) :
    Alone Answer.NoFault (flushCandidates cx ino .exclusive i sc.frozen.length) Q (sc, b) := by
  refine .bind (prepareWindowCandidates_alone hu32 (fun hread => ?_) ?_)
  · have hnil : ([] : List FrozenSlice).length = 0 := rfl
    simp only [next_ok, range_eq_range', ← hnil]
    refine .bind (prepareObjects_alone rfl ?_ ?_)
    · intro b₁ hprep hobj
      rw [← assignIDs_length (coalesced (committedByte cx ino sc b) sc.frozen) b.nextSliceID]
      refine (publishAll_alone rfl (by rintro p ⟨⟩)).mono ?_
      rintro (e | ⟨⟩) s h
      · exact herr e s fun h' => h (hobj.allPublishable_iff.mpr h'.publishable)
      · exact hok s.1 s.2 ⟨hread, hprep, hobj.allPublishable_iff.mp h.1⟩
          (published_of_remembers hobj h.1 h.2.1) h.2.2
    · exact fun e s hprep => herr e s fun h' => hprep h'.preparable
  · exact fun e hread => herr e _ fun h' => hread h'.readable

/-- 失敗が起きず他の誰も動かない Flush は、`FlushReady` のときに限り成功し、候補を公開する -/
theorem flush_alone (hidle : sc.flushing = false) :
    Alone Answer.NoFault (SliceChunk.flush cx ino sc.index) (FlushOutcome cx ino sc b) (sc, b) := by
  refine .bind (.failIf ⟨fun hbig h => ?_, fun hsize => ?_⟩)
  · exact absurd h.chunkSize (Nat.not_le.mpr hbig)
  have hu32 : cx.chunkSize ≤ kMaxU32 := Nat.le_of_not_lt hsize
  refine .bind (.modifySession ?_)
  simp only [hidle, Bool.false_eq_true, if_false, next_ok]
  refine .bind (.attempt (flushCandidates_alone hu32 ?_ ?_))
  · intro sc' b' hready hpublished hnone
    refine .bind (.modifySession
      (.ofResult ?_))
    refine ⟨⟨hu32, hready⟩, hnone, rfl, fun hrem => ⟨_, hpublished fun c hc => ?_⟩⟩
    -- 凍結したばかりの候補は、まだ何も覚えていない
    rcases mem_append.mp hc with hc | hc
    · exact hrem c hc
    · obtain ⟨r, -, rfl⟩ := mem_map.mp hc
      exact ⟨le_rfl, nofun, nofun⟩
  · intro e s hno
    refine .bind (.modifySession
      (.ofResult ?_))
    exact fun h => hno h.candidates

end

end SwordFS.Chunk.Slice
