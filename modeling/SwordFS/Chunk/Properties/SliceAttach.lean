import SwordFS.Chunk.Properties.AttachOnce
import SwordFS.Chunk.Slice.Flush

/-!
# Slice の session の取り付け

公開を待つ候補は、取り付けの返事を受け取れなかった ChunkID を覚えていて、次の Flush でも使う。
したがって Slice の Flush は、以前に取り付けたことのある ChunkID をもう一度取り付けうる。
-/

namespace SwordFS.Chunk.Slice

open Infra Metadata

/-- Slice の session は、公開を待つ候補ごとに、その候補のために作った ChunkID を覚えている -/
def holding : Holding SliceChunk :=
  ⟨SliceChunk.index, SliceChunk.flushing, fun sc id => ∃ c ∈ sc.frozen, c.createdChunkId = some id⟩

theorem holding_of_frozen (h : sc'.frozen = sc.frozen) (id : ChunkID) :
    holding.held sc' id ↔ holding.held sc id := by
  dsimp only [holding]
  rw [h]

theorem holding_modify (hf : ∀ c, (f c).createdChunkId = c.createdChunkId) (id : ChunkID) :
    holding.held { sc with frozen := sc.frozen.modify k f } id ↔ holding.held sc id := by
  simp only [holding, List.mem_iff_getElem?, List.getElem?_modify]
  constructor
  · rintro ⟨c, ⟨j, hj⟩, hc⟩
    obtain ⟨c₀, hc₀, rfl⟩ := Option.map_eq_some_iff.mp hj
    refine ⟨c₀, ⟨j, hc₀⟩, ?_⟩
    split at hc
    · rwa [hf] at hc
    · exact hc
  · rintro ⟨c, ⟨j, hj⟩, hc⟩
    refine ⟨_, ⟨j, Option.map_eq_some_iff.mpr ⟨c, hj, rfl⟩⟩, ?_⟩
    split
    · rwa [hf]
    · exact hc

theorem holding_created {id x : ChunkID} (h : holding.held { sc with
      frozen := sc.frozen.modify k fun c => { c with createdChunkId := some id } } x) :
    holding.held sc x ∨ x = id := by
  simp only [holding, List.mem_iff_getElem?, List.getElem?_modify] at h ⊢
  obtain ⟨c, ⟨j, hj⟩, hc⟩ := h
  obtain ⟨c₀, hc₀, rfl⟩ := Option.map_eq_some_iff.mp hj
  split at hc
  · cases hc
    exact .inr rfl
  · exact .inl ⟨c₀, ⟨j, hc₀⟩, hc⟩

theorem retains_modifyCandidate (hf : ∀ c, (f c).createdChunkId = c.createdChunkId) :
    Always (SessionRetains holding) (modifyCandidate k f) :=
  retains_modifySession (fun _ => rfl) fun _ _ => holding_modify hf _

section

variable {cx : MetaContext} {ino : InodeID}

theorem calm_readMappedRecords (id : ChunkID) (msg : String) :
    Always Calm (readMappedRecords cx id msg) := by
  refine (calm_query _).attempt.bind fun r => ?_
  split
  · exact .throw _
  · exact .failIf fun _ => .pure _

variable {offset k : Nat} {short : String} {span : ResolvedSlice} {record : SliceRecord}

theorem calm_fetchRange : Always Calm (fetchRange offset span start stop short result) := by
  unfold fetchRange
  split
  · exact .pure _
  · exact (calm_query _).bind fun _ => .failIf fun _ => .pure _

theorem calm_fetchUncovered (overlays : List (Nat × Bytes)) (cursor : Nat)
    (result : Bytes) : Always Calm (fetchUncovered offset span short overlays cursor result) := by
  induction overlays generalizing cursor result with
  | nil => exact calm_fetchRange
  | cons o os ih =>
    unfold fetchUncovered
    dsimp only
    split
    · exact calm_fetchRange
    · split
      · exact ih _ _
      · split
        · exact calm_fetchRange.bind fun _ => ih _ _
        · exact (Always.pure _).bind fun _ => ih _ _

theorem calm_fetchSpans (overlays : List (Nat × Bytes)) (spans : List ResolvedSlice)
    (result : Bytes) : Always Calm (fetchSpans offset short overlays spans result) := by
  induction spans generalizing overlays result with
  | nil => exact .pure _
  | cons span spans ih =>
    unfold fetchSpans
    split
    · exact ih _ _
    · exact (calm_fetchUncovered _ _ _).bind fun _ => ih _ _

theorem calm_readCommittedRange (sc : SliceChunk) (offset len : Nat) :
    Always Calm (sc.readCommittedRange cx ino offset len) := by
  refine .failIf fun _ => .failIf fun _ => ?_
  dsimp only
  split
  · exact .pure _
  · refine .ofResult fun _ => (calm_query _).bind fun snapshot => ?_
    split
    · exact .pure _
    · refine (calm_readMappedRecords _ _).bind fun _ => .ofResult fun _ => ?_
      split
      · exact .pure _
      · exact .ofResult fun _ => calm_fetchSpans _ _ _

theorem calm_buildGroups (sc : SliceChunk) (pending : List FrozenSlice) (gs : List GroupBuild) :
    AlwaysOk Calm (fun built => ∀ e ∈ built, e.2.createdChunkId = none)
      (buildGroups cx ino sc pending gs) := by
  induction gs with
  | nil => exact alwaysOk_pure fun _ h => nomatch h
  | cons g gs ih =>
    refine (calm_readCommittedRange sc _ _).ok.bind fun _ _ => ih.bind fun rest hrest => ?_
    exact alwaysOk_pure (List.forall_mem_cons.mpr ⟨rfl, hrest⟩)

theorem holding_rebuildFrozen (hbuilt : ∀ e ∈ built, e.2.createdChunkId = none) {id : ChunkID}
    (h : holding.held { sc with frozen := rebuildFrozen sources built sc.frozen } id) :
    holding.held sc id := by
  obtain ⟨c, hc, hid⟩ := h
  obtain ⟨p, hp, hc⟩ := List.mem_flatMap.mp hc
  rcases List.mem_append.mp hc with hc | hc
  · split at hc
    · cases hc
    · obtain rfl := List.mem_singleton.mp hc
      exact ⟨p.1, List.fst_mem_of_mem_zipIdx hp, hid⟩
  · obtain ⟨e, he, rfl⟩ := List.mem_map.mp hc
    rw [hbuilt e (List.mem_of_mem_filter he)] at hid
    cases hid

theorem calm_prepareWindowCandidates (count attempts : Nat) :
    Always (SessionCalm holding) (prepareWindowCandidates cx ino count attempts) := by
  induction attempts with
  | zero => exact .throw _
  | succ n ih =>
    refine retains_getSession.calm.bind fun sc => ?_
    split
    · exact .pure _
    · refine ((calm_buildGroups sc sc.frozen _).onBackend.mono ?_).bind_always fun built hb => ?_
      · exact fun _ _ ⟨hc, hb⟩ => ⟨hb, by rw [hc], fun _ => hc ▸ id⟩
      · refine (calm_modifySession (fun now => ?_) fun now id h => ?_).bind fun installed => ?_
        · dsimp only [Holding.mark, holding]
          split <;> rfl
        · split at h
          · exact holding_rebuildFrozen hb h
          · exact h
        · split
          · exact .pure _
          · exact ih

theorem retains_candidate (k : Nat) : Always (SessionRetains holding) (candidate k) :=
  retains_getSession.bind fun _ => .pure _

theorem retains_prepareObject (index k : Nat) :
    Always (SessionRetains holding) (prepareObject index k) := by
  refine (retains_candidate k).bind fun r => ?_
  split
  · exact .pure _
  · split
    · exact .pure _
    · refine .failIf fun _ =>
        (retains_onBackend (calm_allocateSliceID _)).bind fun _ => .failIf fun _ =>
          (retains_onBackend (calm_put _ _)).bind fun _ => retains_modifyCandidate fun c => ?_
      split <;> rfl

theorem calm_recordPresent (id : ChunkID) (record : SliceRecord) :
    Always Calm (recordPresent cx id record) := by
  refine (calm_query _).attempt.bind fun r => ?_
  split
  · split
    · exact .pure _
    · exact .throw _
  · exact .pure _

theorem retains_recordCandidate {id : ChunkID} :
    Always (SessionRetains holding) (recordCandidate cx k c record id attached) := by
  have hmark : Always (SessionRetains holding) (markRecorded k id) :=
    retains_modifyCandidate fun _ => rfl
  have hunsure : Always (SessionRetains holding)
      (modifyCandidate k fun c => { c with uncertainRecordChunkId := some id }) :=
    retains_modifyCandidate fun _ => rfl
  have hpresent : Always (SessionRetains holding)
      (attempt (onBackend (recordPresent cx id record)) : SessionIo SliceChunk _) :=
    (retains_onBackend (calm_recordPresent _ _)).attempt
  unfold recordCandidate
  split
  · exact .pure _
  · split
    · refine hpresent.bind fun r => ?_
      split
      · exact hmark
      · exact .throw _
    · refine (retains_onBackend ?_).attempt.bind fun r => ?_
      · split
        · exact calm_appendRecord _ _
        · exact calm_createIndex _ _
      · split
        · exact hmark
        · split
          · refine hunsure.bind fun _ => hpresent.bind fun r => ?_
            split
            · exact hmark
            · exact .throw _
          · exact .throw _

theorem calm_confirmAttachment (index endOff : Nat) (id : ChunkID) :
    Always Calm (confirmAttachment cx ino index endOff id) := by
  refine (calm_query _).attempt.bind fun r => ?_
  split
  · exact .pure _
  · exact .pure _

theorem calm_retire (committed : List Nat) :
    Always (SessionCalm holding) (modifySession fun sc => ((), SliceChunk.retire sc committed)) := by
  refine calm_modifySession (fun sc => ?_) fun sc id h => ?_
  · unfold SliceChunk.retire
    dsimp only
    split <;> rfl
  · unfold SliceChunk.retire at h
    dsimp only at h
    split at h
    · exact h
    · obtain ⟨c, hc, hid⟩ := h
      obtain ⟨p, hp, rfl⟩ := List.mem_map.mp hc
      exact ⟨p.1, List.fst_mem_of_mem_zipIdx (List.mem_of_mem_filter hp), hid⟩

variable {τ : Type} {i : Nat} {get : τ → SliceChunk × Backend} {set : SliceChunk × Backend → τ → τ}
  {R G : τ → τ → Prop} {At : τ → Prop} {Mine : ChunkID → τ → Prop} {t : τ}

variable (w : AttachWorld holding ino i get set R G At Mine)

open AttachWorld

include w

theorem wp_candidate (k : Nat) (ha : At t) :
    w.Runs (candidate k)
      (fun r t => At t ∧ ∀ c, r = .ok c → c = (get t).1.frozen[k]?) t := by
  refine wp_zoom_bind w.rely ((w.wp_getSession ha).mono fun r t ⟨ha, hr⟩ => ?_)
  cases r with
  | error e => exact fun t' h => ⟨w.at_rely t t' ha h, fun _ h => nomatch h⟩
  | ok sc =>
    obtain rfl := hr sc rfl
    refine fun t' h => ⟨w.at_rely t t' ha h, ?_⟩
    rintro _ ⟨⟩
    rw [w.session t t' ha h]

variable (hf : ∀ t, At t → (get t).1.flushing = true)
include hf

/-- 公開に使う ChunkID は、取り付け済みのものか、取り付けてよいもの -/
theorem wp_publicationID (ha : At t) (hc : (get t).1.frozen[k]? = some c) :
    w.Runs (publicationID i k c attached)
      (fun r t => At t ∧ ∀ id, r = .ok id →
        attached.isSome = false → Ready holding get Mine id t) t := by
  unfold publicationID
  split
  · exact fun t' hr => ⟨w.at_rely t t' ha hr, fun _ _ h => nomatch h⟩
  · next id hid =>
    refine fun t' hr => ⟨w.at_rely t t' ha hr, ?_⟩
    rintro _ ⟨⟩ -
    refine .inr ?_
    rw [w.session t t' ha hr]
    exact ⟨hf t ha, c, List.mem_of_getElem? hc, hid⟩
  · refine wp_zoom_bind w.rely ((w.wp_allocate ha).mono fun r t ⟨ha, hm⟩ => ?_)
    cases r with
    | error e => exact fun t' hr => ⟨w.at_rely t t' ha hr, fun _ h => nomatch h⟩
    | ok id =>
      refine wp_zoom_failIf (fun t' hr => ⟨w.at_rely t t' ha hr, fun _ h => nomatch h⟩) fun _ => ?_
      refine wp_zoom_bind w.rely ((w.wp_hold ha (hm id rfl) (fun _ => rfl)
        fun _ _ => holding_created).mono fun r t ⟨ha, hm⟩ => ?_)
      cases r with
      | error e => exact fun t' hr => ⟨w.at_rely t t' ha hr, fun _ h => nomatch h⟩
      | ok _ =>
        refine fun t' hr => ⟨w.at_rely t t' ha hr, ?_⟩
        rintro _ ⟨⟩ -
        exact .inl (w.mine_rely id t t' ha hr hm)

theorem wp_publishAttempts (attempts : Nat) (ha : At t) :
    w.Keeps (publishAttempts cx ino i k record endOff attempts) t := by
  induction attempts generalizing t with
  | zero => exact w.wp_calm (.throw _) ha
  | succ n ih =>
    refine w.wp_calm_bind (retains_onBackend (calm_query _)).calm ha fun snapshot t ha => ?_
    refine w.wp_bind ((wp_candidate w k ha).mono fun r t ⟨ha, hr⟩ => ⟨ha, fun oc h => ?_⟩)
    have hoc := hr oc h
    split
    · exact w.wp_calm (.pure _) ha
    · next c =>
      refine w.wp_bind ((wp_publicationID w hf ha hoc.symm).mono fun r t ⟨ha, hm⟩ => ⟨ha, ?_⟩)
      intro id hid
      refine w.wp_retains_bind retains_recordCandidate ha (hm id hid) fun _ t ha hm => ?_
      have htxn : w.Keeps (onBackend (transact cx fun cx =>
          if snapshot.chunkId.isSome then finalizeAttachedWrite cx ino i id endOff
            ⟨snapshot.inode.attr.size, snapshot.eofBoundary⟩
          else attachPrepared cx ino i id endOff
            ⟨snapshot.inode.attr.size, snapshot.eofBoundary⟩)) t := by
        cases hs : snapshot.chunkId.isSome with
        | true =>
          simp only [if_true]
          exact w.wp_calm (retains_onBackend
            (calm_transact fun _ => writes_finalizeAttachedWrite detaching_setInode)).calm ha
        | false =>
          simp only [Bool.false_eq_true, if_false]
          exact w.wp_attach oneStep_attachPrepared ha (hm hs)
      refine w.wp_bind (wp_zoom_attempt (htxn.mono fun r t ha => ⟨ha, ?_⟩))
      rintro _ ⟨⟩
      split
      · exact w.wp_calm (.pure _) ha
      · split
        · split
          · exact w.wp_calm (.throw _) ha
          · refine w.wp_calm ((retains_onBackend (calm_confirmAttachment _ _ _)).calm.bind
              fun confirmed => ?_) ha
            split
            · exact .pure _
            · exact .throw _
        · split
          · exact ih ha
          · exact w.wp_calm (.throw _) ha

theorem wp_publishFrozen (k : Nat) (ha : At t) : w.Keeps (publishFrozen cx ino i k) t := by
  refine w.wp_calm_bind (retains_candidate k).calm ha fun oc t ha => ?_
  split
  · exact w.wp_calm (.pure _) ha
  · split
    · exact w.wp_calm (.pure _) ha
    · split
      · exact w.wp_calm (.throw _) ha
      · exact w.wp_calm_bind (always_ofResult _) ha fun _ t ha =>
          w.wp_calm_bind (always_ofResult _) ha fun _ t ha =>
            w.wp_calm_bind (always_failIf _ _) ha fun _ t ha => wp_publishAttempts w hf 8 ha

theorem wp_publishAll (ks committed : List Nat) (ha : At t) :
    w.Keeps (publishAll cx ino .interleaved i ks committed) t := by
  induction ks generalizing committed t with
  | nil => exact w.wp_calm (calm_retire committed) ha
  | cons k ks ih =>
    refine w.wp_calm_bind (retains_candidate k).calm ha fun oc t ha => ?_
    split
    · exact ih committed ha
    · split
      · exact ih committed ha
      · refine w.wp_bind (wp_zoom_attempt ((wp_publishFrozen w hf k ha).mono fun r t ha => ⟨ha, ?_⟩))
        rintro _ ⟨⟩
        split
        · exact w.wp_calm ((calm_retire committed).bind fun _ => .throw _) ha
        · exact ih _ ha

theorem wp_flushCandidates (count : Nat) (ha : At t) :
    w.Keeps (flushCandidates cx ino .interleaved i count) t :=
  w.wp_calm_bind (calm_prepareWindowCandidates _ _) ha fun _ _ ha =>
    w.wp_calm_bind (always_forEach (fun k => retains_prepareObject i k) _).calm ha fun _ _ ha =>
      wp_publishAll w hf _ _ ha

omit w hf in
/-- Slice の Flush が取り付けるのは、その中で割り当てた ChunkID か、候補の作った ChunkID -/
theorem wp_flush (w : FlushWorld holding ino i get set R G At Mine) (ha : At t) :
    w.Keeps (withIndex fun i => SliceChunk.flush cx ino i .interleaved) t := by
  refine w.wp_bind ((w.wp_getSession ha).mono fun r t ⟨ha, hr⟩ => ⟨ha, fun sc h => ?_⟩)
  obtain rfl := hr sc h
  have hi : (get t).1.index = i := w.index t ha
  dsimp only
  rw [hi]
  refine w.wp_calm_bind (always_failIf _ _) ha fun _ t ha => ?_
  refine w.wp_bind ((w.wp_toggle ha (fun sc => ?_) fun sc id h => ?_).mono
    fun r t ⟨ha, sc, hr, hsc⟩ => ⟨ha, fun started hs => ?_⟩)
  · dsimp only [holding]
    split <;> rfl
  · split at h
    · exact h
    · obtain ⟨c, hc, hid⟩ := h
      rcases List.mem_append.mp hc with hc | hc
      · exact ⟨c, hc, hid⟩
      · obtain ⟨r, -, rfl⟩ := List.mem_map.mp hc
        cases hid
  · obtain rfl := Except.ok.inj (hs.symm.trans hr)
    split
    · exact w.wp_calm (.throw _) ha
    · next hcount =>
      have hflush : (get t).1.flushing = true := by
        rw [hsc]
        cases hbusy : sc.flushing with
        | true => simp only [hbusy, if_true, reduceCtorEq] at hcount
        | false => rfl
      refine w.wp_bind (wp_zoom_attempt ((wp_flushCandidates w.flushing (fun _ h => h.2) _
        ⟨ha, hflush⟩).mono fun r t h => ⟨h.1, ?_⟩))
      rintro _ ⟨⟩
      refine w.wp_bind ((w.wp_toggle h.1 (fun _ => rfl) fun _ id =>
        (holding_of_frozen rfl id).mp).mono fun _ t h => ⟨h.1, fun _ _ => ?_⟩)
      exact w.wp_calm (always_ofResult _) h.1

end

/-! ## Flush の他の操作 -/

section

variable {cx : MetaContext} {ino : InodeID}

/-- session の変更で、位置を変えず、新しく覚えないもの -/
def Forgets (sc sc' : SliceChunk) : Prop :=
  holding.mark sc' = holding.mark sc ∧ ∀ id, holding.held sc' id → holding.held sc id

theorem Forgets.of_frozen (hi : holding.mark sc' = holding.mark sc)
    (h : sc'.frozen = sc.frozen) : Forgets sc sc' := ⟨hi, fun id => (holding_of_frozen h id).mp⟩

theorem Forgets.trans (h : Forgets sc₁ sc₂) (h' : Forgets sc₂ sc₃) :
    Forgets sc₁ sc₃ := ⟨h'.1.trans h.1, fun id hid => h.2 id (h'.2 id hid)⟩

theorem forgets_freezeActive (sc : SliceChunk) : Forgets sc sc.freezeActive := by
  refine ⟨rfl, ?_⟩
  rintro id ⟨c, hc, hid⟩
  rcases List.mem_append.mp hc with hc | hc
  · exact ⟨c, hc, hid⟩
  · obtain ⟨r, -, rfl⟩ := List.mem_map.mp hc
    cases hid

theorem forgets_ite [Decidable c] (ha : Forgets sc a)
    (hb : Forgets sc b) : Forgets sc (if c then a else b) := by
  split
  · exact ha
  · exact hb

theorem forgets_acceptPart (sc : SliceChunk) (start : Nat) (part : Bytes) :
    Forgets sc (sc.acceptPart start part) := by
  unfold SliceChunk.acceptPart
  extract_lets covered sc₁
  have h₁ : Forgets sc sc₁ := forgets_ite (forgets_freezeActive sc) (.of_frozen rfl rfl)
  have h₂ : ∀ active bytes, Forgets sc { sc₁ with active := active, activeBytes := bytes } :=
    fun _ _ => h₁.trans (.of_frozen rfl rfl)
  exact forgets_ite ((h₂ _ _).trans (forgets_freezeActive _)) (h₂ _ _)

theorem forgets_acceptParts (fuel : Nat) (sc : SliceChunk) (start : Nat) (bytes : Bytes) :
    Forgets sc (SliceChunk.acceptParts fuel sc start bytes) := by
  induction fuel generalizing sc start bytes with
  | zero => exact .of_frozen rfl rfl
  | succ n ih =>
    unfold SliceChunk.acceptParts
    split
    · exact .of_frozen rfl rfl
    · exact (forgets_acceptPart _ _ _).trans (ih _ _ _)

theorem forgets_accept (sc : SliceChunk) (offset : Nat) (bytes : Bytes) :
    Forgets sc (sc.accept offset bytes) :=
  (Forgets.of_frozen rfl rfl).trans (forgets_acceptParts _ _ _ _)

theorem forgets_clip (sc : SliceChunk) (size : Nat) : Forgets sc (sc.clip size) := by
  refine ⟨rfl, ?_⟩
  rintro id ⟨c, hc, hid⟩
  obtain ⟨c₀, hc₀, rfl⟩ := List.mem_map.mp (List.mem_of_mem_filter hc)
  exact ⟨c₀, hc₀, hid⟩

theorem forgets_addBoundary (sc : SliceChunk) (p : Nat) (id : Option ChunkID) (count : Nat) :
    Forgets sc (sc.addBoundary cx p id count) := by
  unfold SliceChunk.addBoundary
  extract_lets boundaries sc₁ clamp
  split
  · exact .of_frozen rfl rfl
  · exact forgets_ite (.of_frozen rfl rfl) (forgets_ite (.of_frozen rfl rfl) (.of_frozen rfl rfl))

theorem calm_modify {α : Type} {f : SliceChunk → α × SliceChunk} (h : ∀ sc, Forgets sc (f sc).2) :
    Always (SessionCalm holding) (modifySession f) :=
  calm_modifySession (fun sc => (h sc).1) fun sc => (h sc).2

theorem calm_write (offset : Nat) (bytes : Bytes) :
    Always (SessionCalm holding) (write cx offset bytes) := by
  refine .failIf fun _ => ?_
  split
  · exact .pure _
  · exact calm_modify fun sc => forgets_accept sc offset bytes

theorem calm_captureBoundary (index p : Nat) :
    Always (SessionCalm holding) (captureBoundary cx ino index p) := by
  refine Always.bind (retains_onBackend ?_).calm.attempt fun source => calm_modify fun sc => ?_
  · refine (calm_query _).bind fun snapshot => ?_
    split
    · exact .pure _
    · exact (calm_readMappedRecords _ _).bind fun _ => .pure _
  · split
    · exact .of_frozen rfl rfl
    · exact forgets_addBoundary _ _ _ _

theorem calm_truncateLocal (index size : Nat) :
    Always (SessionCalm holding) (truncateLocal cx ino index size) :=
  (calm_captureBoundary index size).bind fun _ => calm_modify fun sc => forgets_clip sc size

theorem calm_withIndex {α : Type} {f : Nat → SessionIo SliceChunk α}
    (h : ∀ i, Always (SessionCalm holding) (f i)) : Always (SessionCalm holding) (withIndex f) :=
  retains_getSession.calm.bind fun sc => h sc.index

theorem calm_read (sc : SliceChunk) (offset len : Nat) :
    Always Calm (sc.read cx ino offset len) := by
  refine .failIf fun _ => ?_
  split
  · exact .pure _
  · refine .ofResult fun _ => (calm_query _).bind fun snapshot => ?_
    split
    · exact (Always.pure _).bind fun _ => .pure _
    · exact .failIf fun _ => (calm_readMappedRecords _ _).bind fun _ =>
        .ofResult fun _ => .ofResult fun _ =>
          (calm_fetchSpans _ _ _).bind fun _ => .pure _

theorem calm_sanitizeBoundary (boundary : RetainedChunkBoundary) :
    Always Calm (sanitizeBoundary cx ino boundary) := by
  refine .failIf fun _ => (calm_query _).bind fun attached => ?_
  split
  · exact .pure _
  · refine (calm_appendRecord _ _).attempt.bind fun r => ?_
    split
    · exact .pure _
    · split
      · exact (calm_query _).bind fun _ => always_failIf _ _
      · exact .throw _

theorem fresh_openSession (idx : Nat) (create : Bool) : AlwaysOk Calm
    (fun r => ∀ sc, r = some sc → holding.index sc = idx ∧ ∀ id, ¬holding.held sc id)
    (openSession cx ino idx create) := by
  refine (always_failIf _ _).ok.bind fun _ _ => (calm_query _).ok.bind fun file _ => ?_
  split
  · exact alwaysOk_pure fun _ h => nomatch h
  · refine alwaysOk_pure ?_
    rintro _ ⟨⟩
    exact ⟨rfl, fun _ ⟨_, hc, _⟩ => nomatch hc⟩

theorem attachOnce : AttachOnce holding ino (mechanism cx ino .interleaved) where
  openSession := fresh_openSession
  read := calm_read
  write := calm_write
  truncateLocal := fun size => calm_withIndex fun i => calm_truncateLocal i size
  clampPublishedPrefix := fun p => calm_withIndex fun i => calm_captureBoundary i p
  sanitizeBoundary := calm_sanitizeBoundary
  flush := fun w _ ha => wp_flush w ha

end

end SwordFS.Chunk.Slice
