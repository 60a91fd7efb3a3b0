import SwordFS.Chunk.Cow.COWChunk
import SwordFS.Chunk.Properties.AttachOnce

/-!
# COW の session の取り付け

COW の session は取り付ける ChunkID を覚えない。
Flush は候補を作り直すたびに新しい ChunkID を割り当て、それを一度だけ取り付けようとする。
-/

namespace SwordFS.Chunk.Cow

open Infra Metadata

/-- COW の session は、取り付ける ChunkID を何も覚えない -/
def holding : Holding COWChunk := ⟨COWChunk.index, fun _ => false, fun _ _ => False⟩

theorem retains_modify {α : Type} {f : COWChunk → α × COWChunk}
    (h : ∀ c, (f c).2.index = c.index) : Always (SessionRetains holding) (modifySession f) :=
  retains_modifySession (fun c => Prod.ext (h c) rfl) fun _ _ => Iff.rfl

section

variable {cx : MetaContext} {ino : InodeID} {g : Generation} {endOff : Nat} {id : ChunkID}
  {replacement : COWChunkHead}

theorem calm_mappedHead (id : ChunkID) (msg : String) : Always Calm (mappedHead id msg) := by
  refine (calm_query _).attempt.bind fun r => ?_
  split
  · exact .throw _
  · exact .pure _

theorem calm_publishHead (expected : Option COWChunkHead) :
    Always Calm (publishHead id expected replacement) := by
  refine (calm_compareExchangeHead _ _ _).attempt.bind fun r => ?_
  split
  · exact .pure _
  · split
    · refine (calm_query _).attempt.bind fun r => ?_
      split
      · exact always_failIf _ _
      · exact .throw _
    · exact .throw _

theorem retains_markHeadPublished :
    Always (SessionRetains holding) (markHeadPublished g replacement) := by
  refine retains_modify fun c => ?_
  dsimp only
  split <;> rfl

variable {file : FileChunkSnapshot} {last : Status}

/-- 確定の一回は、一つの transaction と、何も取り付けない後処理からなる -/
theorem finalizeAttempts_succ (n : Nat) (hretry : g.sessionId.isSome = true → ∀ o e,
      Always (SessionRetains holding) (finalizeAttempts cx ino g endOff id replacement n o e)) :
    ∃ k, finalizeAttempts cx ino g endOff id replacement (n + 1) file last =
        (attempt (onBackend (transact cx fun cx =>
          if g.sessionId.isSome then finalizeAttachedWrite cx ino g.index id endOff
            ⟨file.inode.attr.size, file.eofBoundary⟩
          else attachPrepared cx ino g.index id endOff
            ⟨file.inode.attr.size, file.eofBoundary⟩)) >>= k) ∧
      ∀ r, Always (SessionRetains holding) (k r) := by
  refine ⟨_, rfl, fun r => ?_⟩
  have hmark : ∀ {α : Type} (e : Status), Always (SessionRetains holding)
      (do markHeadPublished g replacement; (throw e : SessionIo COWChunk α)) :=
    fun e => retains_markHeadPublished.bind fun _ => .throw e
  have hhead : Always (SessionRetains holding) (onBackend (getHead id) : SessionIo COWChunk _) :=
    retains_onBackend (calm_query _)
  split
  · exact .pure _
  · split
    · exact hmark _
    · refine (retains_onBackend (calm_query _)).attempt.bind fun r => ?_
      split
      · exact hmark _
      · split
        · split
          · split
            · refine hhead.bind fun current => ?_
              split
              · exact .pure _
              · exact .throw _
            · exact .throw _
          · split
            · exact .pure _
            · exact .throw _
        · next hsome =>
          split
          · exact hmark _
          · refine .failIf fun _ => hhead.bind fun _ =>
              .failIf fun _ => ?_
            split
            · exact hmark _
            · exact hretry (Option.isSome_iff_ne_none.mpr (by simpa using hsome)) _ _

theorem retains_finalizeAttempts (hg : g.sessionId.isSome = true) (attempts : Nat)
    (file : FileChunkSnapshot) (last : Status) : Always (SessionRetains holding)
      (finalizeAttempts cx ino g endOff id replacement attempts file last) := by
  induction attempts generalizing file last with
  | zero => exact .pure _
  | succ n ih =>
    obtain ⟨k, hk, hafter⟩ := finalizeAttempts_succ n fun _ => ih
    rw [hk]
    refine (retains_onBackend (calm_transact fun cx => ?_)).attempt.bind hafter
    simp only [hg, if_true]
    exact writes_finalizeAttachedWrite detaching_setInode

theorem retains_retireRevision : Always (SessionRetains holding) (retireRevision cx g id replacement) := by
  unfold retireRevision
  split
  · split
    · refine (retains_onBackend (calm_transact fun _ => ?_)).attempt.bind fun _ => .pure _
      exact Txn.writes_write (detaching_hsetPendingDelete _)
    · exact .pure _
  · exact .pure _

variable {τ : Type} {get : τ → COWChunk × Backend} {set : COWChunk × Backend → τ → τ}
  {R G : τ → τ → Prop} {At : τ → Prop} {Mine : ChunkID → τ → Prop} {t : τ}

variable (w : AttachWorld holding ino g.index get set R G At Mine)

open AttachWorld

include w

theorem wp_finalizeAttempts (attempts : Nat) (file : FileChunkSnapshot) (last : Status) (ha : At t)
    (hm : g.sessionId.isSome = false → Ready holding get Mine id t) :
    w.Keeps (finalizeAttempts cx ino g endOff id replacement attempts file last) t := by
  cases hs : g.sessionId.isSome with
  | true => exact w.wp_calm (retains_finalizeAttempts hs attempts file last).calm ha
  | false =>
    cases attempts with
    | zero => exact w.wp_calm (.pure _) ha
    | succ n =>
      obtain ⟨k, hk, hafter⟩ := finalizeAttempts_succ n fun h => nomatch hs ▸ h
      rw [hk]
      simp only [hs, Bool.false_eq_true, if_false]
      refine w.wp_bind (wp_zoom_attempt ((w.wp_attach oneStep_attachPrepared ha (hm hs)).mono
        fun r t ha => ⟨ha, ?_⟩))
      rintro _ ⟨⟩
      exact w.wp_calm (hafter r).calm ha

theorem wp_candidateAttempts (attempts : Nat) (file : FileChunkSnapshot) (ha : At t) :
    w.Keeps (candidateAttempts cx ino g endOff attempts file) t := by
  induction attempts generalizing file t with
  | zero => exact w.wp_calm (.throw _) ha
  | succ n ih =>
    refine w.wp_bind ?_
    have hid : w.Runs (onBackend (candidateID g))
        (fun r t => At t ∧ ∀ id, r = .ok id →
          g.sessionId.isSome = false → Ready holding get Mine id t) t := by
      unfold candidateID
      cases hs : g.sessionId with
      | some id =>
        exact fun t' hr => ⟨w.at_rely t t' ha hr, fun _ _ h => nomatch h⟩
      | none =>
        exact (w.wp_allocate ha).mono fun r t ⟨ha, hm⟩ => ⟨ha, fun id h _ => .inl (hm id h)⟩
    refine hid.mono fun r t ⟨ha, hm⟩ => ⟨ha, fun id hr => ?_⟩
    refine w.wp_retains_bind (always_ofResult _) ha (hm id hr) fun _ t ha hm => ?_
    refine w.wp_retains_bind (retains_onBackend (calm_allocateRevision _)) ha hm fun rev t ha hm => ?_
    refine w.wp_retains_bind (retains_onBackend (calm_put _ _)) ha hm fun _ t ha hm => ?_
    refine w.wp_retains_bind (retains_onBackend (calm_publishHead _)) ha hm fun _ t ha hm => ?_
    refine w.wp_bind ((wp_finalizeAttempts w _ _ _ ha hm).mono fun r t ha => ⟨ha, fun out _ => ?_⟩)
    cases out with
    | finalized => exact w.wp_calm (.pure _) ha
    | retryFresh observed => exact ih observed ha
    | exhausted e =>
      exact w.wp_calm (retains_markHeadPublished.bind fun _ => .throw e).calm ha

theorem wp_publish (ha : At t) : w.Keeps (publish cx ino g) t := by
  refine w.wp_calm_bind (retains_onBackend (calm_query _)).calm ha fun file t ha => ?_
  have hrest : ∀ t, At t → w.Keeps (do
      let start ← ofResult (calculateChunkStartOffset g.index cx.chunkSize)
      failIf (kMaxSupportedFileSize - start < g.bytes.length)
        (.invalidArgument "COWChunk::Flush: file range exceeds supported size")
      candidateAttempts cx ino g (start + g.bytes.length) 8 file : SessionIo COWChunk _) t := fun t ha =>
    w.wp_calm_bind (always_ofResult _) ha fun start t ha =>
      w.wp_calm_bind (always_failIf _ _) ha fun _ t ha => wp_candidateAttempts w 8 file ha
  refine w.wp_calm_bind (always_failIf _ _) ha fun _ t ha => ?_
  cases hs : g.sessionId with
  | none => exact hrest t ha
  | some id =>
    exact w.wp_calm_bind (retains_onBackend (calm_mappedHead _ _)).calm ha fun _ t ha =>
      w.wp_calm_bind (always_failIf _ _) ha fun _ t ha => hrest t ha

end

/-- COW の Flush が取り付けるのは、その中で割り当てた ChunkID だけ -/
theorem wp_flush {cx : MetaContext} {ino : InodeID} {τ : Type} {i : Nat}
    {get : τ → COWChunk × Backend} {set : COWChunk × Backend → τ → τ} {R G : τ → τ → Prop}
    {At : τ → Prop} {Mine : ChunkID → τ → Prop} {t : τ}
    (w : AttachWorld holding ino i get set R G At Mine) (ha : At t) : w.Keeps (flush cx ino) t := by
  refine w.wp_bind (w.wp_modify ha fun t ha => ⟨w.calm t _ ha ?_, fun t' ha' _ => ⟨ha', ?_⟩⟩)
  · refine ⟨.refl _, ?_, fun _ h => h⟩
    dsimp only [holding]
    split
    · rfl
    · split <;> rfl
  · have hi : (get t).1.index = i := w.index t ha
    rintro started ⟨⟩
    split
    · exact w.wp_calm (.pure _) ha'
    · exact w.wp_calm (.throw _) ha'
    · next g hg =>
      have hgi : g.index = i := by
        split at hg
        · cases hg
        · split at hg
          · cases hg
          · cases hg
            exact hi
      subst hgi
      refine w.wp_bind (wp_zoom_attempt ((wp_publish w ha').mono fun r t ha => ⟨ha, ?_⟩))
      rintro _ ⟨⟩
      split
      · exact w.wp_calm ((retains_modify fun _ => rfl).bind fun _ => .throw _).calm ha
      · refine w.wp_calm ((retains_modify fun c => ?_).bind fun _ => retains_retireRevision).calm ha
        unfold COWChunk.published
        dsimp only
        split <;> rfl

/-! ## Flush の他の操作 -/

section

variable {cx : MetaContext} {ino : InodeID} {fuel : Nat}

theorem calm_hydrateForWrite {id : ChunkID} : Always Calm (hydrateForWrite cx c id head) := by
  refine .failIf fun _ => ?_
  dsimp only
  split
  · exact .pure _
  · exact (calm_query _).bind fun _ => .failIf fun _ => .pure _

theorem retains_hydrate (c : COWChunk) : Always (SessionRetains holding) (hydrate cx c) := by
  unfold hydrate
  split
  · exact .failIf fun _ => (retains_onBackend (calm_mappedHead _ _)).bind fun _ =>
      (retains_onBackend calm_hydrateForWrite).bind fun _ => retains_modify fun _ => rfl
  · exact .throw _

theorem retains_write (offset : Nat) (data : Bytes) :
    Always (SessionRetains holding) (write cx offset data) := by
  have haccept : Always (SessionRetains holding) (modifySession fun (c : COWChunk) => ((), { c with
      wb := some (writeBuf (c.wb.getD []) offset data), shared := false })) :=
    retains_modify fun _ => rfl
  refine .ofResult fun _ => retains_getSession.bind fun c => ?_
  split
  · exact (retains_hydrate c).bind fun _ => haccept
  · exact (Always.pure ()).bind fun _ => haccept

theorem calm_readAttempts {id : ChunkID} (attempts : Nat) :
    Always Calm (readAttempts cx c id offset len attempts) := by
  induction attempts with
  | zero => exact .throw _
  | succ n ih =>
    refine (calm_mappedHead _ _).bind fun head => .failIf fun _ => ?_
    extract_lets visible available
    split
    · exact .pure _
    · refine (calm_query _).attempt.bind fun r => ?_
      split
      · refine (calm_query _).bind fun refreshed => ?_
        split
        · exact .throw _
        · exact ih
      · exact .failIf fun _ => .pure _

theorem calm_read (c : COWChunk) (offset len : Nat) : Always Calm (c.read cx offset len) := by
  refine .ofResult fun _ => ?_
  split
  · exact .pure _
  · split
    · exact .pure _
    · split
      · exact calm_readAttempts 3
      · exact .throw _

theorem calm_sanitizeBoundary (fuel : Nat) (boundary : RetainedChunkBoundary) :
    Always Calm (sanitizeBoundary ino fuel boundary) := by
  refine .failIf fun _ => ?_
  induction fuel with
  | zero => exact .throw _
  | succ n ih =>
    refine (calm_query _).attempt.bind fun r => ?_
    split
    · split
      · exact (calm_query _).bind fun _ => always_failIf _ _
      · exact .throw _
    · split
      · exact .pure _
      · refine (calm_compareExchangeHead _ _ _).attempt.bind fun r => ?_
        split
        · exact .pure _
        · split
          · exact ih
          · exact .throw _

theorem fresh_openSession (idx : Nat) (create : Bool) : AlwaysOk Calm
    (fun r => ∀ c, r = some c → holding.index c = idx ∧ ∀ id, ¬holding.held c id)
    (openSession cx ino idx create) := by
  have hfresh : ∀ c : COWChunk, c.index = idx → AlwaysOk Calm
      (fun r => ∀ c, r = some c → holding.index c = idx ∧ ∀ id, ¬holding.held c id)
      (pure (some c)) := by
    refine fun c hc => alwaysOk_pure ?_
    rintro _ ⟨⟩
    exact ⟨hc, fun _ => id⟩
  refine (always_failIf _ _).ok.bind fun _ _ => (calm_query _).ok.bind fun file _ => ?_
  split
  · exact (calm_mappedHead _ _).ok.bind fun _ _ => (always_failIf _ _).ok.bind fun _ _ =>
      (always_ofResult _).ok.bind fun _ _ => hfresh _ rfl
  · split
    · exact alwaysOk_pure fun _ h => nomatch h
    · exact hfresh _ rfl

theorem retains_truncateLocal (size : Nat) : Always (SessionRetains holding)
    (modifySession fun (c : COWChunk) => ((), c.truncateLocal size)) := by
  refine retains_modify fun c => ?_
  unfold COWChunk.truncateLocal
  dsimp only
  split <;> rfl

theorem retains_clampPublishedPrefix (p : Nat) : Always (SessionRetains holding)
    (modifySession fun (c : COWChunk) => ((), c.clampPublishedPrefix p)) :=
  retains_modify fun _ => rfl

theorem attachOnce : AttachOnce holding ino (mechanism cx ino fuel) where
  openSession := fresh_openSession
  read := calm_read
  write := fun offset data => (retains_write offset data).calm
  truncateLocal := fun size => (retains_truncateLocal size).calm
  clampPublishedPrefix := fun p => (retains_clampPublishedPrefix p).calm
  sanitizeBoundary := calm_sanitizeBoundary fuel
  flush := fun w _ ha => wp_flush w.toAttachWorld ha

end

end SwordFS.Chunk.Cow
