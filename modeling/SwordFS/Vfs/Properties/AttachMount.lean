import SwordFS.Vfs.Properties.AttachHistory
import SwordFS.Vfs.Properties.ChunkCache

/-!
# mount の呼び出しと取り付け

Flush の他の `FileReadWriter` の呼び出しは、取り付けも割り当てもせず、
session が新しい ChunkID を覚えることも無い。
-/

namespace SwordFS.Vfs

open Infra Metadata Chunk

variable {χ α β : Type} {H : Holding χ}

/-- 取り付けも割り当てもせず、新しく覚えもしない mount の動作 -/
structure MountCalm (H : Holding χ) (s s' : Mount χ) : Prop where
  backend : Calm s.2 s'.2
  index : ∀ {j c'}, s'.1.chunks.lookup j = some c' →
    H.index c' = j ∨ ∃ c, s.1.chunks.lookup j = some c ∧ H.index c' = H.index c
  held : ∀ {j c' id}, s'.1.chunks.lookup j = some c' → H.held c' id →
    ∃ c, s.1.chunks.lookup j = some c ∧ H.held c id

variable {s : Mount χ}

theorem MountCalm.of_chunks (hb : Calm s.2 s'.2) (hc : s'.1.chunks = s.1.chunks) :
    MountCalm H s s' :=
  ⟨hb, fun h => .inr ⟨_, hc ▸ h, rfl⟩, fun h hid => ⟨_, hc ▸ h, hid⟩⟩

theorem MountCalm.refl (s : Mount χ) : MountCalm H s s := .of_chunks (.refl _) rfl

theorem MountCalm.of_drop
    (h : ∀ {j c}, rw'.chunks.lookup j = some c → rw.chunks.lookup j = some c) :
    MountCalm H (rw, b) (rw', b) :=
  ⟨.refl b, fun hc => .inr ⟨_, h hc, rfl⟩, fun hc hid => ⟨_, h hc, hid⟩⟩

theorem MountCalm.of_insert (hb : Calm s.2 b')
    (hi : H.index c' = idx ∨ ∃ c, s.1.chunks.lookup idx = some c ∧ H.index c' = H.index c)
    (hh : ∀ id, H.held c' id → ∃ c, s.1.chunks.lookup idx = some c ∧ H.held c id) :
    MountCalm H s ({ s.1 with chunks := AList.insert idx c' s.1.chunks }, b') := by
  refine ⟨hb, ?_, ?_⟩
  · intro j c hc
    by_cases hj : j = idx
    · subst hj
      rw [AList.lookup_insert] at hc
      cases hc
      exact hi
    · rw [AList.lookup_insert_ne hj] at hc
      exact .inr ⟨c, hc, rfl⟩
  · intro j c id hc hid
    by_cases hj : j = idx
    · subst hj
      rw [AList.lookup_insert] at hc
      cases hc
      exact hh id hid
    · rw [AList.lookup_insert_ne hj] at hc
      exact ⟨c, hc, hid⟩

/-- 他の mount は、この mount の手元の状態を変えない -/
def SameLocal (s s' : Mount χ) : Prop := s'.1 = s.1

theorem isRely_sameLocal : Prog.IsRely (SameLocal : Mount χ → Mount χ → Prop) :=
  ⟨fun _ => rfl, fun h h' => h'.trans h⟩

/-- 他の mount が動く間、毎動作が `MountCalm` を守る -/
def Calmly (H : Holding χ) (p : FileIo χ α) : Prop :=
  ∀ s, Prog.Wp AnyAnswer SameLocal (MountCalm H) p (fun _ _ => True) s

variable {p : FileIo χ α}

theorem calmly_of_always (h : Always (MountCalm H) p) : Calmly H p :=
  fun s => h.wp _ s

theorem Calmly.bind (hp : Calmly H p) (hk : ∀ a, Calmly H (k a)) : Calmly H (p >>= k) := by
  refine fun s => wp_io_bind isRely_sameLocal ((hp s).mono fun r s _ => ?_)
  cases r with
  | ok a => exact hk a s
  | error e => exact fun _ _ => trivial

theorem Calmly.attempt (hp : Calmly H p) : Calmly H (attempt p) :=
  fun s => Prog.wp_map ((hp s).mono fun _ _ _ => trivial)

protected theorem Calmly.pure (a : α) : Calmly H (pure a) :=
  calmly_of_always (.pure a)

protected theorem Calmly.throw (e : Status) : Calmly H (throw e : FileIo χ α) :=
  calmly_of_always (.throw e)

theorem calmly_ofResult (r : Result α) : Calmly H (ofResult r) :=
  calmly_of_always (always_ofResult r)

theorem calmly_failIf (c : Prop) [Decidable c] (e : Status) : Calmly H (failIf c e) :=
  calmly_of_always (always_failIf c e)

protected theorem Calmly.failIf [Decidable c]
    (h : ∀ u, Calmly H (k u)) : Calmly H (failIf c e >>= k) := (calmly_failIf c e).bind h

protected theorem Calmly.ofResult (h : ∀ a, Calmly H (k a)) :
    Calmly H (ofResult r >>= k) := (calmly_ofResult r).bind h

theorem calmly_onBackend {p : Io Backend α} (h : Always Calm p) : Calmly H (onBackend p) :=
  calmly_of_always (h.onBackend.mono fun _ _ ⟨hc, hb⟩ => .of_chunks hb (by rw [hc]))

theorem calmly_getSession : Calmly H (getSession : FileIo χ _) :=
  calmly_of_always (always_getSession MountCalm.refl)

theorem calmly_modify {f : FileReadWriter χ → α × FileReadWriter χ}
    (h : ∀ rw, (f rw).2.chunks = rw.chunks) : Calmly H (modifySession f) :=
  calmly_of_always (always_modifySession fun rw b => .of_chunks (.refl b) (h rw))

/-! ## chunk の cache -/

theorem wp_onChunk {p : SessionIo χ α} (h : Always (SessionCalm H) p)
    (hc : s.1.chunks.lookup idx = some c₀) :
    Prog.Wp AnyAnswer SameLocal (MountCalm H) (onChunk idx c p) (fun _ _ => True) s := by
  have hw : Prog.Wp AnyAnswer SameLocal (MountCalm H) (onChunk idx c p)
      (fun _ s => (s.1.chunks.lookup idx).isSome = true) s := by
    refine h.wp_zoom (P := fun s : Mount χ => (s.1.chunks.lookup idx).isSome = true)
      (by rw [hc]; rfl) ?_ ?_
    · exact fun s s' hs hr => hr.symm ▸ hs
    · intro s a hs ha
      obtain ⟨c₁, hc₁⟩ := Option.isSome_iff_exists.mp hs
      rw [hc₁] at ha
      refine ⟨.of_insert ha.backend (.inr ⟨c₁, hc₁, ha.index⟩) fun id hid =>
        ⟨c₁, hc₁, ha.held id hid⟩, ?_⟩
      rw [AList.lookup_insert]
      rfl
  exact hw.mono fun _ _ _ => trivial

theorem wp_getLocal (h : ∀ s, Prog.Wp AnyAnswer SameLocal (MountCalm H) (k s.1) Q s) :
    Prog.Wp AnyAnswer SameLocal (MountCalm H) (getSession >>= k : FileIo χ α) Q s :=
  fun s' _ _ _ => ⟨.refl s', h s'⟩

theorem wp_modifyLocal {f : FileReadWriter χ → α × FileReadWriter χ}
    (h : ∀ rw b, MountCalm H (rw, b) ((f rw).2, b))
    (hq : ∀ rw s, s.1 = (f rw).2 → Q (.ok (f rw).1) s) :
    Prog.Wp AnyAnswer SameLocal (MountCalm H) (modifySession f) Q s :=
  fun s' _ _ _ => ⟨h s'.1 s'.2, fun s'' hr => hq s'.1 s'' hr⟩

section

variable {ino : InodeID} {M : Mechanism χ} {cx : MetaContext}

section

variable (hM : AttachOnce H ino M)
include hM

theorem wp_getChunk (idx : Nat) (create : Bool) (s : Mount χ) :
    Prog.Wp AnyAnswer SameLocal (MountCalm H) (getChunk M idx create)
      (fun r s => ∀ c, r = .ok (some c) → (s.1.chunks.lookup idx).isSome = true) s := by
  refine wp_getLocal fun s => ?_
  split
  · next c hc =>
    intro s' hr _ _
    rw [show s'.1 = s.1 from hr, hc]
    rfl
  · have hopen : AlwaysOk (MountCalm H)
        (fun r => ∀ c, r = some c → H.index c = idx ∧ ∀ id, ¬H.held c id)
        (onBackend (M.openSession idx create)) :=
      (hM.openSession idx create).onBackend.mono fun _ _ ⟨hc, hb⟩ => .of_chunks hb (by rw [hc])
    refine wp_io_bind isRely_sameLocal ((Prog.Steps.wp hopen SameLocal s).mono fun r s hr => ?_)
    cases r with
    | error e => exact fun _ _ _ h => nomatch h
    | ok oc =>
      cases oc with
      | none => exact fun _ _ _ h => nomatch h
      | some c =>
        obtain ⟨hidx, hheld⟩ := hr _ rfl c rfl
        refine wp_modifyLocal (fun rw b => ?_) fun rw s hs _ _ => ?_
        · split
          · exact .refl _
          · exact .of_insert (.refl _) (.inl hidx) fun id h => absurd h (hheld id)
        · rw [hs]
          split
          · next c hc => rw [hc]; rfl
          · rw [AList.lookup_insert]; rfl

theorem calmly_getChunk (idx : Nat) (create : Bool) : Calmly H (getChunk M idx create) :=
  fun s => (wp_getChunk hM idx create s).mono fun _ _ _ => trivial

theorem calmly_clampCachedPublishedPrefix (idx p : Nat) :
    Calmly H (clampCachedPublishedPrefix M idx p) := by
  refine fun s => wp_getLocal fun s => ?_
  split
  · exact fun _ _ => trivial
  · next c hc => exact wp_onChunk (hM.clampPublishedPrefix p) hc

theorem calmly_truncateToSize (size chunkSize : Nat) :
    Calmly H (truncateToSize M size chunkSize) := by
  refine Calmly.bind (calmly_of_always (always_modifySession fun rw b => .of_drop ?_))
    fun _ s => wp_getLocal fun s => ?_
  · intro j c hc
    rw [lookup_dropBeyond] at hc
    split at hc
    · cases hc
    · exact hc
  · split
    · exact fun _ _ => trivial
    · next c hc => exact wp_onChunk (hM.truncateLocal _) hc

end

/-! ## 書き込みと読み -/

theorem calmly_checkSizeCommitSafety : Calmly H (checkSizeCommitSafety : FileIo χ Unit) :=
  calmly_getSession.bind fun _ => calmly_failIf _ _

theorem calmly_writeLoop (hM : AttachOnce H ino M) (fuel cursor : Nat) (bytes : Bytes) :
    Calmly H (writeLoop M cx fuel cursor bytes) := by
  induction fuel generalizing cursor bytes with
  | zero => exact .pure _
  | succ n ih =>
    unfold writeLoop
    split
    · exact .pure _
    · refine .ofResult fun position => ?_
      refine fun s => wp_io_bind isRely_sameLocal
        ((wp_getChunk hM position.index true s).mono fun r s hr => ?_)
      cases r with
      | error e => exact fun _ _ => trivial
      | ok oc =>
        cases oc with
        | none => exact fun _ _ => trivial
        | some c =>
          obtain ⟨c₀, hc₀⟩ := Option.isSome_iff_exists.mp (hr c rfl)
          refine wp_io_bind isRely_sameLocal ((wp_onChunk (hM.write _ _) hc₀).mono fun r s _ => ?_)
          cases r with
          | error e => exact fun _ _ => trivial
          | ok _ => exact ih _ _ s

theorem calmly_write (hM : AttachOnce H ino M) (bytes : Bytes) (off : Int) (flags : OpenFlags) :
    Calmly H (write M cx bytes off flags) := by
  refine calmly_checkSizeCommitSafety.bind fun _ => calmly_getSession.bind fun rw =>
    .failIf fun _ => .failIf fun _ =>
      .ofResult fun _ => (calmly_writeLoop hM _ _ _).bind fun _ => ?_
  split
  · exact .pure _
  · exact calmly_modify fun _ => rfl

theorem calmly_getVisibleSize : Calmly H (getVisibleSize ino : FileIo χ Nat) := by
  refine calmly_getSession.bind fun rw => ?_
  split
  · exact .pure _
  · refine (calmly_onBackend (calm_query _)).bind fun _ => calmly_modify fun rw => ?_
    split <;> rfl

theorem calmly_readLookup (hM : AttachOnce H ino M) (fuel cursor remaining : Nat) :
    Calmly H (readLookup M cx fuel cursor remaining) := by
  induction fuel generalizing cursor remaining with
  | zero => exact .pure _
  | succ n ih =>
    unfold readLookup
    split
    · exact .pure _
    · exact .ofResult fun _ => (calmly_getChunk hM _ _).bind fun _ =>
        (ih _ _).bind fun _ => .pure _

theorem calm_readSegments (hM : AttachOnce H ino M) (segs : List (ReadSegment χ)) :
    Always Calm (readSegments M segs) := by
  induction segs with
  | nil => exact .pure _
  | cons seg segs ih =>
    refine Always.bind ?_ fun _ => ih.bind fun _ => .pure _
    unfold readSegment
    split
    · exact hM.read _ _ _
    · exact .pure _

theorem calmly_read (hM : AttachOnce H ino M) (size : Nat) (off : Int) :
    Calmly H (read M cx ino size off) := by
  refine calmly_checkSizeCommitSafety.bind fun _ => .failIf fun _ => ?_
  split
  · exact .pure _
  · refine calmly_getVisibleSize.bind fun visible => .failIf fun _ => ?_
    split
    · exact .pure _
    · exact (calmly_readLookup hM _ _ _).bind fun _ => calmly_onBackend (calm_readSegments hM _)

/-! ## 大きさの変更 -/

theorem calmly_transact {t : MetaContext → KvTxn α} (h : ∀ cx, Txn.Writes Detaching (t cx)) :
    Calmly H (onBackend (transact cx t) : FileIo χ α) := calmly_onBackend (calm_transact h)

theorem calmly_setCommittedSize (size : Nat) : Calmly H (setCommittedSize size : FileIo χ Unit) :=
  calmly_modify fun _ => rfl

theorem calmly_failClosed : Calmly H (failClosed : FileIo χ Unit) := calmly_modify fun _ => rfl

section

variable (hM : AttachOnce H ino M)
include hM

theorem calmly_sanitizeRetained (b : Option RetainedChunkBoundary) :
    Calmly H (sanitizeRetained M b) := by
  cases b with
  | none => exact .pure _
  | some b =>
    exact (calmly_onBackend (hM.sanitizeBoundary b)).bind fun _ =>
      calmly_clampCachedPublishedPrefix hM _ _

section

variable (before : FileMappingSnapshot)
include before

theorem calmly_commitUnchangedSize (requested : SwordFsAttr) (f : SetAttrField) :
    Calmly H (commitUnchangedSize M cx ino before requested f) := by
  refine (calmly_transact fun _ => writes_setAttr detaching_setInode).bind fun out => ?_
  extract_lets visiblePrefix index
  split
  · exact .pure _
  · split
    · exact .pure _
    · exact (calmly_onBackend (hM.sanitizeBoundary _)).bind fun _ =>
        (calmly_clampCachedPublishedPrefix hM _ _).bind fun _ => .pure _

theorem calmly_reconcileSizeCommit (plan : ChunkSizePlan) (shrinking : Bool) (e : Status) :
    Calmly H (reconcileSizeCommit M cx ino before plan shrinking e) := by
  have hclosed : ∀ e, Calmly H (do failClosed; throw e : FileIo χ Unit) :=
    fun e => calmly_failClosed.bind fun _ => .throw e
  refine (calmly_onBackend (calm_query _)).attempt.bind fun r => ?_
  split
  · exact hclosed e
  · split
    · exact hclosed e
    · exact .throw e
    · refine (calmly_truncateToSize hM _ _).bind fun _ =>
        (calmly_setCommittedSize _).bind fun _ => ?_
      split
      · exact .throw e
      · split
        · refine (calmly_onBackend (hM.sanitizeBoundary _)).attempt.bind fun r => ?_
          split
          · exact hclosed _
          · exact (calmly_clampCachedPublishedPrefix hM _ _).bind fun _ => .throw e
        · exact .throw e

theorem calmly_commitChangedSize (requested : SwordFsAttr) (f : SetAttrField) :
    Calmly H (commitChangedSize M cx ino before requested f) := by
  refine .ofResult fun plan => Calmly.bind ?_ fun _ =>
    (calmly_transact fun _ => ?_).attempt.bind fun r => ?_
  · unfold sanitizeBeforeGrow
    split
    · exact .pure _
    · exact calmly_sanitizeRetained hM _
  · unfold sizeCommitTxn
    split <;> exact detaching_commitSizeChange
  · split
    · unfold commitFailed
      split
      · exact (calmly_reconcileSizeCommit hM _ _ _ _).bind fun _ => .throw _
      · exact .throw _
    · unfold applyCommitted
      split
      · exact (calmly_truncateToSize hM _ _).bind fun _ => (calmly_setCommittedSize _).bind fun _ =>
          (calmly_sanitizeRetained hM _).bind fun _ => .pure _
      · exact .pure _

end

theorem calmly_commitSizeChangeLocked (requested : SwordFsAttr)
    (f : SetAttrField) : Calmly H (commitSizeChangeLocked M cx ino requested f) := by
  have hdone : ∀ out : SwordFsInode, Calmly H (do
      truncateToSize M requested.size cx.chunkSize
      setCommittedSize requested.size
      return out : FileIo χ SwordFsInode) := fun out =>
    (calmly_truncateToSize hM _ _).bind fun _ => (calmly_setCommittedSize _).bind fun _ =>
      .pure _
  refine calmly_checkSizeCommitSafety.bind fun _ => (calmly_onBackend (calm_query _)).bind
    fun before => .ofResult fun _ => ?_
  split
  · exact (calmly_commitUnchangedSize hM _ _ _).bind hdone
  · exact (calmly_commitChangedSize hM _ _ _).bind hdone

theorem calmly_setAttr (requested : SwordFsAttr) (f : SetAttrField) :
    Calmly H (setAttr M cx ino requested f) := by
  refine calmly_checkSizeCommitSafety.bind fun _ => .failIf fun _ => ?_
  split
  · exact calmly_commitSizeChangeLocked hM _ _
  · refine (calmly_transact fun _ => writes_setAttr detaching_setInode).bind fun out =>
      calmly_getSession.bind fun rw => ?_
    split
    · exact .pure _
    · split
      · exact .pure _
      · exact .pure _

theorem calmly_truncate (size : Nat) : Calmly H (truncate M cx ino size) :=
  .failIf fun _ => (calmly_commitSizeChangeLocked hM _ _).bind fun _ =>
    .pure _

end

end

end SwordFS.Vfs
