import SwordFS.Vfs.Properties.MechanismTruncation
import SwordFS.Vfs.Properties.SizeVerdict

/-!
# 大きさの変更の結果

`CommitSizeChangeLocked` が返った時点の状態は、次の三つのどれかである。

* 以後の使用を拒む（`sizeCommitFailedClosed`）
* FileMetadata も手元の状態も変わっていない（`SizeUnchanged`）
* FileMetadata の EOF と mapping が揃って変わり、手元の状態もそれに合っている（`SizeChanged`）

EXEC の command のどの一部が効いても、どの返事が失われても、この分類は正しい。
ただし拡大は、commit より先に古い EOF の境界の session を切るので、
失敗した拡大の後にはその session の公開済みの prefix が縮んでいることがある。
-/

namespace SwordFS.Vfs

open Infra Metadata Chunk

variable {χ : Type} {M : Mechanism χ} {cx : MetaContext} {ino : InodeID}

/-! ## 結果の分類 -/

/-- 手元の状態は変わっていない。ただし拡大は、古い EOF の境界の session を先に切る -/
structure LocalUnchanged (T : LocalTruncation M) (chunkSize eof target : Nat)
    (rw rw' : FileReadWriter χ) : Prop where
  rest : rw' = { rw with chunks := rw'.chunks }
  chunks : ∀ j, rw'.chunks.lookup j = rw.chunks.lookup j ∨
    eof < target ∧ eof % chunkSize ≠ 0 ∧ j = eof / chunkSize ∧ ∃ c c',
      rw.chunks.lookup j = some c ∧ rw'.chunks.lookup j = some c' ∧
        T.Clamped (eof % chunkSize) c c'

/-- FileMetadata も手元の状態も変わっていない -/
def SizeUnchanged (T : LocalTruncation M) (chunkSize : Nat) (ino : InodeID) (target : Nat)
    (s s' : Mount χ) : Prop :=
  SameFile ino s.2.redis s'.2.redis ∧
    (s'.1 = s.1 ∨ ∃ eof, eofOf s.2.redis ino = some eof ∧
      LocalUnchanged T chunkSize eof target s.1 s'.1)

/-- FileMetadata の EOF と mapping が、どちらも変更後のものに揃った -/
def FileCommitted (chunkSize : Nat) (ino : InodeID) (target : Nat) (s s' : Redis) : Prop :=
  ∃ eof, eofOf s ino = some eof ∧
    SizeCommitted ino (detachLayout chunkSize eof target (target < eof)) target s s'

/-- 変更がすべて済み、手元の大きさと cache がそれに合っている -/
structure SizeChanged (T : LocalTruncation M) (chunkSize : Nat) (ino : InodeID)
    (target : Nat) (s s' : Mount χ) : Prop where
  file : FileCommitted chunkSize ino target s.2.redis s'.2.redis
  size : s'.1.authoritativeSize = some target
  live : s'.1.liveSize = none
  cache : CacheAgrees T target chunkSize s'.1

/-- 返った後の状態。以後使えなくなったか、何も起きていないか、変更が済んでいる -/
def SizeSettled (T : LocalTruncation M) (chunkSize : Nat) (ino : InodeID) (target : Nat)
    (s s' : Mount χ) : Prop :=
  s'.1.sizeCommitFailedClosed = true ∨ SizeUnchanged T chunkSize ino target s s' ∨
    SizeChanged T chunkSize ino target s s'

variable {T : LocalTruncation M} {eof target : Nat} {rw rw' : FileReadWriter χ} {b b' : Backend}

theorem LocalUnchanged.refl (T : LocalTruncation M) (chunkSize eof target : Nat)
    (rw : FileReadWriter χ) : LocalUnchanged T chunkSize eof target rw rw :=
  ⟨rfl, fun _ => .inl rfl⟩

theorem ClampedAt.localUnchanged (hlt : eof < target) (hp : eof % chunkSize ≠ 0)
    (h : ClampedAt T (eof / chunkSize) (eof % chunkSize) rw rw') :
    LocalUnchanged T chunkSize eof target rw rw' := by
  refine ⟨h.only.rest, fun j => ?_⟩
  by_cases hj : j = eof / chunkSize
  · subst hj
    cases hl : rw'.chunks.lookup (eof / chunkSize) with
    | none =>
      left
      cases hl' : rw.chunks.lookup (eof / chunkSize) with
      | none => rfl
      | some c =>
        obtain ⟨c', hc'⟩ := h.kept c hl'
        rw [hl] at hc'
        cases hc'
    | some c' =>
      obtain ⟨c, hc, heq | hcl⟩ := h.clamped c' hl
      · rw [heq, hc]; exact .inl rfl
      · exact .inr ⟨hlt, hp, rfl, c, c', hc, rfl, hcl⟩
  · exact .inl (h.only.other j hj)

theorem LocalUnchanged.cacheWf (h : LocalUnchanged T chunkSize eof target rw rw')
    (hwf : CacheWf T rw) : CacheWf T rw' := by
  intro j c hj
  rcases h.chunks j with hsame | ⟨-, -, -, c₀, c', hc₀, hc', hcl⟩
  · exact hwf j c (hsame ▸ hj)
  · rw [hc'] at hj
    cases hj
    exact T.wf_of_clamped hcl (hwf j c₀ hc₀)

variable {plan : ChunkSizePlan}

theorem boundary_of_plan (h : planChunkSizeChange eof newSize chunkSize ms = .ok plan)
    (hb : plan.boundary = some bd) :
    min eof newSize % chunkSize ≠ 0 ∧ bd.index = min eof newSize / chunkSize ∧
      bd.visiblePrefix = min eof newSize % chunkSize := by
  obtain ⟨-, -, -, -, rfl⟩ := planChunkSizeChange_ok_iff.mp h
  have hretained : ∀ size, makeRetainedBoundary (chunkSizeLayout size chunkSize).boundary
      (sortMappings ms) = some bd → size % chunkSize ≠ 0 ∧ bd.index = size / chunkSize ∧
        bd.visiblePrefix = size % chunkSize := by
    intro size hb
    obtain ⟨bs, hbs, hid⟩ := Option.bind_eq_some_iff.mp hb
    obtain ⟨hp, rfl⟩ := boundary_eq_some_iff.mp hbs
    obtain ⟨id, -, rfl⟩ := Option.map_eq_some_iff.mp hid
    exact ⟨hp, rfl, rfl⟩
  simp only [chunkSizePlan] at hb
  split at hb
  · next hlt =>
    rw [Nat.min_eq_right (Nat.le_of_lt hlt)]
    exact hretained _ hb
  · split at hb
    · next hlt =>
      rw [Nat.min_eq_left (Nat.le_of_lt hlt)]
      exact hretained _ hb
    · cases hb

section

variable {chunkSize : Nat} {m s s' : Mount χ}

/-- 切り詰めた cache に新しい大きさを置けば、変更は済んでいる -/
theorem sizeChanged_setCommitted (hfile : FileCommitted chunkSize ino target m.2.redis s.2.redis)
    (hagree : CacheAgrees T target chunkSize s.1) :
    Alone (fun _ => True) (setCommittedSize target)
      (fun r s' => r = .ok () ∧ s'.2 = s.2 ∧ s'.1.chunks = s.1.chunks ∧
        SizeChanged T chunkSize ino target m s') s :=
  .modifySession
    ⟨rfl, rfl, rfl, { file := hfile, size := rfl, live := rfl, cache := hagree }⟩

theorem SizeChanged.clamped (h : SizeChanged T chunkSize ino target m s)
    (hr : s'.2.redis = s.2.redis) (hp : p ≤ target % chunkSize) (hc : ClampedAt T idx p s.1 s'.1) :
    SizeChanged T chunkSize ino target m s' where
  file := by rw [hr]; exact h.file
  size := by rw [hc.only.rest]; exact h.size
  live := by rw [hc.only.rest]; exact h.live
  cache := hc.cacheAgrees hp h.cache

end

theorem observe_snapshot_ok {a : Answer}
    (h : a.query (fun b => ((readFileMappingSnapshot ino).commit b.redis).1) b = .ok observed) :
    b.redis (.inode ino) = some observed.inode ∧ observed.mappings = fileMappings b.redis ino := by
  obtain ⟨ws, heval, -⟩ := Txn.commit_ok_iff.mp (Prod.ext (Answer.query_ok h) rfl)
  obtain ⟨hn, -, -, -, hms, -⟩ := readFileMappingSnapshot_ok.mp heval
  exact ⟨hn, hms⟩

variable {before : FileMappingSnapshot} {b₁ : Backend}

theorem settled_of_failClosed :
    Alone (fun _ => True) (do failClosed; (throw e : FileIo χ Unit))
      (fun r s => r.isOk = false ∧ SizeSettled T chunkSize ino target m s) s := by
  simp [failClosed, alone_bind_iff, alone_modifySession_iff exists_answer, SizeSettled, Except.isOk,
    Except.toBool]

section

variable (hbn : b.redis (.inode ino) = some before.inode)
  (hbm : before.mappings = fileMappings b.redis ino)
  (hne : plan.targetEof ≠ before.inode.attr.size)
  (hpre : plan.targetEof < before.inode.attr.size → ∀ bd, plan.boundary = some bd →
    bd.visiblePrefix ≤ plan.targetEof % cx.chunkSize)
  (hwf : CacheWf T rw)
  (hloc : LocalUnchanged T cx.chunkSize before.inode.attr.size plan.targetEof rw rw')
  (hbet : Between ino (detachLayout cx.chunkSize before.inode.attr.size plan.targetEof
    (plan.targetEof < before.inode.attr.size)) plan.targetEof b.redis b₁.redis)
include hbn hbm hne hpre hwf hloc hbet

theorem reconcileSizeCommit_spec :
    Alone (fun _ => True) (reconcileSizeCommit M cx ino before plan
        (plan.targetEof < before.inode.attr.size) e)
      (fun r s => r.isOk = false ∧ SizeSettled T cx.chunkSize ino plan.targetEof (rw, b) s)
      (rw', b₁) := by
  have heof : eofOf b.redis ino = some before.inode.attr.size := by rw [eofOf, hbn]; rfl
  simp only [reconcileSizeCommit, alone_bind_iff, alone_attempt_iff, alone_onBackend_iff, observe,
    alone_query_iff, next_ok]
  intro a _
  split
  · exact settled_of_failClosed
  · next observed hq =>
    obtain ⟨hn', ho⟩ := observe_snapshot_ok hq
    split
    · exact settled_of_failClosed
    · next hv =>
      refine .throw ⟨rfl, .inr (.inl ⟨?_, .inr ⟨_, heof, hloc⟩⟩)⟩
      exact sizeCommitVerdict_unchanged hbm ho hn' hne hbet hv
    · next hv =>
      obtain ⟨hcommitted, hsize⟩ := sizeCommitVerdict_committed hbm ho hn' hv
      rw [hsize]
      refine .bind ((truncateToSize_spec T _ _ (hloc.cacheWf hwf)).mono ?_)
      rintro r s ⟨rfl, hs, -, hagree⟩
      have hfile : FileCommitted cx.chunkSize ino plan.targetEof b.redis s.2.redis :=
        ⟨_, heof, hs ▸ hcommitted⟩
      refine .bind ((sizeChanged_setCommitted (m := (rw, b)) hfile hagree).mono ?_)
      rintro r s ⟨rfl, -, -, hch⟩
      rw [next_ok]
      split
      · exact .throw ⟨rfl, .inr (.inr hch)⟩
      · next bd hbd =>
        split
        · next hsh =>
          refine .bind (.attempt (.onBackend
            ((T.sanitize bd s.2).mono ?_)))
          rintro (e' | ⟨⟩) b₂ hb₂
          · exact settled_of_failClosed
          · refine .bind ((clampCached_spec T bd.index bd.visiblePrefix).mono ?_)
            rintro r s' ⟨rfl, hr, hcl⟩
            have hp := hpre (of_decide_eq_true hsh.1) bd hbd
            exact .throw ⟨rfl, .inr (.inr (hch.clamped (hr.trans hb₂) hp hcl))⟩
        · exact .throw ⟨rfl, .inr (.inr hch)⟩

theorem commitFailed_spec
    (hdef : ¬ (e.isOutcomeUnknown = true ∨ e.isEio = true) → b₁.redis = b.redis) :
    Alone (fun _ => True) (commitFailed M cx ino before plan
        (plan.targetEof < before.inode.attr.size) e)
      (fun r s => r.isOk = false ∧ SizeSettled T cx.chunkSize ino plan.targetEof (rw, b) s)
      (rw', b₁) := by
  unfold commitFailed
  split
  · refine .bind ((reconcileSizeCommit_spec hbn hbm hne hpre hwf hloc hbet).mono ?_)
    rintro (e' | ⟨⟩) s ⟨hr, hs⟩
    · exact ⟨rfl, hs⟩
    · cases hr
  · next h =>
    refine .throw ⟨rfl, .inr (.inl ⟨?_, .inr ⟨_, ?_, hloc⟩⟩)⟩
    · exact hdef h ▸ SameFile.refl ino b.redis
    · rw [eofOf, hbn]; rfl

end

variable {requested : SwordFsAttr} {f : SetAttrField}

theorem transact_sizeCommit_spec
    (hrec : ∀ n, b.redis (.inode ino) = some n → n.ino = ino) (hn : b.redis (.inode ino) = some n) :
    Alone (fun _ => True) (transact cx fun cx => sizeCommitTxn cx ino plan shrinking requested f)
      (fun r b' => match r with
        | .ok res => res.inode.attr.size = plan.targetEof ∧
          SizeCommitted ino (detachLayout cx.chunkSize n.attr.size plan.targetEof shrinking)
            plan.targetEof b.redis b'.redis
        | .error e =>
          Between ino (detachLayout cx.chunkSize n.attr.size plan.targetEof shrinking)
            plan.targetEof b.redis b'.redis ∧
          (¬ (e.isOutcomeUnknown = true ∨ e.isEio = true) → b'.redis = b.redis)) b := by
  refine alone_call_iff.mpr ?_
  rintro ⟨fault, now⟩ -
  have hcommit := sizeCommitTxn_commit { cx with now := now } plan shrinking requested f hrec hn
  have hsame : Between ino (detachLayout cx.chunkSize n.attr.size plan.targetEof shrinking)
      plan.targetEof b.redis b.redis := (SameFile.refl ino b.redis).between
  have htorn := fun took => tornCommit_between { cx with now := now } plan shrinking requested f took
    hrec hn
  rcases fault with _ | st | (_ | _) | ⟨took, (_ | _)⟩
  · rcases hcommit with ⟨hs, e, he⟩ | ⟨r, hr, hsize, hc⟩
    · simp only [Answer.call, he, hs]
      exact ⟨hsame, fun _ => trivial⟩
    · simp only [Answer.call, hr]
      exact ⟨hsize, hc⟩
  · exact ⟨hsame, fun _ => rfl⟩
  · exact ⟨hsame, fun _ => rfl⟩
  · refine ⟨?_, fun h => absurd (.inl rfl) h⟩
    rcases hcommit with ⟨hs, -⟩ | ⟨r, -, -, hc⟩
    · simp only [Answer.call, hs]
      exact hsame
    · exact hc.between
  · exact ⟨htorn took, fun h => absurd (.inr rfl) h⟩
  · exact ⟨htorn took, fun h => absurd (.inl rfl) h⟩

/-- 先に行う境界の整理の後も、手元の状態は変わっていない -/
theorem sanitizeBeforeGrow_spec (T : LocalTruncation M)
    (hplan : planChunkSizeChange eof newSize cx.chunkSize ms = .ok plan) (hne : newSize ≠ eof) :
    Alone (fun _ => True) (sanitizeBeforeGrow M plan (newSize < eof))
      (fun _ s => s.2.redis = b.redis ∧ LocalUnchanged T cx.chunkSize eof newSize rw s.1)
      (rw, b) := by
  unfold sanitizeBeforeGrow
  split
  · exact .pure ⟨rfl, .refl ..⟩
  · next hge =>
    have hlt : eof < newSize := by
      simp only [decide_eq_true_eq] at hge
      omega
    refine (sanitizeRetained_spec T plan.boundary).mono ?_
    rintro r s ⟨hs, rfl | ⟨bd, hbd, hcl⟩⟩
    · exact ⟨hs, .refl ..⟩
    · obtain ⟨hp, hidx, hpre⟩ := boundary_of_plan hplan hbd
      rw [Nat.min_eq_left (Nat.le_of_lt hlt)] at hp hidx hpre
      rw [hidx, hpre] at hcl
      exact ⟨hs, hcl.localUnchanged hlt hp⟩

/-- 済んだ commit の後は、境界の整理に失敗しても、手元は新しい EOF に合っている -/
theorem applyCommitted_spec (hwf : CacheWf T rw)
    (hfile : FileCommitted cx.chunkSize ino target m.2.redis b₁.redis)
    (hsize : committed.inode.attr.size = target)
    (hpre : shrinking = true → ∀ bd, plan.boundary = some bd →
      bd.visiblePrefix ≤ target % cx.chunkSize) :
    Alone (fun _ => True) (applyCommitted M cx plan shrinking committed)
      (fun r s => s.2.redis = b₁.redis ∧ CacheWf T s.1 ∧
        (r.isOk = false → SizeChanged T cx.chunkSize ino target m s)) (rw, b₁) := by
  unfold applyCommitted
  split
  · next hsh =>
    rw [hsize]
    refine .bind ((truncateToSize_spec T _ _ hwf).mono ?_)
    rintro r s ⟨rfl, hs, hwf', hagree⟩
    have hfile' := hs ▸ hfile
    refine .bind ((sizeChanged_setCommitted hfile' hagree).mono ?_)
    rintro r s' ⟨rfl, hb', hchunks, hch⟩
    have hwf'' : CacheWf T s'.1 := fun j c hj => hwf' j c (hchunks ▸ hj)
    refine .bind ((sanitizeRetained_spec T plan.boundary).mono ?_)
    rintro r s'' ⟨hr, hlocal⟩
    have hredis : s''.2.redis = b₁.redis := by rw [hr, hb', hs]
    obtain ⟨idx, p, hp, hcl⟩ : ∃ idx p, p ≤ target % cx.chunkSize ∧
        ClampedAt T idx p s'.1 s''.1 := by
      rcases hlocal with hl | ⟨bd, hbd, hcl⟩
      · exact ⟨0, 0, Nat.zero_le _, by rw [hl]; exact .refl T 0 0 s'.1⟩
      · exact ⟨_, _, hpre hsh.1 bd hbd, hcl⟩
    cases r with
    | error e => exact ⟨hredis, hcl.cacheWf hwf'', fun _ => hch.clamped hr hp hcl⟩
    | ok u => exact .pure ⟨hredis, hcl.cacheWf hwf'', fun h => nomatch h⟩
  · exact .pure ⟨rfl, hwf, fun h => nomatch h⟩

theorem commitChangedSize_spec (hrec : ∀ n, b.redis (.inode ino) = some n → n.ino = ino)
    (hbn : b.redis (.inode ino) = some before.inode)
    (hbm : before.mappings = fileMappings b.redis ino)
    (hne : requested.size ≠ before.inode.attr.size) (hwf : CacheWf T rw) :
    Alone (fun _ => True) (commitChangedSize M cx ino before requested f)
      (fun r s => if r.isOk then
          FileCommitted cx.chunkSize ino requested.size b.redis s.2.redis ∧ CacheWf T s.1
        else SizeSettled T cx.chunkSize ino requested.size (rw, b) s) (rw, b) := by
  have heof : eofOf b.redis ino = some before.inode.attr.size := by rw [eofOf, hbn]; rfl
  unfold commitChangedSize
  refine .bind (.ofResult ?_)
  cases hplan : planChunkSizeChange before.inode.attr.size requested.size cx.chunkSize
      before.mappings with
  | error e => exact .inr (.inl ⟨.refl ino _, .inl rfl⟩)
  | ok plan =>
    have htarget : plan.targetEof = requested.size := by
      obtain ⟨-, -, -, -, rfl⟩ := planChunkSizeChange_ok_iff.mp hplan
      rfl
    have hpre : requested.size < before.inode.attr.size → ∀ bd, plan.boundary = some bd →
        bd.visiblePrefix ≤ requested.size % cx.chunkSize := by
      intro hlt bd hbd
      obtain ⟨-, -, hp⟩ := boundary_of_plan hplan hbd
      rw [hp, Nat.min_eq_right (Nat.le_of_lt hlt)]
    refine .bind ((sanitizeBeforeGrow_spec T hplan hne).mono ?_)
    rintro (e | ⟨⟩) s ⟨hs, hloc⟩
    · exact .inr (.inl ⟨hs ▸ SameFile.refl ino _, .inr ⟨_, heof, hloc⟩⟩)
    refine .bind (.attempt (.onBackend
      ((transact_sizeCommit_spec (hs ▸ hrec) (hs ▸ hbn)).mono ?_)))
    rw [← htarget] at hne hloc hpre ⊢
    rintro (e | committed) b₁ ⟨h₁, h₂⟩
    · rw [hs] at h₁ h₂
      refine (commitFailed_spec hbn hbm hne hpre hwf hloc h₁ h₂).mono ?_
      rintro r s' ⟨hr, hs'⟩
      rw [hr]
      exact hs'
    · have hfile : FileCommitted cx.chunkSize ino plan.targetEof b.redis b₁.redis :=
        ⟨_, heof, hs ▸ h₂⟩
      refine (applyCommitted_spec (hloc.cacheWf hwf) (m := (rw, b)) hfile h₁
        fun hsh => hpre (of_decide_eq_true hsh)).mono ?_
      rintro (e | out) s' ⟨hs', hwf', hr⟩
      · exact .inr (.inr (hr rfl))
      · exact ⟨hs' ▸ hfile, hwf'⟩

/--
EOF を変える要求では、どの返事と、command のどの一部が効いた EXEC に対しても、
`CommitSizeChangeLocked` は状態を正しく分類する。成功を返すのは、変更が済んだときだけである。
-/
theorem commitSizeChangeLocked_spec (T : LocalTruncation M)
    (hrec : ∀ n, b.redis (.inode ino) = some n → n.ino = ino)
    (hne : eofOf b.redis ino ≠ some requested.size) (hwf : CacheWf T rw) :
    Alone (fun _ => True) (commitSizeChangeLocked M cx ino requested f)
      (fun r s => SizeSettled T cx.chunkSize ino requested.size (rw, b) s ∧
        (r.isOk = true → SizeChanged T cx.chunkSize ino requested.size (rw, b) s)) (rw, b) := by
  have hnothing : ∀ e : Status, SizeSettled T cx.chunkSize ino requested.size (rw, b) (rw, b) ∧
      ((Except.error e : Result SwordFsInode).isOk = true →
        SizeChanged T cx.chunkSize ino requested.size (rw, b) (rw, b)) :=
    fun _ => ⟨.inr (.inl ⟨.refl ino _, .inl rfl⟩), fun h => nomatch h⟩
  simp only [commitSizeChangeLocked, checkSizeCommitSafety, alone_bind_iff,
    alone_getSession_iff exists_answer, next_ok, alone_failIf_iff, alone_onBackend_iff, observe,
    alone_query_iff, next_error]
  refine ⟨fun _ => hnothing _, fun _ a _ => ?_⟩
  cases hq : a.query (fun b => ((readFileMappingSnapshot ino).commit b.redis).1) b with
  | error e => exact hnothing e
  | ok before =>
    obtain ⟨hbn, hbm⟩ := observe_snapshot_ok hq
    have hsize : requested.size ≠ before.inode.attr.size := by
      rintro h
      rw [eofOf, hbn, h] at hne
      exact hne rfl
    simp only [next_ok, if_neg hsize]
    refine .bind (.ofResult ?_)
    cases prepareSetAttrMutation cx.now before.inode requested f with
    | error e => exact hnothing e
    | ok validated =>
      refine .bind
        ((commitChangedSize_spec hrec hbn hbm hsize hwf).mono ?_)
      rintro (e | out) s h
      · exact ⟨h, fun hr => nomatch hr⟩
      · obtain ⟨hfile, hwf'⟩ : FileCommitted cx.chunkSize ino requested.size b.redis s.2.redis ∧
          CacheWf T s.1 := h
        refine .bind ((truncateToSize_spec T _ _ hwf').mono ?_)
        rintro r s' ⟨rfl, hs', -, hagree⟩
        rw [← hs'] at hfile
        refine .bind
          ((sizeChanged_setCommitted (m := (rw, b)) hfile hagree).mono ?_)
        rintro r s'' ⟨rfl, -, -, hch⟩
        exact .pure ⟨.inr (.inr hch), fun _ => hch⟩

/-- 大きさ 2 の file の chunk に、長さ 4 の head が残っている -/
def hiddenTail : Backend where
  redis := (KvCmd.hsetChunkRef 2 0 1).apply ((KvCmd.setInode
    { emptyFile 2 with attr := { (emptyFile 2).attr with size := 2 } }).apply (emptyFileStore 2))
  objects := fun key => if key = .cow 1 1 then some [1, 2, 3, 4] else none
  sliceIndex := fun _ => []
  cowHead := fun id => if id = 1 then some ⟨1, 4⟩ else none
  cowRevision := fun _ => 1
  nextChunkID := 1
  nextSliceID := 0
  chunkOwner := fun _ => none
  sliceOwner := fun _ => none

/-- その head を覚えている session を持つ mount -/
def hiddenTailMount : FileReadWriter Cow.COWChunk where
  chunks := AList.insert 0 { index := 0, attachedId := some 1, publishedHead := some ⟨1, 4⟩,
                             visiblePrefix := 4, state := .clean } ∅
  authoritativeSize := some 2
  sizeStateEpoch := 1

/-- 大きさの commit だけが、送られる前に失敗する -/
def commitUnsent (n : Nat) : Choice Answer :=
  ⟨0, fun _ => ⟨if n = 6 then .fail (.unavailable "Redis unavailable") else .none, 0⟩⟩

def grown : Result SwordFsInode × Mount Cow.COWChunk :=
  Prog.exec (commitSizeChangeLocked (Cow.mechanism ⟨4, .cow, 0⟩ 2 1) ⟨4, .cow, 0⟩ 2
    { size := 6 } { size := true }) commitUnsent (hiddenTailMount, hiddenTail)

end SwordFS.Vfs
