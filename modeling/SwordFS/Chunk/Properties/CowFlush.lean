import SwordFS.Chunk.Alone
import SwordFS.Chunk.Cow.COWChunk
import SwordFS.Metadata.Properties.FileSnapshot

/-!
# 誰にも邪魔されない COW の Flush

失敗が起きず他の誰も動かないとき、`COWChunk::Flush` が成功する条件を求める。
その条件の中心は、session の覚えている attachment と head が今のものと一致することである。
一致しなければ、何度やり直しても失敗する。
-/

namespace SwordFS.Chunk.Cow

open Infra Metadata Function

variable {cx : MetaContext} {ino : InodeID} {c : COWChunk} {b : Backend}

/-! ## 条件と結果 -/

namespace COWChunk

def bytes (c : COWChunk) : Bytes := c.wb.getD []

/-- 公開に使う ChunkID。取り付けられていなければ、次に割り当てられるもの -/
def publishId (c : COWChunk) (b : Backend) : ChunkID := c.attachedId.getD (b.nextChunkID + 1)

def nextHead (c : COWChunk) (b : Backend) : COWChunkHead :=
  ⟨b.cowRevision (c.publishId b) + 1, c.bytes.length⟩

end COWChunk

/-- `old` から `next` への head の差し替えが許される -/
def HeadAdvances (old next : COWChunkHead) : Prop :=
  isValidHead old = true ∧
    (old.revision < next.revision ∨ old.revision = next.revision ∧ next.size ≤ old.size)

/-- 邪魔されない Flush が成功する条件 -/
structure Flushable (cx : MetaContext) (ino : InodeID) (c : COWChunk) (b : Backend) : Prop where
  /-- file は書き換えてよい regular file で、その位置の attachment は session の覚えた通り -/
  file : ∃ file, SnapshotOf cx.chunkSize b.redis ino c.index file ∧
    hasRestrictiveInodePolicy file.inode.attr = false ∧ file.chunkId = c.attachedId
  /-- head は session の覚えた通り -/
  head : b.cowHead (c.publishId b) = c.publishedHead
  attached : c.attachedId.isSome = true → c.publishedHead.isSome = true
  advances : ∀ h, c.publishedHead = some h → HeadAdvances h (c.nextHead b)
  /-- 番号がまだ残っている -/
  chunkIDs : c.attachedId = none → b.nextChunkID < kMaxChunkIDValue
  revisions : b.cowRevision (c.publishId b) < kMaxChunkIDValue
  /-- 公開する範囲は chunk と file の上限に収まる -/
  inChunk : c.bytes.length ≤ cx.chunkSize
  inFile : c.index * cx.chunkSize + c.bytes.length ≤ kMaxSupportedFileSize

/-- `b` から公開した後の外部状態 -/
structure PublishedIn (cx : MetaContext) (ino : InodeID) (c : COWChunk) (b b' : Backend) :
    Prop where
  attachment : attachedAt b'.redis ino c.index = some (c.publishId b)
  head : b'.cowHead (c.publishId b) = some (c.nextHead b)
  object : b'.objects (.cow (c.publishId b) (c.nextHead b).revision) = some c.bytes
  eof : ∃ n, eofOf b'.redis ino = some n ∧ c.index * cx.chunkSize + c.bytes.length ≤ n

/-! ## 一つ一つの呼び出し -/

variable {expected : Option COWChunkHead} {replacement : COWChunkHead}

theorem validateHeadTransition_ok_iff :
    validateHeadTransition expected replacement = .ok u ↔
      isValidHead replacement = true ∧ ∀ e, expected = some e → HeadAdvances e replacement := by
  unfold validateHeadTransition HeadAdvances
  cases hr : isValidHead replacement with
  | false => simp
  | true =>
    cases expected with
    | none => simp
    | some e =>
      cases he : isValidHead e with
      | false => simp [he]
      | true =>
        simp only [Bool.not_true, Bool.false_eq_true, Option.any_some, he, or_self, if_false,
          Option.some.injEq, forall_eq', true_and]
        split
        · simp only [reduceCtorEq, false_iff]
          omega
        · split
          · simp only [reduceCtorEq, false_iff]
            omega
          · simp only [true_iff]
            omega

theorem exchangeHead_ok_iff :
    exchangeHead current expected replacement = .ok h ↔
      h = replacement ∧ current = expected ∧ isValidHead replacement = true ∧
        ∀ e, expected = some e → HeadAdvances e replacement := by
  unfold exchangeHead
  simp only [Result.bind_ok_iff, validateHeadTransition_ok_iff]
  constructor
  · rintro ⟨-, ⟨h1, h2⟩, h3⟩
    cases current with
    | none =>
      simp only [Result.bind_ok_iff, Result.failIf_ok_iff, Result.pure_ok_iff] at h3
      obtain ⟨-, hn, rfl⟩ := h3
      exact ⟨rfl, (Option.not_isSome_iff_eq_none.mp hn).symm, h1, h2⟩
    | some cur =>
      simp only [Result.bind_ok_iff, Result.failIf_ok_iff, Result.pure_ok_iff, not_not] at h3
      obtain ⟨-, -, -, hc, rfl⟩ := h3
      exact ⟨rfl, hc, h1, h2⟩
  · rintro ⟨rfl, rfl, h1, h2⟩
    refine ⟨(), ⟨h1, h2⟩, ?_⟩
    cases current with
    | none => rfl
    | some cur =>
      simp only [Result.bind_ok_iff, Result.failIf_ok_iff, Result.pure_ok_iff]
      exact ⟨(), by simp [(h2 cur rfl).1], (), not_not.mpr rfl, trivial⟩

variable {id : ChunkID}

theorem alone_mappedHead (hid : isValidChunkID id = true)
    (hok : ∀ h, b.cowHead id = some h → isValidHead h = true → Q (.ok h) b)
    (herr : ∀ e, (∀ h, b.cowHead id = some h → isValidHead h = false) → Q (.error e) b) :
    Alone Answer.NoFault (mappedHead id msg) Q b := by
  refine .bind (.attempt (.query ?_))
  simp only [hid, Bool.not_true, Bool.false_eq_true]
  cases hh : b.cowHead id with
  | none => exact .throw (herr _ (by simp [hh]))
  | some h =>
    cases hv : isValidHead h with
    | false =>
      have hno : ∀ h', b.cowHead id = some h' → isValidHead h' = false := fun h' he => by
        rw [hh] at he; cases he; exact hv
      simp only [hv]
      exact .throw (herr _ hno)
    | true =>
      simp only [hv]
      exact .pure (hok h hh hv)

theorem isValidHead_succ (h : n < kMaxChunkIDValue) : isValidHead ⟨n + 1, len⟩ = true := by
  simp only [isValidHead, decide_eq_true_eq]
  exact ⟨n.succ_ne_zero, h⟩

def withCandidate (c : COWChunk) (b : Backend) : Backend :=
  if c.attachedId.isSome then b
  else { b with
    nextChunkID := b.nextChunkID + 1
    chunkOwner := update b.chunkOwner (b.nextChunkID + 1) (some c.index) }

section

variable (c : COWChunk) (b : Backend)

@[simp] theorem withCandidate_redis : (withCandidate c b).redis = b.redis := by
  unfold withCandidate; split <;> rfl
@[simp] theorem withCandidate_objects : (withCandidate c b).objects = b.objects := by
  unfold withCandidate; split <;> rfl
@[simp] theorem withCandidate_cowHead : (withCandidate c b).cowHead = b.cowHead := by
  unfold withCandidate; split <;> rfl
@[simp] theorem withCandidate_cowRevision : (withCandidate c b).cowRevision = b.cowRevision := by
  unfold withCandidate; split <;> rfl

end

def COWChunk.generation (c : COWChunk) : Generation :=
  ⟨c.index, c.bytes, c.attachedId, c.publishedHead⟩

theorem alone_candidateID_iff :
    Alone Answer.NoFault (candidateID c.generation) Q b ↔
      (if c.attachedId = none ∧ kMaxChunkIDValue ≤ b.nextChunkID then
        Q (.error (.malformed "SliceID counter is invalid or exhausted")) b
      else Q (.ok (c.publishId b)) (withCandidate c b)) := by
  unfold candidateID COWChunk.generation COWChunk.publishId withCandidate
  cases c.attachedId with
  | some id => simp
  | none => simp [alone_allocateChunkID_iff]

theorem alone_allocateRevision_iff (hid : isValidChunkID id = true) :
    Alone Answer.NoFault (allocateRevision id) Q b ↔
      (if kMaxChunkIDValue ≤ b.cowRevision id then
        Q (.error (.malformed "SliceID counter is invalid or exhausted")) b
      else Q (.ok (b.cowRevision id + 1))
        { b with cowRevision := update b.cowRevision id (b.cowRevision id + 1) }) := by
  simp only [allocateRevision, alone_call_noFault_iff, hid, increment]
  by_cases h : kMaxChunkIDValue ≤ b.cowRevision id <;> simp [h]

theorem exchangeHead_error
    (h : exchangeHead current expected replacement = .error e) : e.isOutcomeUnknown = false := by
  unfold exchangeHead at h
  rcases Result.bind_error_iff.mp h with h | ⟨-, -, h⟩
  · unfold validateHeadTransition at h
    split at h
    · cases h; rfl
    · split at h
      · cases h
      · split at h
        · cases h; rfl
        · split at h <;> cases h
          rfl
  · cases current with
    | none =>
      rcases Result.bind_error_iff.mp h with h | ⟨-, -, h⟩
      · obtain ⟨-, rfl⟩ := Result.failIf_error_iff.mp h
        rfl
      · cases h
    | some cur =>
      rcases Result.bind_error_iff.mp h with h | ⟨-, -, h⟩
      · obtain ⟨-, rfl⟩ := Result.failIf_error_iff.mp h
        rfl
      · rcases Result.bind_error_iff.mp h with h | ⟨-, -, h⟩
        · obtain ⟨-, rfl⟩ := Result.failIf_error_iff.mp h
          rfl
        · cases h

theorem alone_publishHead (hid : isValidChunkID id = true)
    (hok : exchangeHead (b.cowHead id) expected replacement = .ok replacement →
      Q (.ok ()) { b with cowHead := update b.cowHead id (some replacement) })
    (herr : ∀ e, exchangeHead (b.cowHead id) expected replacement = .error e → Q (.error e) b) :
    Alone Answer.NoFault (publishHead id expected replacement) Q b := by
  cases he : exchangeHead (b.cowHead id) expected replacement with
  | ok h =>
    obtain ⟨rfl, -⟩ := exchangeHead_ok_iff.mp he
    simpa [publishHead, alone_bind_iff, alone_attempt_iff, compareExchangeHead,
      alone_call_noFault_iff, hid, he] using hok he
  | error e =>
    simpa [publishHead, alone_bind_iff, alone_attempt_iff, compareExchangeHead,
      alone_call_noFault_iff, hid, he, exchangeHead_error he] using herr e he

/-! ## 確定 -/

section

variable {file : FileChunkSnapshot} {id : ChunkID} {endOff : Nat} {replacement : COWChunkHead}
  {last : Status} {c' : COWChunk}

/-- 公開した後の file -/
structure FileFinalized (ino : InodeID) (index : Nat) (id : ChunkID) (endOff : Nat)
    (s : Redis) : Prop where
  attachment : attachedAt s ino index = some id
  eof : ∃ n, eofOf s ino = some n ∧ endOff ≤ n

/-- 確定の transaction。取り付け済みかどうかで変わる -/
def finalizeTxn (cx : MetaContext) (ino : InodeID) (g : Generation) (endOff : Nat) (id : ChunkID)
    (expected : FileSizePrecondition) : KvTxn Unit :=
  if g.sessionId.isSome then finalizeAttachedWrite cx ino g.index id endOff expected
  else attachPrepared cx ino g.index id endOff expected

theorem finalizeTxn_commit (cx : MetaContext)
    (hsnap : SnapshotOf cx.chunkSize b.redis ino c.index file)
    (hw : validateFileChunkWrite c.index id endOff cx.chunkSize = .ok ())
    (hp : hasRestrictiveInodePolicy file.inode.attr = false)
    (hfile : file.chunkId = c.attachedId) (hid : ∀ id', c.attachedId = some id' → id' = id) :
    ∃ redis, (finalizeTxn cx ino c.generation endOff id
        ⟨file.inode.attr.size, file.eofBoundary⟩).commit b.redis = (.ok (), redis) ∧
      FileFinalized ino c.index id endOff redis := by
  have hino := hsnap.record
  unfold finalizeTxn
  split
  · next hs =>
    obtain ⟨id', ha⟩ := Option.isSome_iff_exists.mp hs
    obtain rfl := hid id' ha
    refine ⟨_, hsnap.finalizeAttachedWrite_commit hw hp (hfile.trans ha), ?_,
      max file.inode.attr.size endOff, by simp [eofOf, hino], le_max_right _ _⟩
    have hat := hsnap.attachment.symm.trans (hfile.trans ha)
    simpa [attachedAt] using hat
  · next hs =>
    have ha : c.attachedId = none := Option.not_isSome_iff_eq_none.mp hs
    exact ⟨_, hsnap.attachPrepared_commit hw hp (hfile.trans ha), by simp [attachedAt],
      max file.inode.attr.size endOff, by simp [eofOf, hino], le_max_right _ _⟩

theorem finalizeTxn_refused (cx : MetaContext) (id : ChunkID) (endOff : Nat)
    (expected : FileSizePrecondition) (hsnap : SnapshotOf cx.chunkSize b.redis ino c.index file)
    (hp : hasRestrictiveInodePolicy file.inode.attr = true) :
    ∃ e, (finalizeTxn cx ino c.generation endOff id expected).commit b.redis =
      (.error e, b.redis) := by
  unfold finalizeTxn
  split
  · exact SnapshotOf.finalizeAttachedWrite_refused hsnap hp
  · exact SnapshotOf.attachPrepared_refused hsnap hp

/-- 観測した前提のまま policy が許せば、最初の試みで確定する -/
theorem finalizeAttempts_ok (attempts : Nat)
    (hsnap : SnapshotOf cx.chunkSize b.redis ino c.index file)
    (hw : validateFileChunkWrite c.index id endOff cx.chunkSize = .ok ())
    (hp : hasRestrictiveInodePolicy file.inode.attr = false)
    (hfile : file.chunkId = c.attachedId) (hid : ∀ id', c.attachedId = some id' → id' = id) :
    Alone Answer.NoFault
      (finalizeAttempts cx ino c.generation endOff id replacement (attempts + 1) file last)
      (fun r s => r = .ok .finalized ∧ ∃ redis, s = (c', { b with redis := redis }) ∧
        FileFinalized ino c.index id endOff redis) (c', b) := by
  refine .bind (.attempt (.onBackend
    (alone_transact_noFault_iff.mpr fun now => ?_)))
  obtain ⟨redis, hcommit, hfin⟩ := finalizeTxn_commit { cx with now := now } hsnap hw hp
    hfile hid
  rw [finalizeTxn] at hcommit
  rw [hcommit]
  exact .pure ⟨rfl, redis, rfl, hfin⟩

theorem alone_markThrow {α : Type} {g : Generation} {e : Status}
    {Q : Result α → COWChunk × Backend → Prop} (h : ∀ c', Q (.error e) (c', b)) :
    Alone Answer.NoFault (do markHeadPublished g replacement; throw e) Q (c', b) :=
  .bind (.modifySession (.throw (h _)))

theorem boundaryChangedAtSameEof_self (file : FileChunkSnapshot) :
    boundaryChangedAtSameEof file file = false := by
  unfold boundaryChangedAtSameEof
  cases file.eofBoundary <;> simp

/-- 前提が変わらない以上、拒まれた確定は何度試しても確定しない -/
theorem finalizeAttempts_refused (attempts : Nat)
    (hsnap : SnapshotOf cx.chunkSize b.redis ino c.index file)
    (hp : hasRestrictiveInodePolicy file.inode.attr = true) (hfile : file.chunkId = c.attachedId) :
    Alone Answer.NoFault
      (finalizeAttempts cx ino c.generation endOff id replacement attempts file last)
      (fun r _ => (∃ e, r = .error e) ∨ ∃ e, r = .ok (.exhausted e)) (c', b) := by
  induction attempts generalizing last with
  | zero => exact .pure (.inr ⟨_, rfl⟩)
  | succ attempts ih =>
    refine .bind (.attempt (.onBackend
      (alone_transact_noFault_iff.mpr fun now => ?_)))
    obtain ⟨e, hcommit⟩ := finalizeTxn_refused { cx with now := now } id endOff
      ⟨file.inode.attr.size, file.eofBoundary⟩ hsnap hp
    rw [finalizeTxn] at hcommit
    rw [hcommit]
    have hread : readFileChunkSnapshot cx.chunkSize b.redis ino c.generation.index = .ok file :=
      readFileChunkSnapshot_ok_iff.mpr hsnap
    simp only [next_ok]
    split
    · exact alone_markThrow fun _ => .inl ⟨e, rfl⟩
    · refine .bind (.attempt (.onBackend
        (.query ?_)))
      simp only [hread, next_ok]
      split
      · next hnone =>
        have hnone' : file.chunkId = none := hfile.trans (Option.isNone_iff_eq_none.mp hnone)
        simp only [hnone', reduceCtorEq, false_and, if_false, lt_self_iff_false, false_or,
          boundaryChangedAtSameEof_self, Bool.false_eq_true, and_false, ite_self, alone_throw_iff]
        exact .inl ⟨e, rfl⟩
      · split
        · exact alone_markThrow fun _ => .inl ⟨e, rfl⟩
        · refine .bind (.failIf ⟨fun _ => .inl ⟨_, rfl⟩, fun _ => ?_⟩)
          refine .bind (.onBackend (alone_query ?_))
          rintro (e' | current)
          · exact .inl ⟨e', rfl⟩
          · refine .bind (.failIf ⟨fun _ => .inl ⟨_, rfl⟩, fun _ => ?_⟩)
            simp only [lt_self_iff_false, if_false]
            exact ih

end

/-! ## 公開 -/

def PublishOutcome (cx : MetaContext) (ino : InodeID) (c c' : COWChunk) (b : Backend) :
    Result (ChunkID × COWChunkHead) → COWChunk × Backend → Prop
  | .ok p, s => Flushable cx ino c b ∧ p = (c.publishId b, c.nextHead b) ∧ s.1 = c' ∧
      PublishedIn cx ino c b s.2
  | .error _, _ => ¬ Flushable cx ino c b

/-- object を上げて head を差し替えた後の外部状態 -/
def prepared (c : COWChunk) (b : Backend) : Backend :=
  let b' := withCandidate c b
  { b' with
    cowRevision := update b.cowRevision (c.publishId b) (c.nextHead b).revision
    objects := update b'.objects (.cow (c.publishId b) (c.nextHead b).revision)
      (some c.bytes)
    cowHead := update b'.cowHead (c.publishId b) (some (c.nextHead b)) }

variable {c' : COWChunk} {file : FileChunkSnapshot}

theorem finalize_outcome {retry : FileChunkSnapshot → SessionIo COWChunk (ChunkID × COWChunkHead)}
    (hsnap : SnapshotOf cx.chunkSize b.redis ino c.index file)
    (hfile : file.chunkId = c.attachedId)
    (hw : validateFileChunkWrite c.index (c.publishId b)
      (c.index * cx.chunkSize + c.bytes.length) cx.chunkSize = .ok ())
    (hready : hasRestrictiveInodePolicy file.inode.attr = false → Flushable cx ino c b) :
    Alone Answer.NoFault (do
      match ← finalizeAttempts cx ino c.generation (c.index * cx.chunkSize + c.bytes.length)
          (c.publishId b) (c.nextHead b) 3 file last with
      | .finalized => return (c.publishId b, c.nextHead b)
      | .retryFresh observed => retry observed
      | .exhausted e =>
        markHeadPublished c.generation (c.nextHead b)
        throw e) (PublishOutcome cx ino c c' b) (c', prepared c b) := by
  have hsnap' : SnapshotOf cx.chunkSize (prepared c b).redis ino c.index file := by
    simpa [prepared] using hsnap
  have hid : ∀ id', c.attachedId = some id' → id' = c.publishId b := by
    intro id' h
    simp [COWChunk.publishId, h]
  rw [alone_bind_iff]
  cases hp : hasRestrictiveInodePolicy file.inode.attr with
  | false =>
    refine (finalizeAttempts_ok 2 hsnap' hw hp hfile hid).mono ?_
    rintro r s ⟨rfl, redis, rfl, hfin⟩
    refine .pure ⟨hready hp, rfl, rfl, hfin.attachment, ?_, ?_, hfin.eof⟩
    · simp [prepared]
    · simp [prepared]
  | true =>
    have hno : ¬ Flushable cx ino c b := by
      rintro h
      obtain ⟨file', hs, hp', -⟩ := h.file
      rw [hsnap.unique hs, hp] at hp'
      cases hp'
    refine (finalizeAttempts_refused 3 hsnap' hp hfile).mono ?_
    rintro r s (⟨e, rfl⟩ | ⟨e, rfl⟩)
    · exact hno
    · exact alone_markThrow fun _ => hno

theorem candidateAttempts_alone (attempts : Nat)
    (hsnap : SnapshotOf cx.chunkSize b.redis ino c.index file) (hfile : file.chunkId = c.attachedId)
    (hatt : c.attachedId.isSome = true → c.publishedHead.isSome = true) (hpos : 0 < c.bytes.length)
    (hfit : c.index * cx.chunkSize + c.bytes.length ≤ kMaxSupportedFileSize) :
    Alone Answer.NoFault
      (candidateAttempts cx ino c.generation (c.index * cx.chunkSize + c.bytes.length)
        (attempts + 1) file)
      (PublishOutcome cx ino c c' b) (c', b) := by
  have hcs : 0 < cx.chunkSize := hsnap.chunkSize
  refine .bind (.onBackend (alone_candidateID_iff.mpr ?_))
  split
  · next hx => exact fun h => absurd (h.chunkIDs hx.1) (Nat.not_lt.mpr hx.2)
  next hx =>
  have hids : c.attachedId = none → b.nextChunkID < kMaxChunkIDValue := by
    intro ha
    by_contra hn
    exact hx ⟨ha, Nat.le_of_not_lt hn⟩
  have hid : isValidChunkID (c.publishId b) = true := by
    unfold COWChunk.publishId
    cases ha : c.attachedId with
    | some id => exact hsnap.valid id (hfile.trans ha)
    | none => exact isValidChunkID_succ_iff.mpr (hids ha)
  refine .bind (.ofResult ?_)
  cases hw : validateFileChunkWrite c.generation.index (c.publishId b)
      (c.index * cx.chunkSize + c.bytes.length) cx.chunkSize with
  | error e =>
    intro h
    have hok : validateFileChunkWrite c.index (c.publishId b)
        (c.index * cx.chunkSize + c.bytes.length) cx.chunkSize = .ok () :=
      validateFileChunkWrite_ok_iff.mpr
        ⟨hid, hcs, hfit, by omega, Nat.add_le_add_left h.inChunk _⟩
    exact absurd (hok.symm.trans hw) (by simp)
  | ok u =>
    have hin : c.bytes.length ≤ cx.chunkSize := by
      obtain ⟨-, -, -, -, h⟩ := validateFileChunkWrite_ok_iff.mp hw
      exact Nat.le_of_add_le_add_left h
    refine .bind (.onBackend ((alone_allocateRevision_iff hid).mpr ?_))
    simp only [withCandidate_cowRevision]
    split
    · next hx => exact fun h => absurd h.revisions (Nat.not_lt.mpr hx)
    next hrev =>
    have hnext : isValidHead (c.nextHead b) = true := isValidHead_succ (Nat.lt_of_not_le hrev)
    refine .bind (.onBackend (alone_put_iff.mpr ?_))
    refine .bind (.onBackend (alone_publishHead hid ?_ ?_))
    · intro he
      obtain ⟨-, hhead, -, hadv⟩ := exchangeHead_ok_iff.mp he
      rw [withCandidate_cowHead] at hhead
      exact finalize_outcome hsnap hfile hw fun hp =>
        ⟨⟨file, hsnap, hp, hfile⟩, hhead, hatt, hadv, hids, Nat.lt_of_not_le hrev, hin, hfit⟩
    · intro e he h
      have hok := exchangeHead_ok_iff.mpr ⟨rfl, h.head, hnext, h.advances⟩
      rw [withCandidate_cowHead] at he
      exact absurd (hok.symm.trans he) (by simp)

theorem publishRange_alone (hsnap : SnapshotOf cx.chunkSize b.redis ino c.index file)
    (hfile : file.chunkId = c.attachedId)
    (hatt : c.attachedId.isSome = true → c.publishedHead.isSome = true) (hpos : 0 < c.bytes.length) :
    Alone Answer.NoFault (do
      let start ← ofResult (calculateChunkStartOffset c.generation.index cx.chunkSize)
      failIf (kMaxSupportedFileSize - start < c.generation.bytes.length)
        (.invalidArgument "COWChunk::Flush: file range exceeds supported size")
      candidateAttempts cx ino c.generation (start + c.generation.bytes.length) 8 file)
      (PublishOutcome cx ino c c' b) (c', b) := by
  refine .bind (.ofResult ?_)
  cases hstart : calculateChunkStartOffset c.generation.index cx.chunkSize with
  | error e =>
    intro h
    have hok := calculateChunkStartOffset_ok_iff.mpr
      ⟨hsnap.chunkSize, (Nat.le_add_right _ _).trans h.inFile, rfl⟩
    exact absurd (hok.symm.trans hstart) (by simp)
  | ok start =>
    obtain ⟨-, hmax, rfl⟩ := calculateChunkStartOffset_ok_iff.mp hstart
    have hmax' : c.index * cx.chunkSize ≤ kMaxSupportedFileSize := hmax
    refine .bind (.failIf ⟨fun hlt h => ?_, fun hfit => ?_⟩)
    · have hlt' : kMaxSupportedFileSize - c.index * cx.chunkSize < c.bytes.length := hlt
      have := h.inFile
      omega
    · have hfit' : ¬ kMaxSupportedFileSize - c.index * cx.chunkSize < c.bytes.length := hfit
      exact candidateAttempts_alone 7 hsnap hfile hatt hpos (by omega)

theorem publish_alone (hpos : 0 < c.bytes.length) :
    Alone Answer.NoFault (publish cx ino c.generation) (PublishOutcome cx ino c c' b) (c', b) := by
  refine .bind (.onBackend (.query ?_))
  cases hread : readFileChunkSnapshot cx.chunkSize b.redis ino c.generation.index with
  | error e =>
    rintro ⟨⟨file, hsnap, -⟩, -⟩
    exact absurd ((readFileChunkSnapshot_ok_iff.mpr hsnap).symm.trans hread) (by simp)
  | ok file =>
    have hsnap : SnapshotOf cx.chunkSize b.redis ino c.index file :=
      readFileChunkSnapshot_ok_iff.mp hread
    refine .bind (.failIf ⟨fun hne => ?_, fun hfile => ?_⟩)
    · rintro ⟨⟨file', hsnap', -, hf⟩, -⟩
      rw [hsnap.unique hsnap'] at hf
      exact hne hf
    · rw [not_not] at hfile
      have hfile' : file.chunkId = c.attachedId := hfile
      simp only [next_ok]
      cases ha : c.generation.sessionId with
      | none =>
        have ha' : c.attachedId = none := ha
        exact publishRange_alone hsnap hfile' (by simp [ha']) hpos
      | some id =>
        have ha' : c.attachedId = some id := ha
        have hid : isValidChunkID id = true := hsnap.valid id (hfile'.trans ha')
        have hpid : c.publishId b = id := by simp [COWChunk.publishId, ha']
        refine .bind (.onBackend (alone_mappedHead hid ?_ ?_))
        · intro h hh hv
          refine .bind (.failIf ⟨fun hne hf => ?_, fun heq => ?_⟩)
          · have hhead := hf.head
            rw [hpid, hh] at hhead
            exact hne hhead
          · have heq' : some h = c.publishedHead := not_not.mp heq
            exact publishRange_alone hsnap hfile' (fun _ => by rw [← heq']; rfl) hpos
        · intro e hno hf
          have hhead := hf.head
          obtain ⟨h, hh⟩ := Option.isSome_iff_exists.mp (hf.attached (by simp [ha']))
          rw [hpid, hh] at hhead
          have hv := (hf.advances h hh).1
          rw [hno h hhead] at hv
          cases hv

/-! ## Flush -/

/-- session が公開した内容を覚え、他に書き込みを持たない -/
structure SessionPublished (c : COWChunk) (b : Backend) (c' : COWChunk) : Prop where
  state : c'.state = .clean
  attachedId : c'.attachedId = some (c.publishId b)
  publishedHead : c'.publishedHead = some (c.nextHead b)
  visiblePrefix : c'.visiblePrefix = c.bytes.length

def FlushOutcome (cx : MetaContext) (ino : InodeID) (c : COWChunk) (b : Backend) :
    Result Unit → COWChunk × Backend → Prop
  | .ok (), s => Flushable cx ino c b ∧ SessionPublished c b s.1 ∧ PublishedIn cx ino c b s.2
  | .error _, _ => ¬ Flushable cx ino c b

theorem PublishedIn.queued (h : PublishedIn cx ino c b b') :
    PublishedIn cx ino c b
      { b' with redis := (KvCmd.hsetPendingDelete work).apply b'.redis } := by
  refine ⟨?_, h.head, h.object, ?_⟩
  · simpa [attachedAt] using h.attachment
  · simpa [eofOf] using h.eof

theorem retireRevision_alone (h : PublishedIn cx ino c b b') :
    Alone Answer.NoFault (retireRevision cx c.generation id replacement)
      (fun r s => r = .ok () ∧ s.1 = c' ∧ PublishedIn cx ino c b s.2) (c', b') := by
  unfold retireRevision
  split
  · split
    · refine .bind (.attempt (.onBackend
        (alone_transact_noFault_iff.mpr fun now => ?_)))
      exact .pure ⟨rfl, rfl, h.queued⟩
    · exact .pure ⟨rfl, rfl, h⟩
  · exact .pure ⟨rfl, rfl, h⟩

/-- 失敗が起きず他の誰も動かない Flush は、`Flushable` のときに限り成功し、buffer を公開する -/
theorem flush_alone (hstate : c.state = .dirty) (hpos : 0 < c.bytes.length) :
    Alone Answer.NoFault (flush cx ino) (FlushOutcome cx ino c b) (c, b) := by
  refine .bind (.modifySession ?_)
  have hne : ¬ (c.wb.getD []).length = 0 := Nat.pos_iff_ne_zero.mp hpos
  simp only [hstate, hne, reduceCtorEq, and_false, or_false, if_false, next_ok]
  refine .bind (.attempt ((publish_alone hpos).mono ?_))
  rintro (e | p) ⟨c', b'⟩ h
  · exact .bind (.modifySession (.throw h))
  · obtain ⟨hf, rfl, rfl, hpub⟩ := h
    refine .bind (.modifySession ?_)
    refine (retireRevision_alone hpub).mono ?_
    rintro r s ⟨rfl, hs, hpub'⟩
    exact ⟨hf, hs ▸ ⟨rfl, rfl, rfl, rfl⟩, hpub'⟩

theorem COWChunk.hasPendingWrites_iff :
    c.hasPendingWrites = true ↔ c.state ≠ .clean ∧ 0 < c.bytes.length := by
  unfold COWChunk.hasPendingWrites COWChunk.bytes
  cases c.wb <;> simp

theorem flush_nothing (hE : ∃ a, E a) (hstate : c.state ≠ .flushing)
    (h : c.hasPendingWrites = false) :
    Alone E (flush cx ino) (fun r s => r = .ok () ∧ s = (c, b)) (c, b) := by
  have hnone : c.state = .clean ∨ (c.state = .dirty ∧ (c.wb.getD []).length = 0) := by
    cases hs : c.state with
    | clean => exact .inl rfl
    | flushing => exact absurd hs hstate
    | dirty =>
      refine .inr ⟨rfl, ?_⟩
      have hp := COWChunk.hasPendingWrites_iff.not.mp (Bool.eq_false_iff.mp h)
      simp only [hs, ne_eq, reduceCtorEq, not_false_eq_true, true_and, Nat.not_lt,
        Nat.le_zero_eq] at hp
      exact hp
  refine .bind ((alone_modifySession_iff hE).mpr ?_)
  simp only [if_pos hnone, next_ok]
  exact .pure ⟨rfl, rfl⟩

end SwordFS.Chunk.Cow
